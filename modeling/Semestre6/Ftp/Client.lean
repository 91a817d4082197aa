/-
The client process (client.c), one step for each line typed at the prompt, each message it waits for, or the silence
that ends a wait.

`Pc` is the place of the wait; a step runs the code from one wait to the next with everything it writes to the slave.
The local command host runs a program and writes nothing.

- `step`: the process, with its command loop, `reception_donnees_crash`, `reception_fichier` and
  `envoi_fichier_a_esclave`.
-/
import Semestre6.Ftp.Parse
import Semestre6.Ftp.Transfert

namespace Semestre6.Ftp.Client

open Octets Parse

inductive Pc where
  /-- the first int of the slave -/
  | accueil
  -- reception_donnees_crash
  | nomCrash
  | offsetCrash (filename : Octets)
  | tailleCrash (filename : Octets) (nbBytes : ℤ)
  | recoit (nom : Octets) (r : Reception)
  /-- the prompt -/
  | invite
  | attLs
  | attPwd
  /-- the OK of a command with an argument -/
  | attOk (cmd : ℤ) (arg : Octets)
  | attTaille (nom : Octets)
  | attOkNom (nom : Octets)
  | attOkTaille (e : Envoi)
  | envoie (e : Envoi)
  /-- the process has ended -/
  | parti
deriving DecidableEq, Repr

structure Etat where
  pc : Pc
  /-- the bytes that `reception_donnees_crash` finds in its local `filename` -/
  tampon : Octets
deriving DecidableEq, Repr

inductive Entree where
  | ligne (l : Octets)
  | recu (m : Msg)
  | silence
deriving DecidableEq, Repr

inductive Sortie where
  | esclave (m : Msg)
  /-- `reception_fichier` starts, at `r.nb` -/
  | debut (nom : Octets) (r : Reception)
deriving DecidableEq, Repr

def Sortie.versEsclave : Sortie → Option Msg
  | .esclave m => some m
  | _ => none

/-- `n = read(fd, buf, MAXLINE); buf[n+1] = 0` -/
def lireNomCrash (buf b : Octets) : Octets := (readInto buf b).set (b.length + 1) 0

/-- `reception_fichier` up to its first wait -/
def receptionFichier (s : Etat) (nom : Octets) (r : Reception) : Option (Etat × List Sortie) :=
  some ({ s with pc := if r.Encore then .recoit nom r else .invite }, [.debut nom r, .esclave (.ent Code.ok)])

/-- the loop of `envoi_fichier_a_esclave` up to its next wait -/
def envoiFichierAEsclave (s : Etat) (e : Envoi) : Option (Etat × List Sortie) :=
  if e.Encore then
    if e.lit.nb < 2 ^ 31 then some ({ s with pc := .envoie e.lit }, (ecrit e.morceau).map .esclave) else none
  else some ({ s with pc := .invite }, [])

/-- the switch of the command loop; a command without its argument is only reported on the screen -/
def execute (s : Etat) (cmd : ℤ) (args : List Octets) : Option (Etat × List Sortie) :=
  if cmd = Code.exit then some ({ s with pc := .parti }, [.esclave (.ent cmd)])
  else if cmd = Code.ls then some ({ s with pc := .attLs }, [.esclave (.ent cmd)])
  else if cmd = Code.pwd then some ({ s with pc := .attPwd }, [.esclave (.ent cmd)])
  else if cmd = Code.mkdir ∨ cmd = Code.put ∨ cmd = Code.cd ∨ cmd = Code.get then
    match args with
    | arg :: _ => some ({ s with pc := .attOk cmd arg }, [.esclave (.ent cmd)])
    | [] => some (s, [])
  else if cmd = Code.rm then
    match args with
    | arg :: arg₂ :: _ =>
      if arg = octets "-r" then some ({ s with pc := .attOk Code.rmr arg₂ }, [.esclave (.ent Code.rmr)])
      else some ({ s with pc := .attOk cmd arg }, [.esclave (.ent cmd)])
    | [arg] => some ({ s with pc := .attOk cmd arg }, [.esclave (.ent cmd)])
    | [] => some (s, [])
  else some (s, [])

/-- the argument follows the OK of its command -/
def envoieArgument (s : Etat) (cmd : ℤ) (arg : Octets) : Option (Etat × List Sortie) :=
  if cmd = Code.get then some ({ s with pc := .attTaille arg }, (ecrit arg).map .esclave)
  else if cmd = Code.put then some ({ s with pc := .attOkNom arg }, (ecrit arg).map .esclave)
  else some ({ s with pc := .invite }, (ecrit arg).map .esclave)

/-- the size of the file of a put -/
def annonceTaille (d : Disque) (s : Etat) (nom : Octets) : Option (Etat × List Sortie) :=
  match d.lecture nom with
  | some f =>
    if d.stat nom then
      some ({ s with pc := .attOkTaille (Envoi.debut f 0 (versInt f.length)) }, [.esclave (.ent (versInt f.length))])
    else some ({ s with pc := .invite }, [.esclave (.ent (-1))])
  | none => some ({ s with pc := .invite }, [.esclave (.ent (-1))])

/-- the size of the file of a get -/
def recoitTaille (d : Disque) (s : Etat) (nom : Octets) (taille : ℤ) : Option (Etat × List Sortie) :=
  if 0 < taille then
    match d.ecriture nom with
    | some f => receptionFichier s nom (Reception.debut f 0 taille)
    | none => some ({ s with pc := .invite }, [.esclave (.ent Code.errorOpen)])
  else some ({ s with pc := .invite }, [])

def step (d : Disque) (s : Etat) (i : Entree) : Option (Etat × List Sortie) :=
  match s.pc, i with
  | .accueil, .recu (.ent v) =>
    if v = Code.clientCrashedDuringTransfert then some ({ s with pc := .nomCrash }, [.esclave (.ent Code.ok)])
    else some ({ s with pc := .invite }, [])
  -- reception_donnees_crash; a name that leaves no room for the terminator at n+1 is refused
  | .nomCrash, .recu (.octets b) =>
    if b.length + 1 < maxline then
      some ({ s with pc := .offsetCrash (cstr (lireNomCrash s.tampon b)) }, [.esclave (.ent Code.ok)])
    else none
  | .offsetCrash nom, .recu (.ent v) => some ({ s with pc := .tailleCrash nom v }, [.esclave (.ent Code.ok)])
  | .tailleCrash nom nb, .recu (.ent v) =>
    match d.existant nom with
    | some f => receptionFichier s nom (Reception.debut f nb v)
    | none => some ({ s with pc := .parti }, [])
  | .recoit nom r, .recu (.octets b) =>
    if b.length ≤ maxline ∧ r.nb + b.length < 2 ^ 31 then
      some ({ s with pc := if (r.recoit b).Encore then .recoit nom (r.recoit b) else .invite },
        [.esclave (.ent Code.ok)])
    else none
  | .invite, .ligne l =>
    match splitInWords (noEndofline l) with
    | cmd :: args => execute s (cmdToInt cmd) args
    | [] => some (s, [])
  -- plain reads, whatever comes is printed
  | .attLs, .recu _ | .attPwd, .recu _ => some ({ s with pc := .invite }, [])
  | .attOk cmd arg, .recu (.ent v) =>
    if v = Code.ok then envoieArgument s cmd arg else some ({ s with pc := .invite }, [])
  | .attTaille nom, .recu (.ent v) => recoitTaille d s nom v
  | .attOkNom nom, .recu (.ent v) =>
    if v = Code.ok then annonceTaille d s nom else some ({ s with pc := .invite }, [])
  | .attOkTaille e, .recu (.ent v) =>
    if v = Code.ok then envoiFichierAEsclave s e else some ({ s with pc := .parti }, [])
  | .envoie e, .recu (.ent _) => envoiFichierAEsclave s e
  -- every wait with a timeout ends the process
  | .invite, .silence | .attLs, .silence | .attPwd, .silence | .parti, _ => none
  | _, .silence => some ({ s with pc := .parti }, [])
  | _, _ => none

end Semestre6.Ftp.Client
