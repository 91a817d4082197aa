/-
The master, its slaves and clients that crash. The master is the one of `Maitre`, the slaves are those of `Esclave`, and
what a client sends, or its silence, is arbitrary at every wait. The master and the slaves live on: between them no
message is lost, and a wait only runs out when the other side is not about to write.

An interrupted transfer, an address, an offset and a name, is due from the moment its record is made until a resume
from this offset has sent its file to the end. A resume that is interrupted in its turn makes the transfer due from the
offset that it has reached. A resume takes the record out of the master's list before it has begun.

- `step`: the system, any number of slaves, freely interleaved;
- `Bon`: the steps that do not lose a transfer;
- `Conserve`: each transfer that is due has a record of its own, or a slave of its own that resumes it.
-/
import Semestre6.Lib.Conservation
import Semestre6.Ftp.Maitre
import Semestre6.Ftp.Esclave

namespace Semestre6.Ftp.Systeme

open Octets Transition Conservation StockIp Maitre

/-! ## The system -/

/-- one slave and its two channels with the master -/
structure Voie where
  esclave : Esclave.Etat
  /-- written by the master, not yet read by the slave -/
  vers : List Msg
  de : List Msg
  /-- its last report: the offset, and whether the transfer that it interrupts is a resume -/
  rapport : ℤ × Bool
deriving DecidableEq, Repr

structure Etat (N : ℕ) where
  maitre : Maitre.Etat N
  voies : Fin N → Voie
  /-- the transfers that are due -/
  dus : List Fiche

inductive Op (N : ℕ) where
  | arrivee (b : Octets)
  /-- the master reads the next message of slave `i`, of which `n` bytes have been sent when it is a run of bytes -/
  | maitre (i : Fin N) (n : ℕ) (ub : List Fiche)
  /-- its wait runs out -/
  | silence (ub : List Fiche)
  /-- slave `i` reads the next message of the master -/
  | esclave (i : Fin N) (d : Disque)
  /-- its wait for the master runs out -/
  | attente (i : Fin N) (d : Disque)
  /-- slave `i` reads a message of its client, or its wait for the client runs out -/
  | client (i : Fin N) (d : Disque) (m : Option Msg)

variable {N : ℕ}

def debut : Etat N := ⟨Maitre.initial, fun _ => ⟨Esclave.initial, [], [], (0, false)⟩, []⟩

def Voie.recoit (v : Voie) (l : List Msg) : Voie := { v with vers := v.vers ++ l }

/-- the slave has moved and written -/
def Voie.apres (v : Voie) (p : Esclave.Etat × List Esclave.Sortie) : Voie :=
  { v with
    esclave := p.1
    de := v.de ++ p.2.filterMap Esclave.Sortie.versMaitre
    rapport := match p.1.pc with
      | .rapport1 nb reprise => (nb, reprise)
      | _ => v.rapport }

/-- the transfer that a slave resumes, as its globals have it -/
def transfert (e : Esclave.Etat) : Fiche := ⟨cstr e.clientIp, e.nbCrash, cstr e.filename⟩

/-- the transfer that the slave has interrupted last -/
def Voie.interrompu (v : Voie) : Fiche := ⟨cstr v.esclave.clientIp, v.rapport.1, cstr v.esclave.filename⟩

/-- what is due when the master has read `m`: the last message of a report makes due what the slave has interrupted, in
the place of what it was resuming -/
def enregistre (pc : Maitre.Pc N) (v : Voie) (m : Msg) (dus : List Fiche) : List Fiche :=
  match pc, m with
  | .regNom _ _ _, .octets _ => v.interrompu :: if v.rapport.2 then dus.erase (transfert v.esclave) else dus
  | _, _ => dus

/-- a loop that has sent its file to the end -/
def envoye (e : Esclave.Etat) : Esclave.Sortie → Option Fiche
  | .fin nom v => if v.fichier.length ≤ v.nb then some ⟨cstr e.clientIp, e.nbCrash, nom⟩ else none
  | _ => none

/-- the transfers that a step of a slave in a resume brings to their end -/
def acheve (e : Esclave.Etat) (o : List Esclave.Sortie) : List Fiche :=
  match e.pc with
  | .repr4 _ | .envoie _ true => o.filterMap (envoye e)
  | _ => []

/-- the master is not about to write to slave `i` -/
def Muet (s : Etat N) (i : Fin N) : Prop :=
  if s.maitre.pc.phase i = .libre then .ent Code.clientCrashedDuringTransfert ∉ (s.voies i).de else (s.voies i).de = []

instance (s : Etat N) (i : Fin N) : Decidable (Muet s i) := by unfold Muet; infer_instance

def step (s : Etat N) : Op N → Option (Etat N)
  | .arrivee b =>
    -- inet_ntop ends the address by a zero
    if b.length = inetAddrstrlen ∧ 0 ∈ b then
      (Maitre.step [] s.maitre (.arrivee b)).map fun p =>
        { s with maitre := p.1, voies := fun j => (s.voies j).recoit (ecrits p.2 j) }
    else none
  | .maitre i n ub =>
    match (s.voies i).de with
    | [] => none
    | m :: reste =>
      (Maitre.step ub s.maitre (.recu i (m.coupe n))).map fun p =>
        ⟨p.1, fun j => (if i = j then { s.voies j with de := reste } else s.voies j).recoit (ecrits p.2 j),
          enregistre s.maitre.pc (s.voies i) (m.coupe n) s.dus⟩
  | .silence ub =>
    match s.maitre.pc.attendu with
    | none => none
    | some i =>
      if (s.voies i).vers = [] ∧ (s.voies i).de = [] then
        (Maitre.step ub s.maitre .silence).map fun p =>
          { s with maitre := p.1, voies := fun j => (s.voies j).recoit (ecrits p.2 j) }
      else none
  | .esclave i d =>
    match (s.voies i).vers with
    | [] => none
    | m :: reste =>
      if (s.voies i).esclave.pc.ecoute = some .maitre then
        (Esclave.step d (s.voies i).esclave (some m)).map fun p =>
          { s with voies := Function.update s.voies i ({ s.voies i with vers := reste }.apres p) }
      else none
  | .attente i d =>
    if (s.voies i).esclave.pc.ecoute = some .maitre ∧ (s.voies i).vers = [] ∧ Muet s i then
      (Esclave.step d (s.voies i).esclave none).map fun p =>
        { s with voies := Function.update s.voies i ((s.voies i).apres p) }
    else none
  | .client i d m =>
    if (s.voies i).esclave.pc.ecoute = some .client then
      (Esclave.step d (s.voies i).esclave m).map fun p =>
        { s with
          voies := Function.update s.voies i ((s.voies i).apres p)
          dus := s.dus.diff (acheve (s.voies i).esclave p.2) }
    else none

@[simp] theorem recoit_nil (v : Voie) : v.recoit [] = v := by simp [Voie.recoit]

@[simp] theorem recoit_esclave (v : Voie) (l : List Msg) : (v.recoit l).esclave = v.esclave := rfl

theorem step_maitre {s s' : Etat N} {i : Fin N} {n : ℕ} {ub : List Fiche} (h : step s (.maitre i n ub) = some s') :
    ∃ m reste p, (s.voies i).de = m :: reste ∧ Maitre.step ub s.maitre (.recu i (m.coupe n)) = some p ∧
      s' = ⟨p.1, fun j => (if i = j then { s.voies j with de := reste } else s.voies j).recoit (ecrits p.2 j),
        enregistre s.maitre.pc (s.voies i) (m.coupe n) s.dus⟩ := by
  simp only [step] at h
  split at h
  · cases h
  · rename_i m reste hv
    obtain ⟨p, hp, rfl⟩ := Option.map_eq_some_iff.1 h
    exact ⟨m, reste, p, hv, hp, rfl⟩

theorem step_esclave {s s' : Etat N} {i : Fin N} {d : Disque} (h : step s (.esclave i d) = some s') :
    ∃ m reste p, (s.voies i).vers = m :: reste ∧ (s.voies i).esclave.pc.ecoute = some .maitre ∧
      Esclave.step d (s.voies i).esclave (some m) = some p ∧
      s' = { s with voies := Function.update s.voies i ({ s.voies i with vers := reste }.apres p) } := by
  simp only [step] at h
  split at h
  · cases h
  · rename_i m reste hv
    split_ifs at h with hec
    obtain ⟨p, hp, rfl⟩ := Option.map_eq_some_iff.1 h
    exact ⟨m, reste, p, hv, hec, hp, rfl⟩

/-! ## The steps that do not lose a transfer -/

/-- what the client answers, and what the slave then does with its files -/
def BonClient (d : Disque) (e : Esclave.Etat) (m : Option Msg) : Prop :=
  match e.pc, m with
  -- in the recovery exchange it answers OK, and the file opens and has a size that fits an int
  | .repr1, m | .repr2, m | .repr4 _, m => m = some (.ent Code.ok)
  | .repr3, m =>
    m = some (.ent Code.ok) ∧ ∃ f, d.lecture (cstr e.filename) = some f ∧ d.stat (cstr e.filename) = true ∧
      f.length < 2 ^ 31
  -- in the data of a resume it is not silent before MAXLINE bytes are counted
  | .envoie v true, none => maxline ≤ v.nb
  -- the slave process does not end
  | .recoit _, none => False
  | .requete, some (.ent v) => v = Code.ls → Esclave.listable d ≠ none
  | _, _ => True

/-- what the slave does with a message of the master -/
def BonEsclave (d : Disque) (e : Esclave.Etat) (m : Msg) : Prop :=
  match e.pc, m with
  -- the slave process does not end
  | .lireAdresse, _ => d.connexion = true
  -- its buffer ends the name of the record where the record does
  | .nomCrash, .octets nom => cstr (readInto e.filename nom) = nom
  | _, _ => True

/-- what the master has in its list when it relays, and what it reads of a report -/
def BonMaitre (s : Maitre.Etat N) (m : Msg) : Prop :=
  match s.pc with
  | .attCrashOk _ ip => fileName s.unfinished ip ≠ some []
  -- remove_by_ip finds the address at the head of the list, or not at all
  | .attNomOk _ ip _ => removeByIp s.unfinished ip ≠ none
  | _ => Tenu s.pc m

def Bon (s : Etat N) : Op N → Prop
  | .maitre i n _ => ∀ m reste, (s.voies i).de = m :: reste → BonMaitre s.maitre (m.coupe n)
  | .esclave i d => ∀ m reste, (s.voies i).vers = m :: reste → BonEsclave d (s.voies i).esclave m
  | .client i d m => BonClient d (s.voies i).esclave m
  | _ => True

/-! ## What is kept -/

/-- the transfer that a slave is resuming, up to the last message of its own report -/
def Voie.reprise (ph : Phase) (v : Voie) : Option Fiche :=
  match v.esclave.pc, ph, v.vers with
  -- the offset is on its way
  | .offsetCrash, _, .ent nb :: _ => some { transfert v.esclave with nbBytes := nb }
  | .repr1, _, _ | .repr2, _, _ | .repr3, _, _ | .repr4 _, _, _ | .envoie _ true, _, _ => some (transfert v.esclave)
  | .rapport1 _ true, _, _ | .rapport2 _ true, _, _ | .rapport3 _ true, _, _ => some (transfert v.esclave)
  -- the master has not read the name yet
  | .lireAdresse, .rapNom _ _, _ => if v.rapport.2 then some (transfert v.esclave) else none
  | _, _, _ => none

def Etat.reprise (s : Etat N) (i : Fin N) : Option Fiche := (s.voies i).reprise (s.maitre.pc.phase i)

end Semestre6.Ftp.Systeme
