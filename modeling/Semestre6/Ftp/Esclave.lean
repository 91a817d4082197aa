/-
The slave process (slave.c), one step for each message it waits for, or for the silence that ends the wait.

`Pc` is the place of the wait. `repr1` to `repr4` are the waits of `envoi_info_crash_to_client`, `rapport1` to
`rapport3` those of `sent_crash_to_master`, `envoie` that of `envoi_fichier_au_client`. A step runs the code from one
wait to the next with everything it writes. A crash is silence: the socket stays open and nothing comes.

- `step`: the process;
- `Session`: from the read of an address to the next one;
- `avis_unique_iff`: a session whose handshakes the master answers notifies it exactly once if and only if no step is a
  `Faute`: a client that does not accept the connection, a reply other than OK to the size of a get, a silence in the
  data of a put, a listing that cannot be made, a silence in the recovery exchange or in the data that it resumes.
-/
import Semestre6.Ftp.Transfert

namespace Semestre6.Ftp.Esclave

open Octets Transition

/-! ## The process -/

inductive Pc where
  | lireAdresse
  | attReponse
  | nomCrash
  | offsetCrash
  | repr1
  | repr2
  | repr3
  | repr4 (e : Envoi)
  | requete
  /-- the argument of mkdir, rm, rm -r or cd -/
  | nom (cmd : ℤ)
  | nomPut
  | taillePut (file : Octets)
  | recoit (r : Reception)
  | nomGet
  | okGet (e : Envoi)
  /-- the OK of a chunk, in a get or in a resume -/
  | envoie (e : Envoi) (reprise : Bool)
  | rapport1 (nb : ℤ) (reprise : Bool)
  | rapport2 (nb : ℤ) (reprise : Bool)
  | rapport3 (nb : ℤ) (reprise : Bool)
  /-- the process has ended -/
  | mort
deriving DecidableEq, Repr

inductive Cote where
  | maitre
  | client
deriving DecidableEq, Repr

/-- the socket of the wait -/
def Pc.ecoute : Pc → Option Cote
  | .lireAdresse | .attReponse | .nomCrash | .offsetCrash => some .maitre
  | .rapport1 _ _ | .rapport2 _ _ | .rapport3 _ _ => some .maitre
  | .mort => none
  | _ => some .client

/-- the wait and the globals -/
structure Etat where
  pc : Pc
  clientIp : Octets
  filename : Octets
  nbCrash : ℤ
deriving DecidableEq, Repr

def initial : Etat := ⟨.lireAdresse, List.replicate inetAddrstrlen 0, List.replicate maxline 0, 0⟩

inductive Sortie where
  | maitre (m : Msg)
  /-- the notification that ends a session: SLAVE_FINISHED, CLIENT_CRASHED or CLIENT_CRASHED_DURING_TRANSFERT -/
  | avis (v : ℤ)
  | client (m : Msg)
  /-- `envoi_fichier_au_client` starts, at `e.nb` -/
  | debut (nom : Octets) (e : Envoi)
  /-- its loop ends without a crash -/
  | fin (nom : Octets) (e : Envoi)
deriving DecidableEq, Repr

def Sortie.versMaitre : Sortie → Option Msg
  | .maitre m => some m
  | .avis v => some (.ent v)
  | _ => none

def Sortie.versClient : Sortie → Option Msg
  | .client m => some m
  | _ => none

/-- `n = read(fd, buf, MAXLINE); buf[n] = 0` -/
def lireNom (buf b : Octets) : Octets := (readInto buf b).set b.length 0

/-- `connected = 0`, the client's socket is closed -/
def Etat.ferme (s : Etat) : Etat := { s with pc := .lireAdresse }

/-- the recovery gives up: it closes the client's socket, but `connected` is set when it returns, and the session loop's
select on a closed socket fails -/
def repriseFermee (s : Etat) (o : List Sortie) : Option (Etat × List Sortie) :=
  some (s.ferme, o ++ [.avis Code.clientCrashed])

/-- the loop of `envoi_fichier_au_client` up to its next wait -/
def boucleEnvoi (s : Etat) (e : Envoi) (reprise : Bool) : Option (Etat × List Sortie) :=
  if e.Encore then
    -- past the range of int, `nb` is undefined
    if e.lit.nb < 2 ^ 31 then some ({ s with pc := .envoie e.lit reprise }, (ecrit e.morceau).map .client) else none
  else some ({ s with pc := .requete }, [.fin (cstr s.filename) e])

def envoiFichierAuClient (s : Etat) (e : Envoi) (reprise : Bool) : Option (Etat × List Sortie) :=
  (boucleEnvoi s e reprise).map fun p => (p.1, .debut (cstr s.filename) e :: p.2)

/-- the silence of the client after a chunk, counted in `nb` -/
def silenceEnvoi (s : Etat) (e : Envoi) (reprise : Bool) : Option (Etat × List Sortie) :=
  -- `nb = nb_octets+1` ends the loop: past the range of int it is undefined
  if e.nbOctets + 1 < 2 ^ 31 then
    if e.nb - maxline < 0 then
      if reprise then repriseFermee s [.avis Code.clientCrashed] else some (s.ferme, [.avis Code.clientCrashed])
    else
      some ({ s with pc := .rapport1 (e.nb - maxline) reprise }, [.avis Code.clientCrashedDuringTransfert])
  else none

/-- the last message of `sent_crash_to_master`, and the end of the session -/
def finRapport (s : Etat) (reprise : Bool) : Option (Etat × List Sortie) :=
  if reprise then repriseFermee s [.maitre (.octets s.filename)] else some (s.ferme, [.maitre (.octets s.filename)])

/-- what ls writes: the names but `.` and `..`, a newline after each -/
def listing (l : List Octets) : Octets :=
  (l.filter fun n => n ≠ octets "." ∧ n ≠ octets "..").flatMap (· ++ [10])

/-- the listing fits the buffer; `readdir` of a failed `opendir` and an overflow are undefined and end the process -/
def listable (d : Disque) : Option Octets :=
  d.liste.bind fun l => if (listing l).length < maxline then some (listing l) else none

def ouvrePut (d : Disque) (s : Etat) : Option (Etat × List Sortie) :=
  match d.ecriture (cstr s.filename) with
  | some f => some ({ s with pc := .taillePut f }, [.client (.ent Code.ok)])
  | none => some ({ s with pc := .requete }, [.client (.ent Code.errorOpen)])

def ouvreGet (d : Disque) (s : Etat) : Option (Etat × List Sortie) :=
  match d.lecture (cstr s.filename) with
  | some f =>
    if d.stat (cstr s.filename) then
      some ({ s with pc := .okGet (Envoi.debut f 0 (versInt f.length)) }, [.client (.ent (versInt f.length))])
    else some ({ s with pc := .requete }, [])
  | none => some ({ s with pc := .requete }, [.client (.ent (-1))])

def ouvreReprise (d : Disque) (s : Etat) : Option (Etat × List Sortie) :=
  match d.lecture (cstr s.filename) with
  | some f =>
    if d.stat (cstr s.filename) then
      some ({ s with pc := .repr4 (Envoi.debut f s.nbCrash (versInt f.length)) }, [.client (.ent (versInt f.length))])
    else some ({ s with pc := .requete }, [])
  | none => some ({ s with pc := .requete }, [])

theorem ouvreReprise_ok {d : Disque} {s : Etat} {f : Octets} (hl : d.lecture (cstr s.filename) = some f)
    (hst : d.stat (cstr s.filename) = true) :
    ouvreReprise d s =
      some ({ s with pc := .repr4 (Envoi.debut f s.nbCrash (versInt f.length)) },
        [.client (.ent (versInt f.length))]) := by
  simp only [ouvreReprise, hl, hst, if_true]

theorem ouvreReprise_echec {d : Disque} {s : Etat}
    (h : ¬∃ f, d.lecture (cstr s.filename) = some f ∧ d.stat (cstr s.filename) = true) :
    ouvreReprise d s = some ({ s with pc := .requete }, []) := by
  unfold ouvreReprise
  cases hl : d.lecture (cstr s.filename) with
  | none => rfl
  | some f => exact if_neg fun hst => h ⟨f, hl, hst⟩

/-- the switch of the session loop -/
def execute (d : Disque) (s : Etat) (cmd : ℤ) : Option (Etat × List Sortie) :=
  if cmd = Code.exit then some (s.ferme, [.avis Code.slaveFinished])
  else if cmd = Code.ls then
    match listable d with
    | some l => some (s, (ecrit l).map .client)
    | none => some ({ s with pc := .mort }, [])
  else if cmd = Code.pwd then some (s, (ecrit d.cwd).map .client)
  else if cmd = Code.mkdir ∨ cmd = Code.rmr ∨ cmd = Code.rm ∨ cmd = Code.cd then
    some ({ s with pc := .nom cmd }, [.client (.ent Code.ok)])
  else if cmd = Code.put then some ({ s with pc := .nomPut }, [.client (.ent Code.ok)])
  else if cmd = Code.get then some ({ s with pc := .nomGet }, [.client (.ent Code.ok)])
  else some (s, [])

/-- the step of a wait: `m` is what the read gives, `none` a silence. What a read cannot give is refused, and so is a
name that leaves no room for its terminator. -/
def step (d : Disque) (s : Etat) (m : Option Msg) : Option (Etat × List Sortie) :=
  match s.pc, m with
  | .lireAdresse, some (.octets b) =>
    if b.length ≤ inetAddrstrlen then
      if d.connexion then
        some ({ s with pc := .attReponse, clientIp := readInto s.clientIp b }, [.maitre (.ent Code.ok)])
      else some ({ s with pc := .mort, clientIp := readInto s.clientIp b }, [])
    else none
  | .attReponse, none => some ({ s with pc := .lireAdresse }, [])
  | .attReponse, some (.ent v) =>
    if v = Code.clientCrashed then some ({ s with pc := .nomCrash }, [.maitre (.ent Code.ok)])
    else if v = Code.default then
      some ({ s with pc := .requete }, [.maitre (.ent Code.ok), .client (.ent Code.default)])
    else some ({ s with pc := .requete }, [])
  -- reception_info_crash_from_master
  | .nomCrash, none => some ({ s with pc := .repr1 }, [.client (.ent Code.clientCrashedDuringTransfert)])
  | .nomCrash, some (.octets b) =>
    if b.length ≤ maxline then
      some ({ s with pc := .offsetCrash, filename := readInto s.filename b }, [.maitre (.ent Code.ok)])
    else none
  | .offsetCrash, none => some ({ s with pc := .repr1 }, [.client (.ent Code.clientCrashedDuringTransfert)])
  | .offsetCrash, some (.ent v) =>
    some ({ s with pc := .repr1, nbCrash := v }, [.client (.ent Code.clientCrashedDuringTransfert)])
  -- envoi_info_crash_to_client
  | .repr1, none | .repr2, none | .repr3, none | .repr4 _, none => repriseFermee s [.avis Code.clientCrashed]
  | .repr1, some (.ent v) =>
    if v = Code.ok then some ({ s with pc := .repr2 }, (ecrit (cstr s.filename)).map .client) else repriseFermee s []
  | .repr2, some (.ent v) =>
    if v = Code.ok then some ({ s with pc := .repr3 }, [.client (.ent s.nbCrash)]) else repriseFermee s []
  | .repr3, some (.ent v) => if v = Code.ok then ouvreReprise d s else repriseFermee s []
  | .repr4 e, some (.ent v) => if v = Code.ok then envoiFichierAuClient s e true else repriseFermee s []
  -- the session loop
  | .requete, none => some (s.ferme, [.avis Code.clientCrashed])
  | .requete, some (.ent v) => execute d s v
  | .nom _, none | .nomPut, none | .taillePut _, none | .nomGet, none | .okGet _, none =>
    some (s.ferme, [.avis Code.clientCrashed])
  | .nom _, some (.octets b) => if b.length < maxline then some ({ s with pc := .requete }, []) else none
  | .nomPut, some (.octets b) =>
    if b.length < maxline then ouvrePut d { s with filename := lireNom s.filename b } else none
  | .taillePut f, some (.ent v) =>
    -- the OK of the size, then the one that reception_fichier sends before its loop
    if 0 < v then
      some ({ s with pc := .recoit (Reception.debut f 0 v) }, [.client (.ent Code.ok), .client (.ent Code.ok)])
    else some ({ s with pc := .requete }, [])
  | .recoit _, none => some ({ s with pc := .mort }, [])
  | .recoit r, some (.octets b) =>
    if b.length ≤ maxline ∧ r.nb + b.length < 2 ^ 31 then
      some ({ s with pc := if (r.recoit b).Encore then .recoit (r.recoit b) else .requete }, [.client (.ent Code.ok)])
    else none
  | .nomGet, some (.octets b) =>
    if b.length < maxline then ouvreGet d { s with filename := lireNom s.filename b } else none
  | .okGet e, some (.ent v) =>
    -- the socket is closed and nobody is told
    if v = Code.ok then envoiFichierAuClient s e false else some (s.ferme, [])
  -- envoi_fichier_au_client: a reply other than OK is only printed
  | .envoie e r, none => silenceEnvoi s e r
  | .envoie e r, some (.ent _) => boucleEnvoi s e r
  -- sent_crash_to_master
  | .rapport1 _ _, none | .rapport2 _ _, none | .rapport3 _ _, none => some ({ s with pc := .mort }, [])
  | .rapport1 nb r, some (.ent v) =>
    if v = Code.ok then some ({ s with pc := .rapport2 nb r }, [.maitre (.octets s.clientIp)])
    else some ({ s with pc := .mort }, [])
  | .rapport2 nb r, some (.ent v) =>
    if v = Code.ok then some ({ s with pc := .rapport3 nb r }, [.maitre (.ent nb)])
    else some ({ s with pc := .mort }, [])
  | .rapport3 _ r, some (.ent v) => if v = Code.ok then finRapport s r else some ({ s with pc := .mort }, [])
  | _, _ => none

/-! ## Sessions -/

/-- what a step receives: the state of the files at that moment and what the read gives -/
abbrev Entree := Disque × Option Msg

def pas (s : Etat) (i : Entree) : Option (Etat × List Sortie) := step i.1 s i.2

/-- between two sessions, or ended -/
def Etat.HorsSession (s : Etat) : Prop := s.pc = .lireAdresse ∨ s.pc = .mort

instance (s : Etat) : Decidable s.HorsSession := by unfold Etat.HorsSession; infer_instance

/-- the process reads an address and goes on until it is back at that read or ends -/
structure Session (s : Etat) (i : Entree) (l : List Entree) (t : Etat) (o : List Sortie) : Prop where
  debut : s.pc = .lireAdresse
  suite : ∃ s₁ o₁ o₂, pas s i = some (s₁, o₁) ∧ runO pas s₁ l = some (t, o₂) ∧ o = o₁ ++ o₂ ∧
    AlwaysO pas (fun s _ => ¬s.HorsSession) s₁ l
  fin : t.HorsSession

def estAvis : Sortie → Bool
  | .avis _ => true
  | _ => false

def nbAvis (o : List Sortie) : ℕ := o.countP estAvis

@[simp] theorem nbAvis_nil : nbAvis [] = 0 := rfl

@[simp] theorem nbAvis_append (o o' : List Sortie) : nbAvis (o ++ o') = nbAvis o + nbAvis o' := List.countP_append

@[simp] theorem nbAvis_avis (v : ℤ) (o : List Sortie) : nbAvis (.avis v :: o) = nbAvis o + 1 := by
  rw [nbAvis, List.countP_cons_of_pos rfl, nbAvis]

@[simp] theorem nbAvis_maitre (m : Msg) (o : List Sortie) : nbAvis (.maitre m :: o) = nbAvis o := by
  simp [nbAvis, estAvis]

@[simp] theorem nbAvis_client (m : Msg) (o : List Sortie) : nbAvis (.client m :: o) = nbAvis o := by
  simp [nbAvis, estAvis]

@[simp] theorem nbAvis_debut (n : Octets) (e : Envoi) (o : List Sortie) : nbAvis (.debut n e :: o) = nbAvis o := by
  simp [nbAvis, estAvis]

@[simp] theorem nbAvis_fin (n : Octets) (e : Envoi) (o : List Sortie) : nbAvis (.fin n e :: o) = nbAvis o := by
  simp [nbAvis, estAvis]

@[simp] theorem nbAvis_map_client (l : List Msg) : nbAvis (l.map .client) = 0 := by
  induction l with
  | nil => rfl
  | cons m l ih => simpa using ih

/-- the master answers the handshakes, and the messages of a report by OK -/
def MaitreRepond (s : Etat) (i : Entree) : Prop :=
  match s.pc with
  | .attReponse | .nomCrash | .offsetCrash => i.2 ≠ none
  | .rapport1 _ _ | .rapport2 _ _ | .rapport3 _ _ => i.2 = some (.ent Code.ok)
  | _ => True

/-- the exits that notify the master not at all, or twice -/
def Faute (s : Etat) (i : Entree) : Prop :=
  match s.pc, i.2 with
  | .lireAdresse, some _ => i.1.connexion = false
  | .okGet _, some (.ent v) => v ≠ Code.ok
  | .recoit _, none => True
  | .requete, some (.ent v) => v = Code.ls ∧ listable i.1 = none
  | .repr1, none | .repr2, none | .repr3, none | .repr4 _, none => True
  | .envoie _ true, none => True
  | _, _ => False

/-- the notifications still due in the session when no step of it is a fault -/
def du (s : Etat) : ℕ :=
  match s.pc with
  | .lireAdresse | .mort => 0
  | .rapport1 _ r | .rapport2 _ r | .rapport3 _ r => if r then 1 else 0
  | _ => 1

/-- the states from which a session cannot go wrong any more -/
def Acheve (s : Etat) : Prop :=
  match s.pc with
  | .lireAdresse | .mort | .rapport1 _ _ | .rapport2 _ _ | .rapport3 _ _ => True
  | _ => False

theorem boucleEnvoi_bilan {s s' : Etat} {e : Envoi} {r : Bool} {o : List Sortie}
    (h : boucleEnvoi s e r = some (s', o)) : nbAvis o = 0 ∧ du s' = 1 := by
  unfold boucleEnvoi at h
  split_ifs at h <;> cases h <;> simp [du]

theorem envoiFichier_bilan {s s' : Etat} {e : Envoi} {r : Bool} {o : List Sortie}
    (h : envoiFichierAuClient s e r = some (s', o)) : nbAvis o = 0 ∧ du s' = 1 := by
  simp only [envoiFichierAuClient, Option.map_eq_some_iff] at h
  obtain ⟨⟨t, o'⟩, hb, he⟩ := h
  cases he
  simpa using boucleEnvoi_bilan hb

theorem ouvrePut_bilan {d : Disque} {s s' : Etat} {o : List Sortie} (h : ouvrePut d s = some (s', o)) :
    nbAvis o = 0 ∧ du s' = 1 := by
  unfold ouvrePut at h
  split at h <;> cases h <;> simp [du]

theorem ouvreGet_bilan {d : Disque} {s s' : Etat} {o : List Sortie} (h : ouvreGet d s = some (s', o)) :
    nbAvis o = 0 ∧ du s' = 1 := by
  unfold ouvreGet at h
  split at h
  · split_ifs at h <;> cases h <;> simp [du]
  · cases h; simp [du]

theorem ouvreReprise_bilan {d : Disque} {s s' : Etat} {o : List Sortie} (h : ouvreReprise d s = some (s', o)) :
    nbAvis o = 0 ∧ du s' = 1 := by
  unfold ouvreReprise at h
  split at h
  · split_ifs at h <;> cases h <;> simp [du]
  · cases h; simp [du]

/-- a command ends the session with its notification, or the session goes on -/
theorem execute_bilan {d : Disque} {s s' : Etat} {cmd : ℤ} {o : List Sortie} (hs : s.pc = .requete)
    (h : execute d s cmd = some (s', o)) :
    (s'.HorsSession ∧ nbAvis o = 0 ∧ cmd = Code.ls ∧ listable d = none) ∨
      (nbAvis o + du s' = 1 ∧ ¬(cmd = Code.ls ∧ listable d = none)) := by
  unfold execute at h
  split_ifs at h with he hls
  · cases h; right; simp [du, Etat.ferme, he, Code.exit, Code.ls]
  · split at h
    · rename_i hl
      cases h; right; simp [du, hs, hl]
    · rename_i hl
      cases h; left; simp [Etat.HorsSession, hls, hl]
  all_goals cases h; right; simp [du, hs, hls]

theorem silenceEnvoi_bilan {s s' : Etat} {e : Envoi} {r : Bool} {o : List Sortie}
    (h : silenceEnvoi s e r = some (s', o)) : Acheve s' ∧ nbAvis o + du s' = if r then 2 else 1 := by
  unfold silenceEnvoi repriseFermee at h
  split_ifs at h with _ hn hr
  · cases h; simp [Acheve, du, Etat.ferme, hr]
  · cases h; simp [Acheve, du, Etat.ferme, hr]
  · cases h; cases r <;> simp [Acheve, du]

theorem finRapport_bilan {s s' : Etat} {r : Bool} {o : List Sortie} (h : finRapport s r = some (s', o)) :
    s'.HorsSession ∧ nbAvis o + du s' = if r then 1 else 0 := by
  unfold finRapport repriseFermee at h
  split_ifs at h with hr <;> cases h <;> simp [Etat.HorsSession, du, Etat.ferme, hr]

/-- what one step does to the notifications due: without a fault they are paid as they are sent; a fault ends the
session with none, or leaves it to send two -/
def Bilan (s : Etat) (i : Entree) (s' : Etat) (o : List Sortie) : Prop :=
  (¬Faute s i ∧ nbAvis o + du s' = du s) ∨
    (Faute s i ∧ du s = 1 ∧ ((s'.HorsSession ∧ nbAvis o = 0) ∨ (Acheve s' ∧ nbAvis o + du s' = 2)))

section
variable {s s' : Etat} {d : Disque} {m : Option Msg} {o : List Sortie}

/-- the waits on the master -/
theorem bilan_maitre (h : step d s m = some (s', o)) (hc : s.pc.ecoute = some .maitre) (hs : s.pc ≠ .lireAdresse)
    (hm : MaitreRepond s (d, m)) : Bilan s (d, m) s' o := by
  unfold step at h
  match hpc : s.pc with
  | .attReponse =>
    left
    rcases m with _ | v | b <;> simp only [MaitreRepond, hpc, ne_eq, not_true_eq_false] at hm <;>
      simp only [hpc] at h
    · split_ifs at h <;> cases h <;> simp [Faute, du, hpc]
    · cases h
  | .nomCrash =>
    left
    rcases m with _ | v | b <;> simp only [MaitreRepond, hpc, ne_eq, not_true_eq_false] at hm <;>
      simp only [hpc] at h
    · cases h
    · split_ifs at h; cases h; simp [Faute, du, hpc]
  | .offsetCrash =>
    left
    rcases m with _ | v | b <;> simp only [MaitreRepond, hpc, ne_eq, not_true_eq_false] at hm <;>
      simp only [hpc] at h
    · cases h; simp [Faute, du, hpc]
    · cases h
  | .rapport1 nb r =>
    left
    simp only [MaitreRepond, hpc] at hm
    subst hm
    simp only [hpc, if_true] at h
    cases h; simp [Faute, du, hpc]
  | .rapport2 nb r =>
    left
    simp only [MaitreRepond, hpc] at hm
    subst hm
    simp only [hpc, if_true] at h
    cases h; simp [Faute, du, hpc]
  | .rapport3 nb r =>
    left
    have hd : du s = if r then 1 else 0 := by simp [du, hpc]
    simp only [MaitreRepond, hpc] at hm
    subst hm
    simp only [hpc, if_true] at h
    simp [Faute, hpc, hd, finRapport_bilan h]
  | .lireAdresse => exact absurd hpc hs
  | .repr1 | .repr2 | .repr3 | .repr4 _ | .requete | .nom _ | .nomPut | .taillePut _ | .recoit _ | .nomGet
  | .okGet _ | .envoie _ _ | .mort =>
    rw [hpc] at hc
    cases hc

/-- the recovery exchange -/
theorem bilan_reprise (h : step d s m = some (s', o))
    (hr : s.pc = .repr1 ∨ s.pc = .repr2 ∨ s.pc = .repr3 ∨ ∃ e, s.pc = .repr4 e) : Bilan s (d, m) s' o := by
  unfold step at h
  match hpc : s.pc with
  | .repr1 =>
    rcases m with _ | v | b <;> simp only [hpc, repriseFermee] at h
    · right; cases h; simp [Faute, du, hpc, Acheve, Etat.ferme]
    · left; split_ifs at h <;> cases h <;> simp [Faute, du, hpc, Etat.ferme]
    · cases h
  | .repr2 =>
    rcases m with _ | v | b <;> simp only [hpc, repriseFermee] at h
    · right; cases h; simp [Faute, du, hpc, Acheve, Etat.ferme]
    · left; split_ifs at h <;> cases h <;> simp [Faute, du, hpc, Etat.ferme]
    · cases h
  | .repr3 =>
    have hd : du s = 1 := by simp [du, hpc]
    rcases m with _ | v | b <;> simp only [hpc, repriseFermee] at h
    · right; cases h; simp [Faute, du, hpc, Acheve, Etat.ferme]
    · left
      split_ifs at h
      · simp [Faute, hpc, hd, ouvreReprise_bilan h]
      · cases h; simp [Faute, du, hpc, Etat.ferme]
    · cases h
  | .repr4 e =>
    have hd : du s = 1 := by simp [du, hpc]
    rcases m with _ | v | b <;> simp only [hpc, repriseFermee] at h
    · right; cases h; simp [Faute, du, hpc, Acheve, Etat.ferme]
    · left
      split_ifs at h
      · simp [Faute, hpc, hd, envoiFichier_bilan h]
      · cases h; simp [Faute, du, hpc, Etat.ferme]
    · cases h
  | .lireAdresse | .attReponse | .nomCrash | .offsetCrash | .rapport1 _ _ | .rapport2 _ _ | .rapport3 _ _ | .mort
  | .requete | .nom _ | .nomPut | .taillePut _ | .recoit _ | .nomGet | .okGet _ | .envoie _ _ =>
    simp [hpc] at hr

/-- the waits on the client: those of the recovery exchange, and those of the session loop -/
theorem bilan_client (h : step d s m = some (s', o)) (hc : s.pc.ecoute = some .client) : Bilan s (d, m) s' o := by
  unfold step at h
  match hpc : s.pc with
  | .repr1 | .repr2 | .repr3 | .repr4 _ => exact bilan_reprise h (by simp [hpc])
  | .requete =>
    have hd : du s = 1 := by simp [du, hpc]
    rcases m with _ | v | b <;> simp only [hpc] at h
    · left; cases h; simp [Faute, du, hpc, Etat.ferme]
    · rcases execute_bilan hpc h with ⟨h1, h2, h3⟩ | ⟨h1, h2⟩
      · right; simp [Faute, hpc, hd, h1, h2, h3]
      · left; simpa [Faute, hpc, hd, h1] using h2
    · cases h
  | .nom cmd =>
    left
    rcases m with _ | v | b <;> simp only [hpc] at h
    · cases h; simp [Faute, du, hpc, Etat.ferme]
    · cases h
    · split_ifs at h; cases h; simp [Faute, du, hpc]
  | .nomPut =>
    have hd : du s = 1 := by simp [du, hpc]
    left
    rcases m with _ | v | b <;> simp only [hpc] at h
    · cases h; simp [Faute, du, hpc, Etat.ferme]
    · cases h
    · split_ifs at h; simp [Faute, hpc, hd, ouvrePut_bilan h]
  | .taillePut f =>
    left
    rcases m with _ | v | b <;> simp only [hpc] at h
    · cases h; simp [Faute, du, hpc, Etat.ferme]
    · split_ifs at h <;> cases h <;> simp [Faute, du, hpc]
    · cases h
  | .recoit r =>
    rcases m with _ | v | b <;> simp only [hpc] at h
    · right; cases h; simp [Faute, du, hpc, Etat.HorsSession]
    · cases h
    · left
      split_ifs at h <;> cases h <;> simp [Faute, du, hpc]
  | .nomGet =>
    have hd : du s = 1 := by simp [du, hpc]
    left
    rcases m with _ | v | b <;> simp only [hpc] at h
    · cases h; simp [Faute, du, hpc, Etat.ferme]
    · cases h
    · split_ifs at h; simp [Faute, hpc, hd, ouvreGet_bilan h]
  | .okGet e =>
    have hd : du s = 1 := by simp [du, hpc]
    rcases m with _ | v | b <;> simp only [hpc] at h
    · left; cases h; simp [Faute, du, hpc, Etat.ferme]
    · split_ifs at h with hv
      · left; simp [Faute, hpc, hv, hd, envoiFichier_bilan h]
      · right; cases h; simp [Faute, hpc, hv, du, Etat.HorsSession, Etat.ferme]
    · cases h
  | .envoie e r =>
    have hd : du s = 1 := by simp [du, hpc]
    rcases m with _ | v | b <;> simp only [hpc] at h
    · cases r with
      | true => right; simp [Faute, hpc, hd, silenceEnvoi_bilan h]
      | false => left; simp [Faute, hpc, hd, silenceEnvoi_bilan h]
    · left; simp [Faute, hpc, hd, boucleEnvoi_bilan h]
    · cases h
  | .lireAdresse | .attReponse | .nomCrash | .offsetCrash | .rapport1 _ _ | .rapport2 _ _ | .rapport3 _ _ | .mort =>
    rw [hpc] at hc
    cases hc

end

theorem mort_of_ecoute {pc : Pc} (h : pc.ecoute = none) : pc = .mort := by
  match pc with
  | .mort => rfl
  | .lireAdresse | .attReponse | .nomCrash | .offsetCrash | .rapport1 _ _ | .rapport2 _ _ | .rapport3 _ _
  | .repr1 | .repr2 | .repr3 | .repr4 _ | .requete | .nom _ | .nomPut | .taillePut _ | .recoit _ | .nomGet
  | .okGet _ | .envoie _ _ => cases h

theorem pas_bilan {s s' : Etat} {i : Entree} {o : List Sortie} (h : pas s i = some (s', o)) (hs : ¬s.HorsSession)
    (hm : MaitreRepond s i) : Bilan s i s' o := by
  match hc : s.pc.ecoute with
  | some .maitre => exact bilan_maitre h hc (fun hpc => hs (.inl hpc)) hm
  | some .client => exact bilan_client h hc
  | none => exact absurd (.inr (mort_of_ecoute hc)) hs

theorem du_le (s : Etat) : du s ≤ 1 := by
  unfold du
  split <;> first | omega | (split_ifs <;> omega)

theorem pas_acheve {s s' : Etat} {i : Entree} {o : List Sortie} (h : pas s i = some (s', o)) (ha : Acheve s)
    (hs : ¬s.HorsSession) (hm : MaitreRepond s i) : Acheve s' := by
  obtain ⟨d, m⟩ := i
  simp only [pas] at h
  cases hpc : s.pc with
  | rapport1 nb r =>
    simp only [MaitreRepond, hpc] at hm
    subst hm
    unfold step at h
    rw [hpc] at h
    simp only [if_true] at h
    cases h; simp [Acheve]
  | rapport2 nb r =>
    simp only [MaitreRepond, hpc] at hm
    subst hm
    unfold step at h
    rw [hpc] at h
    simp only [if_true] at h
    cases h; simp [Acheve]
  | rapport3 nb r =>
    simp only [MaitreRepond, hpc] at hm
    subst hm
    unfold step at h
    rw [hpc] at h
    simp only [if_true] at h
    rcases (finRapport_bilan h).1 with hp | hp <;> simp [Acheve, hp]
  | lireAdresse => exact absurd (Or.inl hpc) hs
  | mort => exact absurd (Or.inr hpc) hs
  | _ => simp [Acheve, hpc] at ha

theorem acheve_sans_faute {s : Etat} {i : Entree} (ha : Acheve s) (hs : ¬s.HorsSession) : ¬Faute s i := by
  cases hpc : s.pc with
  | lireAdresse => exact absurd (Or.inl hpc) hs
  | mort => exact absurd (Or.inr hpc) hs
  | rapport1 nb r | rapport2 nb r | rapport3 nb r => simp [Faute, hpc]
  | _ => simp [Acheve, hpc] at ha

/-- the rest of a session that cannot go wrong any more has no fault -/
theorem acheve_run {s t : Etat} {l : List Entree} {o : List Sortie} (ha : Acheve s) (h : runO pas s l = some (t, o))
    (hc : AlwaysO pas (fun s _ => ¬s.HorsSession) s l) (hm : AlwaysO pas MaitreRepond s l) :
    AlwaysO pas (fun s i => ¬Faute s i) s l := by
  induction l generalizing s o with
  | nil => trivial
  | cons i l ih =>
    obtain ⟨⟨s', o₁⟩, ⟨t', o₂⟩, hp, hr, he⟩ := runO_cons h
    obtain ⟨hc₀, hc⟩ := (alwaysO_cons hp).1 hc
    obtain ⟨hm₀, hm⟩ := (alwaysO_cons hp).1 hm
    have ha' := pas_acheve hp ha hc₀ hm₀
    cases he
    exact (alwaysO_cons hp).2 ⟨acheve_sans_faute ha hc₀, ih ha' hr hc hm⟩

theorem horsSession_run {s t : Etat} {l : List Entree} {o : List Sortie} (hs : s.HorsSession)
    (h : runO pas s l = some (t, o)) (hc : AlwaysO pas (fun s _ => ¬s.HorsSession) s l) : l = [] ∧ o = [] := by
  cases l with
  | nil => simp only [runO, Option.some.injEq, Prod.mk.injEq] at h; exact ⟨rfl, h.2.symm⟩
  | cons i l => exact absurd hs hc.1

/-- the notifications of the rest of a session -/
theorem session_bilan {s t : Etat} {l : List Entree} {o : List Sortie} (h : runO pas s l = some (t, o))
    (ht : t.HorsSession) (hc : AlwaysO pas (fun s _ => ¬s.HorsSession) s l) (hm : AlwaysO pas MaitreRepond s l) :
    (AlwaysO pas (fun s i => ¬Faute s i) s l → nbAvis o = du s) ∧
      (¬AlwaysO pas (fun s i => ¬Faute s i) s l → du s = 1 ∧ nbAvis o ≠ 1) := by
  induction l generalizing s o with
  | nil =>
    simp only [runO, Option.some.injEq, Prod.mk.injEq] at h
    obtain ⟨rfl, rfl⟩ := h
    refine ⟨?_, fun hn => absurd trivial hn⟩
    intro _
    rcases ht with hp | hp <;> simp [du, hp]
  | cons i l ih =>
    obtain ⟨⟨s', o₁⟩, ⟨t', o₂⟩, hp, hr, he⟩ := runO_cons h
    obtain ⟨hc₀, hc⟩ := (alwaysO_cons hp).1 hc
    obtain ⟨hm₀, hm⟩ := (alwaysO_cons hp).1 hm
    simp only [Prod.mk.injEq] at he
    obtain ⟨rfl, rfl⟩ := he
    dsimp only at hr hc hm
    obtain ⟨ih₁, ih₂⟩ := ih hr hc hm
    rw [alwaysO_cons hp, nbAvis_append]
    have hle := du_le s
    rcases pas_bilan hp hc₀ hm₀ with ⟨hf, hb⟩ | ⟨hf, hd, hb⟩
    · -- the step pays what it sends: the rest of the session decides
      refine ⟨?_, ?_⟩
      · intro hn
        have := ih₁ hn.2; omega
      · intro hn
        have := ih₂ fun hl => hn ⟨hf, hl⟩
        omega
    · refine ⟨fun hn => absurd hf hn.1, fun _ => ⟨hd, ?_⟩⟩
      rcases hb with ⟨hs', hz⟩ | ⟨ha, hb⟩
      · obtain ⟨-, ho₂⟩ := horsSession_run hs' hr hc
        simp [hz, ho₂]
      · have := ih₁ (acheve_run ha hr hc hm); omega

/-- **One notification a session.** A session whose handshakes the master answers notifies it exactly once if and only
if no step of it is a fault. -/
theorem avis_unique_iff (s t : Etat) (i : Entree) (l : List Entree) (o : List Sortie) (h : Session s i l t o)
    (hm : AlwaysO pas MaitreRepond s (i :: l)) :
    nbAvis o = 1 ↔ AlwaysO pas (fun s i => ¬Faute s i) s (i :: l) := by
  obtain ⟨s₁, o₁, o₂, hp, hr, rfl, hc⟩ := h.suite
  have hpc := h.debut
  obtain ⟨ho, hcas⟩ : nbAvis o₁ = 0 ∧ ((Faute s i ∧ s₁.HorsSession) ∨ (¬Faute s i ∧ du s₁ = 1)) := by
    unfold pas step at hp
    rw [hpc] at hp
    obtain ⟨d, _ | v | b⟩ := i <;> dsimp only at hp
    · cases hp
    · cases hp
    · split_ifs at hp with hl hx
      · cases hp; simp [Faute, du, hpc, hx]
      · cases hp; simp [Faute, Etat.HorsSession, hpc, hx]
  rw [alwaysO_cons hp, nbAvis_append, ho, Nat.zero_add]
  rcases hcas with ⟨hf, hs₁⟩ | ⟨hf, hd⟩
  · -- the client does not accept the connection
    obtain ⟨-, rfl⟩ := horsSession_run hs₁ hr hc
    exact ⟨fun hn => absurd hn (by simp), fun hl => absurd hf hl.1⟩
  · obtain ⟨h1, h2⟩ := session_bilan hr h.fin hc ((alwaysO_cons hp).1 hm).2
    constructor
    · intro hn
      by_contra hne
      exact (h2 fun hl => hne ⟨hf, hl⟩).2 hn
    · rintro ⟨-, hl⟩
      rw [h1 hl, hd]

/-- files that all open and are empty -/
def disqueVide : Disque where
  lecture _ := some []
  stat _ := true
  ecriture _ := some []
  existant _ := some []
  liste := some []
  cwd := octets "/"
  connexion := true

/-- a client that leaves at once -/
theorem avis_unique_iff_exit :
    ∃ t o, Session initial (disqueVide, some (.octets (octets "10.0.0.7")))
        [(disqueVide, some (.ent Code.default)), (disqueVide, some (.ent Code.exit))] t o ∧
      (nbAvis o = 1 ↔ AlwaysO pas (fun s i => ¬Faute s i) initial
        [(disqueVide, some (.octets (octets "10.0.0.7"))), (disqueVide, some (.ent Code.default)),
          (disqueVide, some (.ent Code.exit))]) := by
  have hcours : AlwaysO pas (fun s _ => ¬s.HorsSession)
      { initial with pc := .attReponse, clientIp := readInto initial.clientIp (octets "10.0.0.7") }
      [(disqueVide, some (.ent Code.default)), (disqueVide, some (.ent Code.exit))] := by
    refine (alwaysO_cons rfl).2 ⟨?_, (alwaysO_cons rfl).2 ⟨?_, trivial⟩⟩
    all_goals rintro (h | h) <;> cases h
  have hmaitre : AlwaysO pas MaitreRepond initial
      [(disqueVide, some (.octets (octets "10.0.0.7"))), (disqueVide, some (.ent Code.default)),
        (disqueVide, some (.ent Code.exit))] := by
    refine (alwaysO_cons rfl).2 ⟨?_, (alwaysO_cons rfl).2 ⟨?_, (alwaysO_cons rfl).2 ⟨?_, trivial⟩⟩⟩
    · exact trivial
    · intro h; cases h
    · exact trivial
  have h : Session initial (disqueVide, some (.octets (octets "10.0.0.7")))
      [(disqueVide, some (.ent Code.default)), (disqueVide, some (.ent Code.exit))]
      { initial with clientIp := readInto initial.clientIp (octets "10.0.0.7") }
      [.maitre (.ent Code.ok), .maitre (.ent Code.ok), .client (.ent Code.default), .avis Code.slaveFinished] :=
    ⟨rfl, ⟨_, _, _, rfl, rfl, rfl, hcours⟩, Or.inl rfl⟩
  exact ⟨_, _, h, avis_unique_iff _ _ _ _ _ h hmaitre⟩

/-- a client that answers the size of a get by ERROR_OPEN: the slave closes its socket and notifies nobody -/
theorem get_refuse_sans_avis :
    ∃ t o, Session initial (disqueVide, some (.octets (octets "10.0.0.7")))
        [(disqueVide, some (.ent Code.default)), (disqueVide, some (.ent Code.get)),
          (disqueVide, some (.octets (octets "f"))), (disqueVide, some (.ent Code.errorOpen))] t o ∧
      AlwaysO pas MaitreRepond initial
        [(disqueVide, some (.octets (octets "10.0.0.7"))), (disqueVide, some (.ent Code.default)),
          (disqueVide, some (.ent Code.get)), (disqueVide, some (.octets (octets "f"))),
          (disqueVide, some (.ent Code.errorOpen))] ∧
      nbAvis o = 0 := by
  refine ⟨_, _, ⟨rfl, ⟨_, _, _, rfl, rfl, rfl, ?_⟩, Or.inl rfl⟩, ?_, rfl⟩
  · refine (alwaysO_cons rfl).2 ⟨?_, (alwaysO_cons rfl).2 ⟨?_, (alwaysO_cons rfl).2 ⟨?_, (alwaysO_cons rfl).2 ⟨?_,
      trivial⟩⟩⟩⟩
    all_goals rintro (h | h) <;> cases h
  · refine (alwaysO_cons rfl).2 ⟨?_, (alwaysO_cons rfl).2 ⟨?_, (alwaysO_cons rfl).2 ⟨?_, (alwaysO_cons rfl).2 ⟨?_,
      (alwaysO_cons rfl).2 ⟨?_, trivial⟩⟩⟩⟩⟩
    all_goals first | exact trivial | (intro h; cases h)

end Semestre6.Ftp.Esclave
