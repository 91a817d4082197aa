/-
The child process of the master (master.c), which serves the arrivals and the slaves: one step for each message of a
slave, each arrival that it takes from its pipe, or the silence that ends a wait. The number of slaves is a parameter.

`Pc` is the place of the wait: the event loop, the handshake that follows an address (`attAddrOk`, `attCrashOk`, and
`attNomOk` in `envoi_info_crash`), the three reads of `register_crash_transfert`. The event loop serves the ready slaves
in order and then the pipe; here it takes them in any order. `register_crash_transfert` writes its terminators at
`nb_char+1`: a read that puts one outside its array is refused, and so is one without a zero, whose string would go on
into the byte at `nb_char` that nothing has written.

- `step`: the process;
- `Recu`, `step_recu`: all that reading a message can do;
- `phase`: what it is doing with one slave; `Recu.autre`: reading a message of another slave does not change it;
- `Recu.attCrashOk`: a relay is only announced for an address of the list.
-/
import Semestre6.Ftp.StockIp

namespace Semestre6.Ftp.Maitre

open Octets StockIp

inductive Pc (N : ℕ) where
  /-- the select of the event loop -/
  | boucle
  | attAddrOk (i : Fin N) (ip : Octets)
  | attCrashOk (i : Fin N) (ip : Octets)
  | attNomOk (i : Fin N) (ip : Octets) (nb : ℤ)
  | regIp (i : Fin N)
  | regNb (i : Fin N) (ip : Octets)
  | regNom (i : Fin N) (ip : Octets) (nb : ℤ)
deriving DecidableEq, Repr

structure Etat (N : ℕ) where
  pc : Pc N
  busy : Fin N → Bool
  unfinished : List Fiche

variable {N : ℕ}

def initial : Etat N := ⟨.boucle, fun _ => false, []⟩

inductive Entree (N : ℕ) where
  /-- the address of a client, as the parent writes it in the pipe -/
  | arrivee (b : Octets)
  | recu (i : Fin N) (m : Msg)
  | silence

/-- the slave of a wait -/
def Pc.attendu : Pc N → Option (Fin N)
  | .boucle => none
  | .attAddrOk i _ | .attCrashOk i _ | .attNomOk i _ _ | .regIp i | .regNb i _ | .regNom i _ _ => some i

def slaveNotBusy (busy : Fin N → Bool) : Option (Fin N) := (List.finRange N).find? fun i => !busy i

/-- what the loop does with an int of slave `i` -/
def recoit (s : Etat N) (i : Fin N) (v : ℤ) : Etat N × List (Fin N × Msg) :=
  if v = Code.slaveFinished ∨ v = Code.clientCrashed then ({ s with busy := Function.update s.busy i false }, [])
  else if v = Code.clientCrashedDuringTransfert then
    ({ s with busy := Function.update s.busy i false, pc := .regIp i }, [(i, .ent Code.ok)])
  else (s, [])

/-- the address of a client goes to the first free slave -/
def accueille (s : Etat N) (b : Octets) : Etat N × List (Fin N × Msg) :=
  match slaveNotBusy s.busy with
  | some i => ({ s with busy := Function.update s.busy i true, pc := .attAddrOk i (cstr b) }, [(i, .octets b)])
  | none => (s, [])

/-- what read gives to an array of `taille` bytes leaves room for the terminator at `nb_char+1`, and ends its string -/
def Tient (taille : ℕ) (b : Octets) : Prop := b.length + 1 < taille ∧ 0 ∈ b

instance (taille : ℕ) (b : Octets) : Decidable (Tient taille b) := by unfold Tient; infer_instance

/-- `remove_by_ip` after the relay; where it is undefined, `ub` is what the list reads as afterwards -/
def retire (s : Etat N) (ip : Octets) (ub : List Fiche) : Etat N :=
  { s with unfinished := (removeByIp s.unfinished ip).getD ub, pc := .boucle }

/-- the step of a wait, and what it writes to the slaves; `ub` is only read where the list is corrupted -/
def step (ub : List Fiche) (s : Etat N) (e : Entree N) : Option (Etat N × List (Fin N × Msg)) :=
  match s.pc, e with
  | .boucle, .arrivee b => some (accueille s b)
  | .boucle, .recu i (.ent v) => some (recoit s i v)
  | .attAddrOk i ip, .recu j (.ent v) =>
    if i = j then
      if v = Code.ok then
        if contain s.unfinished ip then some ({ s with pc := .attCrashOk i ip }, [(i, .ent Code.clientCrashed)])
        else some ({ s with pc := .boucle }, [(i, .ent Code.default)])
      else some ({ s with pc := .boucle }, [])
    else none
  | .attCrashOk i ip, .recu j (.ent v) =>
    if i = j then
      if v = Code.ok then
        (fileName s.unfinished ip).map fun nom =>
          ({ s with pc := .attNomOk i ip (bytes s.unfinished ip) }, (ecrit nom).map fun m => (i, m))
      else some ({ s with pc := .boucle }, [])
    else none
  | .attNomOk i ip nb, .recu j (.ent v) =>
    if i = j then some (retire s ip ub, if v = Code.ok then [(i, .ent nb)] else []) else none
  -- register_crash_transfert
  | .regIp i, .recu j (.octets b) =>
    if i = j ∧ Tient inetAddrstrlen b then some ({ s with pc := .regNb i (cstr b) }, [(i, .ent Code.ok)]) else none
  | .regNb i ip, .recu j (.ent nb) => if i = j then some ({ s with pc := .regNom i ip nb }, [(i, .ent Code.ok)]) else none
  | .regNom i ip nb, .recu j (.octets b) =>
    if i = j ∧ Tient maxline b then
      some ({ s with pc := .boucle, unfinished := add s.unfinished ip nb (cstr b) }, [])
    else none
  -- the silence of a slave is only reported on the screen, and the record goes all the same
  | .attNomOk _ ip _, .silence => some (retire s ip ub, [])
  | .attAddrOk _ _, .silence | .attCrashOk _ _, .silence | .regIp _, .silence | .regNb _ _, .silence
  | .regNom _ _ _, .silence => some ({ s with pc := .boucle }, [])
  | _, _ => none

/-! ## The master and one slave -/

/-- what the master is doing with one slave: nothing that it waits for, or a place of the handshake or of a report -/
inductive Phase where
  | libre
  | adresse (ip : Octets)
  | crash (ip : Octets)
  | nom (ip : Octets) (nb : ℤ)
  | rapIp
  | rapNb (ip : Octets)
  | rapNom (ip : Octets) (nb : ℤ)
deriving DecidableEq, Repr

def Pc.phase (j : Fin N) : Pc N → Phase
  | .boucle => .libre
  | .attAddrOk i ip => if i = j then .adresse ip else .libre
  | .attCrashOk i ip => if i = j then .crash ip else .libre
  | .attNomOk i ip nb => if i = j then .nom ip nb else .libre
  | .regIp i => if i = j then .rapIp else .libre
  | .regNb i ip => if i = j then .rapNb ip else .libre
  | .regNom i ip nb => if i = j then .rapNom ip nb else .libre

/-- what a step writes to slave `j` -/
def ecrits (o : List (Fin N × Msg)) (j : Fin N) : List Msg := (o.filter fun p => p.1 = j).map Prod.snd

@[simp] theorem ecrits_nil (j : Fin N) : ecrits [] j = [] := rfl

@[simp] theorem ecrits_self (i : Fin N) (m : Msg) : ecrits [(i, m)] i = [m] := by simp [ecrits]

theorem ecrits_ne {i j : Fin N} (h : i ≠ j) (m : Msg) : ecrits [(i, m)] j = [] := by simp [ecrits, h]

@[simp] theorem ecrits_map_self (i : Fin N) (l : List Msg) : ecrits (l.map fun m => (i, m)) i = l := by
  induction l with
  | nil => rfl
  | cons m l ih => simpa [ecrits] using ih

theorem ecrits_map_ne {i j : Fin N} (h : i ≠ j) (l : List Msg) : ecrits (l.map fun m => (i, m)) j = [] := by
  simp [ecrits, h]

/-- all that reading the message `m` of slave `i` can do, with what is then written -/
inductive Recu (ub : List Fiche) (s : Etat N) (i : Fin N) : Msg → Etat N → List (Fin N × Msg) → Prop
  | rien (v : ℤ) (hpc : s.pc = .boucle) (hfin : ¬(v = Code.slaveFinished ∨ v = Code.clientCrashed))
      (hrap : v ≠ Code.clientCrashedDuringTransfert) : Recu ub s i (.ent v) s []
  | fin (v : ℤ) (hpc : s.pc = .boucle) (hfin : v = Code.slaveFinished ∨ v = Code.clientCrashed) :
      Recu ub s i (.ent v) { s with busy := Function.update s.busy i false } []
  | rapport (hpc : s.pc = .boucle) :
      Recu ub s i (.ent Code.clientCrashedDuringTransfert)
        { s with busy := Function.update s.busy i false, pc := .regIp i } [(i, .ent Code.ok)]
  | crash (ip : Octets) (hpc : s.pc = .attAddrOk i ip) (hc : contain s.unfinished ip = true) :
      Recu ub s i (.ent Code.ok) { s with pc := .attCrashOk i ip } [(i, .ent Code.clientCrashed)]
  | defaut (ip : Octets) (hpc : s.pc = .attAddrOk i ip) :
      Recu ub s i (.ent Code.ok) { s with pc := .boucle } [(i, .ent Code.default)]
  | adresseRefusee (ip : Octets) (v : ℤ) (hpc : s.pc = .attAddrOk i ip) (hv : v ≠ Code.ok) :
      Recu ub s i (.ent v) { s with pc := .boucle } []
  | nom (ip nom : Octets) (hpc : s.pc = .attCrashOk i ip) (hnom : fileName s.unfinished ip = some nom) :
      Recu ub s i (.ent Code.ok) { s with pc := .attNomOk i ip (bytes s.unfinished ip) }
        ((ecrit nom).map fun m => (i, m))
  | crashRefuse (ip : Octets) (v : ℤ) (hpc : s.pc = .attCrashOk i ip) (hv : v ≠ Code.ok) :
      Recu ub s i (.ent v) { s with pc := .boucle } []
  | offset (ip : Octets) (nb v : ℤ) (hpc : s.pc = .attNomOk i ip nb) :
      Recu ub s i (.ent v) (retire s ip ub) (if v = Code.ok then [(i, .ent nb)] else [])
  | regIp (b : Octets) (hpc : s.pc = .regIp i) (hb : Tient inetAddrstrlen b) :
      Recu ub s i (.octets b) { s with pc := .regNb i (cstr b) } [(i, .ent Code.ok)]
  | regNb (ip : Octets) (nb : ℤ) (hpc : s.pc = .regNb i ip) :
      Recu ub s i (.ent nb) { s with pc := .regNom i ip nb } [(i, .ent Code.ok)]
  | regNom (ip : Octets) (nb : ℤ) (b : Octets) (hpc : s.pc = .regNom i ip nb) (hb : Tient maxline b) :
      Recu ub s i (.octets b) { s with pc := .boucle, unfinished := add s.unfinished ip nb (cstr b) } []

theorem step_recu {ub : List Fiche} {s s' : Etat N} {i : Fin N} {m : Msg} {o : List (Fin N × Msg)}
    (h : step ub s (.recu i m) = some (s', o)) : Recu ub s i m s' o := by
  cases hpc : s.pc with
  | boucle =>
    cases m with
    | octets b => simp [step, hpc] at h
    | ent v =>
      simp only [step, hpc, recoit] at h
      split_ifs at h with hfin hrap
      · cases h
        have hf : Recu ub s i (.ent v) { s with busy := Function.update s.busy i false } [] := .fin v hpc hfin
        rwa [hpc] at hf
      · cases h; rw [hrap]; exact .rapport hpc
      · cases h; exact .rien v hpc hfin hrap
  | attAddrOk k ip =>
    cases m with
    | octets b => simp [step, hpc] at h
    | ent v =>
      simp only [step, hpc] at h
      split_ifs at h with hk hv hc
      · subst hk; cases h; rw [hv]; exact .crash ip hpc hc
      · subst hk; cases h; rw [hv]; exact .defaut ip hpc
      · subst hk; cases h; exact .adresseRefusee ip v hpc hv
  | attCrashOk k ip =>
    cases m with
    | octets b => simp [step, hpc] at h
    | ent v =>
      simp only [step, hpc] at h
      split_ifs at h with hk hv
      · subst hk
        obtain ⟨nom, hnom, he⟩ := Option.map_eq_some_iff.1 h
        cases he; rw [hv]; exact .nom ip nom hpc hnom
      · subst hk; cases h; exact .crashRefuse ip v hpc hv
  | attNomOk k ip nb =>
    cases m with
    | octets b => simp [step, hpc] at h
    | ent v =>
      simp only [step, hpc] at h
      split_ifs at h with hk hv
      · subst hk hv; cases h; exact .offset ip nb Code.ok hpc
      · subst hk; cases h
        have hoff : Recu ub s k (.ent v) (retire s ip ub) (if v = Code.ok then [(k, .ent nb)] else []) :=
          .offset ip nb v hpc
        rwa [if_neg hv] at hoff
  | regIp k =>
    cases m with
    | ent v => simp [step, hpc] at h
    | octets b =>
      simp only [step, hpc] at h
      split_ifs at h with hk
      obtain ⟨rfl, hb⟩ := hk
      cases h; exact .regIp b hpc hb
  | regNb k ip =>
    cases m with
    | octets b => simp [step, hpc] at h
    | ent v =>
      simp only [step, hpc] at h
      split_ifs at h with hk
      subst hk; cases h; exact .regNb ip v hpc
  | regNom k ip nb =>
    cases m with
    | ent v => simp [step, hpc] at h
    | octets b =>
      simp only [step, hpc] at h
      split_ifs at h with hk
      obtain ⟨rfl, hb⟩ := hk
      cases h; exact .regNom ip nb b hpc hb

/-- a read of a report that is not refused -/
def Tenu (pc : Pc N) (m : Msg) : Prop :=
  match pc, m with
  | .regIp _, .octets b => Tient inetAddrstrlen b
  | .regNom _ _ _, .octets b => Tient maxline b
  | _, _ => True

theorem Recu.tenu {ub : List Fiche} {s s' : Etat N} {i : Fin N} {m : Msg} {o : List (Fin N × Msg)}
    (h : Recu ub s i m s' o) : Tenu s.pc m := by
  cases h with
  | regIp b hpc hb => rw [hpc]; exact hb
  | regNom ip nb b hpc hb => rw [hpc]; exact hb
  | _ => unfold Tenu; split <;> trivial

/-- out of its loop the master reads only from the slave it waits for -/
theorem Recu.attendu {ub : List Fiche} {s s' : Etat N} {i : Fin N} {m : Msg} {o : List (Fin N × Msg)}
    (h : Recu ub s i m s' o) : s.pc = .boucle ∨ s.pc.attendu = some i := by
  cases h with
  | rien _ hpc | fin _ hpc | rapport hpc => exact Or.inl hpc
  | crash _ hpc | defaut _ hpc | adresseRefusee _ _ hpc | nom _ _ hpc | crashRefuse _ _ hpc | offset _ _ _ hpc
    | regIp _ hpc | regNb _ _ hpc | regNom _ _ _ hpc => right; rw [hpc]; rfl

/-- reading a message of one slave leaves the others alone -/
theorem Recu.autre {ub : List Fiche} {s s' : Etat N} {i j : Fin N} {m : Msg} {o : List (Fin N × Msg)}
    (h : Recu ub s i m s' o) (hj : i ≠ j) :
    s'.busy j = s.busy j ∧ s'.pc.phase j = s.pc.phase j ∧ ecrits o j = [] := by
  have hj' : j ≠ i := fun he => hj he.symm
  cases h with
  | rien => exact ⟨rfl, rfl, rfl⟩
  | fin _ hpc => simp [hj']
  | rapport hpc => simp [Pc.phase, hpc, hj, hj', ecrits_ne hj]
  | nom _ _ hpc => simp [Pc.phase, hpc, hj, ecrits_map_ne hj]
  | offset _ _ v hpc => by_cases hv : v = Code.ok <;> simp [Pc.phase, retire, hpc, hv, hj, ecrits_ne hj]
  | crash _ hpc | defaut _ hpc | adresseRefusee _ _ hpc | crashRefuse _ _ hpc | regIp _ hpc | regNb _ _ hpc
    | regNom _ _ _ hpc => simp [Pc.phase, hpc, hj, ecrits_ne hj]

theorem slaveNotBusy_some {busy : Fin N → Bool} {i : Fin N} (h : slaveNotBusy busy = some i) : busy i = false := by
  simpa using List.find?_some h

/-- an address goes to a slave that is not busy, or nowhere -/
theorem step_accueil {ub : List Fiche} {s s' : Etat N} {b : Octets} {o : List (Fin N × Msg)}
    (h : step ub s (.arrivee b) = some (s', o)) :
    s.pc = .boucle ∧
      ((∃ i, s.busy i = false ∧ s' = { s with busy := Function.update s.busy i true, pc := .attAddrOk i (cstr b) } ∧
        o = [(i, .octets b)]) ∨ (s' = s ∧ o = [])) := by
  cases hpc : s.pc with
  | boucle =>
    simp only [step, hpc, accueille, Option.some.injEq] at h
    refine ⟨rfl, ?_⟩
    split at h
    · rename_i i hi
      cases h
      exact Or.inl ⟨i, slaveNotBusy_some hi, rfl, rfl⟩
    · cases h
      exact Or.inr ⟨rfl, rfl⟩
  | _ => simp [step, hpc] at h

/-- the master only waits for the OK of CLIENT_CRASHED about an address of its list -/
theorem Recu.attCrashOk {ub : List Fiche} {s s' : Etat N} {i k : Fin N} {m : Msg} {o : List (Fin N × Msg)} {ip : Octets}
    (h : Recu ub s i m s' o) (hpc' : s'.pc = .attCrashOk k ip) : contain s'.unfinished ip = true := by
  cases h with
  | rien _ hpc | fin _ hpc => rw [hpc] at hpc'; cases hpc'
  | crash a _ hc => cases hpc'; exact hc
  | _ => cases hpc'

end Semestre6.Ftp.Maitre
