/-
The accesses of the shell to its tables (shell.c): `l` and `l->seq`, which `readcmd` can leave null, the ten `tubes`,
`Tab_Jobs`, which grows by a record for each line with a command, and the ten entries of Tab_pid.

- `session`: what `main` does on a sequence of lines, one operation for each access;
- `Entrelace`: a run, where `handler_child` can come between any two operations and the wait loop can turn again;
- `Correcte`: the access is in bounds, and changes no record of an earlier line;
- `ligne_iff`: a line of commands is handled correctly exactly when it has at most nine, or ten with an `exit`;
- `acces_iff`: a run is correct exactly when its lines are such and its signals find a record.
Witness that the condition is needed: `fin_de_l_entree`, where `l` is null.
An access repeated at one place is written once. A record is its Tab_pid. A `free` of a string literal ends the run in
`readcmd`; malloc and realloc find memory.
-/
import Semestre6.Lib.Transition
import Semestre6.Shell.Phrase

namespace Semestre6.Shell.Acces

open Semestre6.Ftp (Octets octets)
open Transition

inductive Op where
  /-- the prompt -/
  | invite
  /-- `l->err` or another field that is no pointer to follow -/
  | champ (l : Option Cmdline)
  /-- `l->seq[i]` -/
  | sequence (l : Option Cmdline)
  /-- `indice_jobs++` -/
  | incremente
  /-- `realloc` of Tab_Jobs, and what the new memory holds -/
  | agrandit (neuve : ℕ → ℕ → ℤ)
  /-- `tubes[i]` -/
  | tube (i : ℕ)
  /-- an assignment to `Tab_Jobs[indice_jobs]`, outside Tab_pid -/
  | ecrit
  /-- `Tab_Jobs[indice_jobs].Tab_pid[i] = pid` -/
  | pid (i : ℕ) (pid : ℤ)
  /-- the wait loop reads the flags -/
  | attend
  /-- `free(Tab_Jobs)` -/
  | libere
  /-- `handler_child` sets the flags of `Tab_Jobs[indice_jobs]` -/
  | signal

/-- `indice` is indice_jobs, `debut` its value at the last prompt and `jobs` what Tab_Jobs holds -/
structure Etat where
  indice : ℤ
  debut : ℤ
  jobs : List (ℕ → ℤ)
  libere : Bool

/-- before the first prompt, Tab_Jobs has the record of its malloc -/
def depart (neuve : ℕ → ℤ) : Etat := ⟨-1, -1, [neuve], false⟩

/-- what an operation does; nothing is asked of an access out of bounds -/
def applique (e : Etat) : Op → Etat
  | .invite => { e with debut := e.indice }
  | .incremente => { e with indice := e.indice + 1 }
  | .agrandit neuve => { e with jobs := (List.range (e.indice + 1).toNat).map fun k => e.jobs.getD k (neuve k) }
  | .pid i pid => { e with jobs := e.jobs.modify e.indice.toNat fun j => Function.update j i pid }
  | .libere => { e with libere := true }
  | _ => e

/-- `Tab_Jobs[indice_jobs]` is a record of the table -/
def Etat.Dedans (e : Etat) : Prop := e.libere = false ∧ 0 ≤ e.indice ∧ e.indice < e.jobs.length

/-- the access is in bounds; indice_jobs is an int, and so is the indice_jobs+1 of realloc -/
def Permis (e : Etat) : Op → Prop
  | .champ l => l ≠ none
  | .sequence l => ∃ c, l = some c ∧ c.seq ≠ none
  | .incremente | .agrandit _ => e.indice + 1 < 2 ^ 31
  | .tube i => i < 10
  | .ecrit => e.Dedans
  | .pid i _ => e.Dedans ∧ i < 10
  | .attend => e.Dedans
  | .signal => e.Dedans
  | _ => True

/-- `main` changes record `k`; the flags that the handler sets are not the line's -/
def Modifie (e : Etat) (k : ℕ) : Op → Prop
  | .ecrit => (k : ℤ) = e.indice
  | o => (applique e o).jobs[k]? ≠ e.jobs[k]?

/-- the access is in bounds and the records of the earlier lines stay -/
def Correcte (e : Etat) (o : Op) : Prop := Permis e o ∧ ∀ k : ℕ, (k : ℤ) ≤ e.debut → ¬Modifie e k o

/-! ## The operations of main -/

/-- what a turn of the loop finds: the line, the pids that `fork` gives to the parent, never 0, and new memory -/
structure Entree where
  line : Option Octets
  pids : ℕ → {pid : ℤ // pid ≠ 0}
  neuve : ℕ → ℕ → ℤ

def Exit (cmd : List Octets) : Prop := cmd.head? = some (octets "exit")

instance (cmd : List Octets) : Decidable (Exit cmd) := by unfold Exit; infer_instance

def closePipe (seqLen : ℕ) : List Op := (List.range seqLen).map .tube

/-- what a child does before `close_pipe`; the tubes are its copy -/
def branche (l : Option Cmdline) (length i : ℕ) : List Op :=
  if 1 < length then
    if i = 0 then [.tube i, .champ l]
    else if i = length - 1 then [.tube (i - 1), .champ l]
    else [.tube (i - 1), .tube i]
  else [.champ l]

def enfant (l : Option Cmdline) (length i : ℕ) : List Op := branche l length i ++ closePipe length

/-- the line in the record: the first command sets its fields -/
def inscrit (l : Option Cmdline) (i : ℕ) : List Op := if i = 0 then [.ecrit, .champ l] else [.ecrit]

/-- command `i`, when it is not `exit` -/
def commande (l : Option Cmdline) (pids : ℕ → {pid : ℤ // pid ≠ 0}) (length i : ℕ) : List Op :=
  inscrit l i ++ enfant l length i ++ [.pid i (pids i), .tube i]

/-- the loop over the commands, from command `i` on, and what follows it -/
def boucle (l : Option Cmdline) (pids : ℕ → {pid : ℤ // pid ≠ 0}) (length : ℕ) : ℕ → List (List Octets) → List Op
  | _, [] => .sequence l :: .pid length 0 :: (closePipe length ++ [.attend])
  | i, cmd :: seq =>
    if Exit cmd then [.sequence l, .libere]
    else .sequence l :: (commande l pids length i ++ boucle l pids length (i + 1) seq)

/-- a turn of the loop after readcmd -/
def ligne (x : Entree) (l : Option Cmdline) : List Op :=
  let seq := (l.bind Cmdline.seq).getD []
  .sequence l :: ((if seq ≠ [] then [.incremente, .agrandit x.neuve] else []) ++
    match l with
    | none => [.libere]
    | some c =>
      if c.err.isSome then [.champ l]
      else .champ l :: .sequence l :: ((List.range seq.length).map .tube ++ boucle l x.pids seq.length 0 seq))

/-- the prompt comes back -/
def revient : Option Cmdline → Bool
  | none => false
  | some c => c.err.isSome || (c.seq.getD []).all fun cmd => !decide (Exit cmd)

def session (avant : Option Cmdline) : List Entree → List Op
  | [] => []
  | x :: xs =>
    .invite :: match readcmd avant x.line with
      | none => []
      | some l => ligne x l ++ if revient l then session l xs else []

/-- a run of `main` with the signals that it serves -/
inductive Entrelace : List Op → List Op → Prop
  | fin : Entrelace [] []
  | op (o : Op) {ops t : List Op} : Entrelace ops t → Entrelace (o :: ops) (o :: t)
  | signal {ops t : List Op} : Entrelace ops t → Entrelace ops (.signal :: t)
  /-- no flag is set yet: the loop turns again -/
  | encore {ops t : List Op} : Entrelace (.attend :: ops) t → Entrelace (.attend :: ops) (.attend :: t)

theorem entrelace_refl (ops : List Op) : Entrelace ops ops := by
  induction ops with
  | nil => exact .fin
  | cons o ops ih => exact .op o ih

/-! ## The condition -/

/-- at most nine commands, or ten with an `exit` -/
def Tient (seq : List (List Octets)) : Prop := seq.length < 10 ∨ seq.length = 10 ∧ ∃ cmd ∈ seq, Exit cmd

/-- the lines up to the end of the run: after `k` jobs, and after a line with these file names. A call that has an
operator to free does not come back; the others find commands, unless they refuse the line with an operator to free. -/
def Sures (k : ℕ) (avant : List Octets) : List (Option Octets) → Prop
  | [] => True
  | x :: xs =>
    (∃ f ∈ avant, Litteral f) ∨ ∃ line ∈ x, Abandonnee (splitInWords line) ∨
      ∃ es, Phrase es ∧ jetons es = splitInWords line ∧ k + 1 < 2 ^ 31 ∧ Tient (commandes es) ∧
        ((∃ cmd ∈ commandes es, Exit cmd) ∨ Sures (k + 1) (noms es) xs)

/-- the jobs so far, the records in the table, and whether it is freed -/
structure Compte where
  jobs : ℕ
  places : ℕ
  libere : Bool

def compte (s : Compte) : Op → Compte
  | .incremente => { s with jobs := s.jobs + 1 }
  | .agrandit _ => { s with places := s.jobs }
  | .libere => { s with libere := true }
  | _ => s

/-- a signal comes after the first job, not between an `indice_jobs++` and the end of its `realloc`, and not after the
`free` -/
def Servi (s : Compte) : Op → Prop
  | .signal => s.libere = false ∧ 1 ≤ s.jobs ∧ s.jobs ≤ s.places
  | _ => True

/-! ## Signals -/

/-- what the condition counts is what the tables are -/
structure Rel (e : Etat) (s : Compte) : Prop where
  jobs : e.indice + 1 = s.jobs
  places : e.jobs.length = s.places
  libere : e.libere = s.libere

theorem Rel.applique {e : Etat} {s : Compte} (h : Rel e s) (o : Op) : Rel (applique e o) (compte s o) := by
  obtain ⟨hj, hp, hl⟩ := h
  cases o with
  | incremente =>
    refine ⟨?_, hp, hl⟩
    change e.indice + 1 + 1 = ((s.jobs + 1 : ℕ) : ℤ)
    omega
  | agrandit neuve =>
    refine ⟨hj, ?_, hl⟩
    simp [Acces.applique, compte, hj]
  | pid i pid => exact ⟨hj, by simpa [Acces.applique, compte] using hp, hl⟩
  | libere => exact ⟨hj, hp, rfl⟩
  | invite => exact ⟨hj, hp, hl⟩
  | champ l => exact ⟨hj, hp, hl⟩
  | sequence l => exact ⟨hj, hp, hl⟩
  | tube i => exact ⟨hj, hp, hl⟩
  | ecrit => exact ⟨hj, hp, hl⟩
  | attend => exact ⟨hj, hp, hl⟩
  | signal => exact ⟨hj, hp, hl⟩

theorem Rel.servi_iff {e : Etat} {s : Compte} (h : Rel e s) : Servi s .signal ↔ e.Dedans := by
  obtain ⟨hj, hp, hl⟩ := h
  simp only [Servi, Etat.Dedans, hl, hp]
  apply and_congr_right
  intro _
  omega

theorem correcte_signal (e : Etat) : Correcte e .signal ↔ e.Dedans :=
  ⟨fun h => h.1, fun h => ⟨h, fun _ _ hm => hm rfl⟩⟩

theorem correcte_attend (e : Etat) : Correcte e .attend ↔ e.Dedans :=
  ⟨fun h => h.1, fun h => ⟨h, fun _ _ hm => hm rfl⟩⟩

/-- the signals of a run change nothing that `main` needs -/
theorem entrelace_iff {ops t : List Op} (h : Entrelace ops t) {e : Etat} {s : Compte} (hr : Rel e s) :
    Always applique Correcte e t ↔ Always applique Correcte e ops ∧ Always compte Servi s t := by
  induction h generalizing e s with
  | fin => exact ⟨fun _ => ⟨trivial, trivial⟩, fun _ => trivial⟩
  | @op o ops t _ ih =>
    have hs : Correcte e o → Servi s o := by
      intro hc
      cases o with
      | signal => exact hr.servi_iff.2 hc.1
      | _ => trivial
    have hi := ih (hr.applique o)
    rw [always_cons, always_cons, always_cons, hi]
    exact ⟨fun h => ⟨⟨h.1, h.2.1⟩, hs h.1, h.2.2⟩, fun h => ⟨h.1.1, h.1.2, h.2.2⟩⟩
  | @signal ops t _ ih =>
    have hi : Always applique Correcte e t ↔ _ := ih hr
    have hs := hr.servi_iff.trans (correcte_signal e).symm
    have hmeme : Always applique Correcte (applique e .signal) t ↔ Always applique Correcte e t := Iff.rfl
    have hcompte : Always compte Servi (compte s .signal) t ↔ Always compte Servi s t := Iff.rfl
    rw [always_cons, always_cons, hmeme, hcompte, hi, hs]
    exact and_left_comm
  | @encore ops t _ ih =>
    have hi : Always applique Correcte e t ↔ _ := ih hr
    have hmeme : Always applique Correcte (applique e .attend) t ↔ Always applique Correcte e t := Iff.rfl
    have hops : Always applique Correcte e (.attend :: ops) → Correcte e .attend := fun h => h.1
    have hcompte : Always compte Servi s (.attend :: t) ↔ Always compte Servi s t :=
      ⟨fun h => h.2, fun h => ⟨trivial, h⟩⟩
    rw [always_cons, hmeme, hcompte, hi]
    exact and_iff_right_of_imp fun h => hops h.1

/-! ## The operations that change nothing -/

def Neutre (o : Op) : Prop := ∀ e, applique e o = e

theorem run_neutre {l : List Op} (h : ∀ o ∈ l, Neutre o) (e : Etat) : run applique e l = e := by
  induction l with
  | nil => rfl
  | cons o l ih =>
    have ho : applique e o = e := h o List.mem_cons_self e
    change run applique (applique e o) l = e
    rw [ho]
    exact ih fun o ho => h o (List.mem_cons_of_mem _ ho)

theorem always_neutre {l : List Op} (h : ∀ o ∈ l, Neutre o) (e : Etat) :
    Always applique Correcte e l ↔ ∀ o ∈ l, Correcte e o := by
  induction l with
  | nil => simp [Always]
  | cons o l ih =>
    have ho : applique e o = e := h o List.mem_cons_self e
    have hl := ih fun o ho => h o (List.mem_cons_of_mem _ ho)
    rw [always_cons, ho, hl, List.forall_mem_cons]

/-- operations that change nothing, before others -/
theorem always_neutre_append {l l' : List Op} (h : ∀ o ∈ l, Neutre o) (e : Etat) :
    Always applique Correcte e (l ++ l') ↔ (∀ o ∈ l, Correcte e o) ∧ Always applique Correcte e l' := by
  rw [always_append, run_neutre h, always_neutre h]

theorem run_neutre_append {l : List Op} (h : ∀ o ∈ l, Neutre o) (l' : List Op) (e : Etat) :
    run applique e (l ++ l') = run applique e l' := by
  calc run applique e (l ++ l')
      = run applique (run applique e l) l' := List.foldl_append
    _ = run applique e l' := by rw [run_neutre h]

/-! ## A line of commands -/

/-- the record of the line is there -/
structure EnCours (e : Etat) : Prop where
  dedans : e.Dedans
  ligne : e.debut < e.indice

/-- `l->seq` can be read -/
def Lisible (l : Option Cmdline) : Prop := ∃ c, l = some c ∧ c.seq ≠ none

variable {e : Etat} {l : Option Cmdline} {pids : ℕ → {pid : ℤ // pid ≠ 0}} {length i : ℕ} {seq : List (List Octets)}
  {c : Cmdline} {x : Entree} {k : ℕ}

theorem correcte_tube (e : Etat) (i : ℕ) : Correcte e (.tube i) ↔ i < 10 :=
  ⟨fun h => h.1, fun h => ⟨h, fun _ _ hm => hm rfl⟩⟩

theorem correcte_sequence (e : Etat) (l : Option Cmdline) : Correcte e (.sequence l) ↔ Lisible l :=
  ⟨fun h => h.1, fun h => ⟨h, fun _ _ hm => hm rfl⟩⟩

theorem Lisible.champ (h : Lisible l) (e : Etat) : Correcte e (.champ l) := by
  obtain ⟨c, rfl, -⟩ := h
  exact ⟨Option.some_ne_none c, fun _ _ hm => hm rfl⟩

theorem EnCours.ecrit (h : EnCours e) : Correcte e .ecrit := by
  refine ⟨h.dedans, fun k hk hm => ?_⟩
  have hne := h.ligne
  change (k : ℤ) = e.indice at hm
  omega

theorem EnCours.pid_iff (h : EnCours e) (i : ℕ) (v : ℤ) : Correcte e (.pid i v) ↔ i < 10 := by
  apply Iff.intro
  · intro hc
    exact hc.1.2
  · intro hi
    refine ⟨⟨h.dedans, hi⟩, fun k hk hm => hm ?_⟩
    have hne : e.indice.toNat ≠ k := by
      have hl := h.ligne
      omega
    simp [applique, hne]

theorem EnCours.applique_pid (h : EnCours e) (i : ℕ) (v : ℤ) : EnCours (applique e (.pid i v)) := by
  obtain ⟨⟨hl, h0, hlt⟩, hd⟩ := h
  exact ⟨⟨hl, h0, by simpa [applique] using hlt⟩, hd⟩

theorem neutre_tube {o : Op} (h : o ∈ (List.range i).map Op.tube) : Neutre o := by
  obtain ⟨j, -, rfl⟩ := List.mem_map.1 h
  exact fun _ => rfl

theorem correcte_tubes (e : Etat) (n : ℕ) : (∀ o ∈ (List.range n).map Op.tube, Correcte e o) ↔ n ≤ 10 := by
  simp only [List.forall_mem_map, List.mem_range, correcte_tube]
  apply Iff.intro
  · intro h
    by_contra hn
    exact absurd (h 10 (by omega)) (by omega)
  · intro hn j hj
    omega

/-- a child uses tubes that there are -/
theorem mem_enfant (hi : i < length) {o : Op} (h : o ∈ enfant l length i) :
    o = .champ l ∨ ∃ j < length, o = .tube j := by
  rcases List.mem_append.1 h with h | h
  · unfold branche at h
    split_ifs at h <;> simp only [List.mem_cons, List.not_mem_nil, or_false] at h
    · rcases h with rfl | rfl
      · exact .inr ⟨i, hi, rfl⟩
      · exact .inl rfl
    · rcases h with rfl | rfl
      · exact .inr ⟨i - 1, by omega, rfl⟩
      · exact .inl rfl
    · rcases h with rfl | rfl
      · exact .inr ⟨i - 1, by omega, rfl⟩
      · exact .inr ⟨i, hi, rfl⟩
    · exact .inl h
  · obtain ⟨j, hj, rfl⟩ := List.mem_map.1 h
    exact .inr ⟨j, List.mem_range.1 hj, rfl⟩

/-- before its pid is recorded, a command writes the record, reads `l` and uses tubes -/
theorem commande_eq (l : Option Cmdline) (pids : ℕ → {pid : ℤ // pid ≠ 0}) (hi : i < length) :
    ∃ avant, commande l pids length i = avant ++ [.pid i (pids i), .tube i] ∧
      ∀ o ∈ avant, o = .ecrit ∨ o = .champ l ∨ ∃ j < length, o = .tube j := by
  refine ⟨_, rfl, ?_⟩
  intro o h
  rcases List.mem_append.1 h with h | h
  · unfold inscrit at h
    split_ifs at h <;> simp only [List.mem_cons, List.not_mem_nil, or_false] at h
    · rcases h with rfl | rfl
      · exact .inl rfl
      · exact .inr (.inl rfl)
    · exact .inl h
  · exact .inr (mem_enfant hi h)

theorem neutre_avant {avant : List Op} (h : ∀ o ∈ avant, o = .ecrit ∨ o = .champ l ∨ ∃ j < length, o = .tube j) :
    ∀ o ∈ avant, Neutre o := by
  intro o ho
  rcases h o ho with rfl | rfl | ⟨j, -, rfl⟩
  · exact fun _ => rfl
  · exact fun _ => rfl
  · exact fun _ => rfl

theorem always_commande (he : EnCours e) (hl : Lisible l) (hlen : length ≤ 10) (hi : i < length) (suite : List Op) :
    Always applique Correcte e (commande l pids length i ++ suite) ↔
      Always applique Correcte (applique e (.pid i (pids i))) suite := by
  obtain ⟨avant, heq, hmem⟩ := commande_eq l pids hi
  have hc : ∀ o ∈ avant, Correcte e o := by
    intro o ho
    rcases hmem o ho with rfl | rfl | ⟨j, hj, rfl⟩
    · exact he.ecrit
    · exact hl.champ e
    · exact (correcte_tube e j).2 (by omega)
  have hpid := (he.pid_iff i (pids i)).2 (by omega)
  have htube := (correcte_tube (applique e (.pid i (pids i))) i).2 (by omega)
  rw [heq, List.append_assoc, always_neutre_append (neutre_avant hmem)]
  exact ⟨fun h => h.2.2.2, fun h => ⟨hc, hpid, htube, h⟩⟩

theorem run_commande (hi : i < length) (e : Etat) (suite : List Op) :
    run applique e (commande l pids length i ++ suite) = run applique (applique e (.pid i (pids i))) suite := by
  obtain ⟨avant, heq, hmem⟩ := commande_eq l pids hi
  rw [heq, List.append_assoc, run_neutre_append (neutre_avant hmem)]
  rfl

/-- the loop is correct when it stops at an `exit`, or leaves room for the 0 -/
theorem boucle_iff (he : EnCours e) (hl : Lisible l) (hlen : length ≤ 10) (hi : i + seq.length = length) :
    Always applique Correcte e (boucle l pids length i seq) ↔ length < 10 ∨ ∃ cmd ∈ seq, Exit cmd := by
  have hseq : Correcte e (.sequence l) := (correcte_sequence e l).2 hl
  induction seq generalizing e i with
  | nil =>
    have hpid := he.applique_pid length 0
    have hfin : Always applique Correcte (applique e (.pid length 0)) (closePipe length ++ [.attend]) :=
      (always_neutre_append (fun _ ho => neutre_tube ho) _).2
        ⟨(correcte_tubes _ length).2 hlen, (correcte_attend _).2 hpid.dedans, trivial⟩
    rw [boucle, always_cons, always_cons, and_iff_right hseq]
    change Correcte e (.pid length 0) ∧
      Always applique Correcte (applique e (.pid length 0)) (closePipe length ++ [.attend]) ↔ _
    rw [he.pid_iff, and_iff_left hfin]
    simp
  | cons cmd seq ih =>
    rw [List.length_cons] at hi
    by_cases hex : Exit cmd
    · have hb : boucle l pids length i (cmd :: seq) = [.sequence l, .libere] := if_pos hex
      have hlib : Correcte e .libere := ⟨trivial, fun _ _ hm => hm rfl⟩
      rw [hb]
      exact iff_of_true ⟨hseq, hlib, trivial⟩ (.inr ⟨cmd, List.mem_cons_self, hex⟩)
    · have hb : boucle l pids length i (cmd :: seq) =
          .sequence l :: (commande l pids length i ++ boucle l pids length (i + 1) seq) := if_neg hex
      have hsuite : Always applique Correcte (applique e (.pid i (pids i))) (boucle l pids length (i + 1) seq) ↔
          length < 10 ∨ ∃ cmd ∈ seq, Exit cmd :=
        ih (he.applique_pid i (pids i)) (by omega) ((correcte_sequence _ l).2 hl)
      rw [hb, always_cons, and_iff_right hseq]
      change Always applique Correcte e (commande l pids length i ++ boucle l pids length (i + 1) seq) ↔ _
      rw [always_commande he hl hlen (by omega), hsuite]
      simp [hex]

/-- without `exit`, the loop fills the record of the line: its first pid is not 0 -/
theorem boucle_run (hlen : 0 < length) (hi : i + seq.length = length) (hex : ∀ cmd ∈ seq, ¬Exit cmd) :
    ∃ f : (ℕ → ℤ) → ℕ → ℤ, (∀ j, (0 < i → j 0 ≠ 0) → f j 0 ≠ 0) ∧
      run applique e (boucle l pids length i seq) = { e with jobs := e.jobs.modify e.indice.toNat f } := by
  induction seq generalizing e i with
  | nil =>
    have hfin : ∀ o ∈ closePipe length ++ [.attend], Neutre o := by
      intro o ho
      rcases List.mem_append.1 ho with ho | ho
      · exact neutre_tube ho
      · rw [List.mem_singleton.1 ho]
        exact fun _ => rfl
    refine ⟨fun j => Function.update j length 0, ?_, run_neutre hfin _⟩
    intro j hj
    rw [List.length_nil, Nat.add_zero] at hi
    have h0 : 0 ≠ length := by omega
    change Function.update j length 0 0 ≠ 0
    rw [Function.update_of_ne h0]
    exact hj (by omega)
  | cons cmd seq ih =>
    rw [List.length_cons] at hi
    obtain ⟨hcmd, hex⟩ := List.forall_mem_cons.1 hex
    obtain ⟨f, hf, hrun⟩ := ih (e := applique e (.pid i (pids i))) (i := i + 1) (by omega) hex
    have hb : boucle l pids length i (cmd :: seq) =
        .sequence l :: (commande l pids length i ++ boucle l pids length (i + 1) seq) := if_neg hcmd
    refine ⟨fun j => f (Function.update j i (pids i)), ?_, ?_⟩
    · intro j hj
      apply hf
      intro _
      by_cases h0 : i = 0
      · rw [h0, Function.update_self]
        exact (pids 0).2
      · rw [Function.update_of_ne (by omega)]
        exact hj (by omega)
    · have hcons : run applique e (boucle l pids length i (cmd :: seq)) =
          run applique e (commande l pids length i ++ boucle l pids length (i + 1) seq) := by
        rw [hb]
        rfl
      rw [hcons, run_commande (by omega), hrun]
      simp only [applique, List.modify_modify_eq]
      rfl

/-! ## One line -/

/-- at the prompt after `k` jobs: each has its record, with the pid of a process in front -/
structure Pret (e : Etat) (k : ℕ) : Prop where
  indice : e.indice + 1 = k
  debut : e.debut = e.indice
  libere : e.libere = false
  taille : e.jobs.length = max 1 k
  pids : ∀ i < k, ∀ j ∈ e.jobs[i]?, j 0 ≠ 0

theorem correcte_incremente (e : Etat) : Correcte e .incremente ↔ e.indice + 1 < 2 ^ 31 :=
  ⟨fun h => h.1, fun h => ⟨h, fun _ _ hm => hm rfl⟩⟩

/-- the table has grown by a record -/
def Etat.ouvre (e : Etat) (neuve : ℕ → ℕ → ℤ) : Etat := applique (applique e .incremente) (.agrandit neuve)

theorem Pret.ouvre_jobs (h : Pret e k) (neuve : ℕ → ℕ → ℤ) :
    (e.ouvre neuve).jobs = (List.range (k + 1)).map fun i => e.jobs.getD i (neuve i) := by
  have hn : (e.indice + 1 + 1).toNat = k + 1 := by
    have hi := h.indice
    omega
  simp [Etat.ouvre, applique, hn]

/-- the records of the earlier lines are copied -/
theorem Pret.ouvre_ancienne (h : Pret e k) (neuve : ℕ → ℕ → ℤ) (hi : i < k) :
    (e.ouvre neuve).jobs[i]? = e.jobs[i]? := by
  have hlt : i < e.jobs.length := by
    have ht := h.taille
    omega
  rw [h.ouvre_jobs, List.getElem?_map, List.getElem?_range (by omega)]
  simp [hlt]

theorem Pret.enCours (h : Pret e k) (neuve : ℕ → ℕ → ℤ) : EnCours (e.ouvre neuve) := by
  have hi := h.indice
  have hd := h.debut
  refine ⟨⟨h.libere, ?_, ?_⟩, ?_⟩
  · change 0 ≤ e.indice + 1
    omega
  · rw [h.ouvre_jobs, List.length_map, List.length_range]
    change e.indice + 1 < ((k + 1 : ℕ) : ℤ)
    omega
  · change e.debut < e.indice + 1
    omega

theorem Pret.agrandit (h : Pret e k) (neuve : ℕ → ℕ → ℤ) :
    Correcte (applique e .incremente) (.agrandit neuve) ↔ k + 1 < 2 ^ 31 := by
  have hpermis : Permis (applique e .incremente) (.agrandit neuve) ↔ k + 1 < 2 ^ 31 := by
    change e.indice + 1 + 1 < 2 ^ 31 ↔ k + 1 < 2 ^ 31
    rw [h.indice]
    norm_cast
  rw [← hpermis]
  refine ⟨fun hc => hc.1, fun hp => ⟨hp, fun i hi hm => hm ?_⟩⟩
  have hlt : i < k := by
    have hk := h.indice
    have hd := h.debut
    change (i : ℤ) ≤ e.debut at hi
    omega
  exact h.ouvre_ancienne neuve hlt

theorem tient_iff (seq : List (List Octets)) :
    Tient seq ↔ seq.length ≤ 10 ∧ (seq.length < 10 ∨ ∃ cmd ∈ seq, Exit cmd) := by
  unfold Tient
  apply Iff.intro
  · intro h
    rcases h with h | ⟨h, hex⟩
    · exact ⟨by omega, .inl h⟩
    · exact ⟨by omega, .inr hex⟩
  · intro h
    rcases h.2 with hlt | hex
    · exact .inl hlt
    · by_cases hlt : seq.length < 10
      · exact .inl hlt
      · exact .inr ⟨by omega, hex⟩

/-- what the loop over the commands comes after -/
theorem ligne_eq (x : Entree) (herr : c.err = none) (hseq : c.seq = some seq) (hne : seq ≠ []) :
    ligne x (some c) = .sequence (some c) :: .incremente :: .agrandit x.neuve :: .champ (some c) :: .sequence (some c) ::
      ((List.range seq.length).map .tube ++ boucle (some c) x.pids seq.length 0 seq) := by
  simp [ligne, herr, hseq, hne]

/-- **A line of commands.** It is handled correctly exactly when indice_jobs can grow and its commands fit. -/
theorem ligne_iff (h : Pret e k) (herr : c.err = none) (hseq : c.seq = some seq) (hne : seq ≠ []) :
    Always applique Correcte e (ligne x (some c)) ↔ k + 1 < 2 ^ 31 ∧ Tient seq := by
  have hl : Lisible (some c) := ⟨c, rfl, by simp [hseq]⟩
  have he := h.enCours x.neuve
  have hs (e : Etat) : Correcte e (.sequence (some c)) := (correcte_sequence e _).2 hl
  have hinc (hk : k + 1 < 2 ^ 31) : Correcte e .incremente := by
    rw [correcte_incremente, h.indice]
    omega
  have hcons : Always applique Correcte e (ligne x (some c)) ↔
      k + 1 < 2 ^ 31 ∧ Always applique Correcte (e.ouvre x.neuve)
        ((List.range seq.length).map .tube ++ boucle (some c) x.pids seq.length 0 seq) := by
    rw [ligne_eq x herr hseq hne]
    exact ⟨fun ha => ⟨(h.agrandit x.neuve).1 ha.2.2.1, ha.2.2.2.2.2⟩,
      fun ha => ⟨hs e, hinc ha.1, (h.agrandit x.neuve).2 ha.1, hl.champ _, hs _, ha.2⟩⟩
  rw [hcons, always_neutre_append fun _ ho => neutre_tube ho, correcte_tubes, tient_iff]
  apply and_congr_right
  intro _
  apply and_congr_right
  intro hlen
  exact boucle_iff he hl hlen (Nat.zero_add _)

/-- after a line that does not end the run, the next prompt -/
theorem Pret.ligne (h : Pret e k) (herr : c.err = none) (hseq : c.seq = some seq) (hne : seq ≠ [])
    (hex : ∀ cmd ∈ seq, ¬Exit cmd) :
    Pret (applique (run applique e (ligne x (some c))) .invite) (k + 1) := by
  have hrun : run applique e (Acces.ligne x (some c)) =
      run applique (e.ouvre x.neuve) (boucle (some c) x.pids seq.length 0 seq) := by
    rw [ligne_eq x herr hseq hne]
    exact run_neutre_append (fun _ ho => neutre_tube ho) _ _
  have hpos : 0 < seq.length := List.length_pos_iff.2 hne
  obtain ⟨f, hf, hb⟩ : ∃ f : (ℕ → ℤ) → ℕ → ℤ, (∀ j, (0 < 0 → j 0 ≠ 0) → f j 0 ≠ 0) ∧
      run applique (e.ouvre x.neuve) (boucle (some c) x.pids seq.length 0 seq) =
        { e.ouvre x.neuve with jobs := (e.ouvre x.neuve).jobs.modify (e.ouvre x.neuve).indice.toNat f } :=
    boucle_run hpos (Nat.zero_add _) hex
  have hn : (e.ouvre x.neuve).indice.toNat = k := by
    have hi := h.indice
    change (e.indice + 1).toNat = k
    omega
  rw [hrun, hb, hn]
  refine ⟨?_, rfl, h.libere, ?_, ?_⟩
  · have hi := h.indice
    change e.indice + 1 + 1 = ((k + 1 : ℕ) : ℤ)
    omega
  · change ((e.ouvre x.neuve).jobs.modify k f).length = max 1 (k + 1)
    rw [List.length_modify, h.ouvre_jobs]
    simp
  · intro i hi j hj
    change j ∈ ((e.ouvre x.neuve).jobs.modify k f)[i]? at hj
    rcases Nat.lt_succ_iff_lt_or_eq.1 hi with hlt | rfl
    · rw [List.getElem?_modify_ne _ _ (by omega), h.ouvre_ancienne x.neuve hlt] at hj
      exact h.pids i hlt j hj
    · rw [List.getElem?_modify_eq] at hj
      obtain ⟨j', -, rfl⟩ := Option.mem_map.1 hj
      exact hf j' (by omega)

/-- a line without a command is not handled correctly: `seq` is null, or the 0 goes to the record before -/
theorem ligne_sansCommande (h : Pret e k) (hc : SansCommande c) : ¬Always applique Correcte e (ligne x (some c)) := by
  intro ha
  rcases hc with hseq | ⟨herr, hseq⟩
  · obtain ⟨c', hc', hne⟩ := ((correcte_sequence e _).1 ha.1)
    obtain rfl := Option.some.inj hc'
    exact hne hseq
  · have hlig : ligne x (some c) = [.sequence (some c), .champ (some c), .sequence (some c)] ++
        [.sequence (some c), .pid 0 0, .attend] := by simp [ligne, herr, hseq, boucle, closePipe]
    rw [hlig] at ha
    have hpid : Correcte e (.pid 0 0) := ha.2.2.2.2.1
    obtain ⟨⟨⟨-, h0, hlt⟩, -⟩, hm⟩ := hpid
    have hi := h.indice
    have hk : e.indice.toNat < k := by omega
    have hlen : e.indice.toNat < e.jobs.length := by omega
    have hne := h.pids e.indice.toNat hk _ (List.getElem?_eq_getElem hlen)
    apply hm e.indice.toNat
    · have hd := h.debut
      omega
    · intro heq
      have heq' : (e.jobs.modify e.indice.toNat fun j => Function.update j 0 0)[e.indice.toNat]? =
          e.jobs[e.indice.toNat]? := heq
      rw [List.getElem?_modify_eq, List.getElem?_eq_getElem hlen] at heq'
      have hj : Function.update e.jobs[e.indice.toNat] 0 0 0 = e.jobs[e.indice.toNat] 0 :=
        congrFun (Option.some.inj heq') 0
      rw [Function.update_self] at hj
      exact hne hj.symm

/-! ## A session -/

/-- a prompt -/
theorem always_invite (e : Etat) (suite : List Op) :
    Always applique Correcte e (.invite :: suite) ↔ Always applique Correcte (applique e .invite) suite :=
  ⟨fun h => h.2, fun h => ⟨⟨trivial, fun _ _ hm => hm rfl⟩, h⟩⟩

theorem revient_iff (herr : c.err = none) (hseq : c.seq = some seq) :
    revient (some c) = true ↔ ∀ cmd ∈ seq, ¬Exit cmd := by
  simp [revient, herr, hseq]

/-- a line of commands and what comes after it, if the prompt comes back -/
theorem phrase_iff (x : Entree) (h : Pret e k) {es : List Element} (hp : Phrase es) (xs : List Entree) {suite : Prop}
    (hsuite : ∀ e' s, Pret (applique e' .invite) (k + 1) → (Liberable (some s) ↔ ¬∃ f ∈ noms es, Litteral f) →
      (Always applique Correcte e' (session (some s) xs) ↔ suite)) :
    ∃ s, lit (jetons es) = some s ∧
      (Always applique Correcte e (ligne x (some s) ++ if revient (some s) then session (some s) xs else []) ↔
        k + 1 < 2 ^ 31 ∧ Tient (commandes es) ∧ ((∃ cmd ∈ commandes es, Exit cmd) ∨ suite)) := by
  obtain ⟨s, hlit, herr, hseq, hnoms⟩ := hp.lit
  refine ⟨s, hlit, ?_⟩
  have hne := commandes_ne es
  rw [always_append, ligne_iff h herr hseq hne, and_assoc]
  apply and_congr_right
  intro _
  apply and_congr_right
  intro _
  by_cases hex : ∃ cmd ∈ commandes es, Exit cmd
  · have hrev : revient (some s) = false := by
      rw [← Bool.not_eq_true, revient_iff herr hseq]
      intro hn
      obtain ⟨cmd, hcmd, he⟩ := hex
      exact hn cmd hcmd he
    rw [hrev]
    exact iff_of_true trivial (.inl hex)
  · have hn : ∀ cmd ∈ commandes es, ¬Exit cmd := fun cmd hcmd he => hex ⟨cmd, hcmd, he⟩
    have hrev : revient (some s) = true := (revient_iff herr hseq).2 hn
    rw [hrev, or_iff_right hex]
    exact hsuite _ s (h.ligne herr hseq hne hn) (hp.liberable_iff hseq hnoms)

/-- **A session without signals.** From a prompt after `k` jobs, where the call before left these file names. -/
theorem session_iff (xs : List Entree) (h : Pret (applique e .invite) k) {avant : Option Cmdline} {noms : List Octets}
    (ha : Liberable avant ↔ ¬∃ f ∈ noms, Litteral f) :
    Always applique Correcte e (session avant xs) ↔ Sures k noms (xs.map Entree.line) := by
  induction xs generalizing e k avant noms with
  | nil => exact Iff.rfl
  | cons x xs ih =>
    rw [session, always_invite, List.map_cons, Sures]
    rcases readcmd_eq avant x.line with ⟨hlib, hr⟩ | ⟨hlib, hr⟩
    · have hnoms : ¬∃ f ∈ noms, Litteral f := ha.1 hlib
      rw [hr, or_iff_right hnoms]
      cases hx : x.line with
      | none =>
        have hseq : ¬Correcte (applique e .invite) (.sequence none) := by
          rw [correcte_sequence]
          intro hl
          obtain ⟨c, hc, -⟩ := hl
          cases hc
        simp only [Option.elim_none]
        exact iff_of_false (fun h => hseq h.1) (by simp)
      | some line =>
        have hts : ∀ w ∈ splitInWords line, Jeton w := fun w hw => jeton_splitInWords hw
        simp only [Option.elim_some, Option.mem_def, Option.some.injEq, exists_eq_left']
        have hphrase {es : List Element} (hp : Phrase es) :=
          phrase_iff x h hp xs fun e' s he' hs => ih he' hs
        apply Iff.intro
        · intro hal
          rcases lit_cases hts with ⟨-, hab⟩ | ⟨es, hp, hj⟩ | ⟨s, hlit, hsans⟩
          · exact .inl hab
          · obtain ⟨s, hlit, hiff⟩ := hphrase hp
            rw [← hj, hlit] at hal
            exact .inr ⟨es, hp, hj, hiff.1 hal⟩
          · rw [hlit] at hal
            exact absurd ((always_append _ _ _).1 hal).1 (ligne_sansCommande h hsans)
        · intro hs
          rcases hs with hab | ⟨es, hp, hj, hs⟩
          · rw [lit_abandonnee hts hab]
            trivial
          · obtain ⟨s, hlit, hiff⟩ := hphrase hp
            rw [← hj, hlit]
            exact hiff.2 hs
    · have hnoms : ∃ f ∈ noms, Litteral f := by
        by_contra hn
        exact hlib (ha.2 hn)
      rw [hr]
      exact iff_of_true trivial (.inl hnoms)

theorem pret_depart (neuve : ℕ → ℤ) : Pret (applique (depart neuve) .invite) 0 :=
  ⟨by simp [depart, applique], rfl, rfl, rfl, by simp⟩

/-- **The accesses of the shell.** On every sequence of lines, and with signals at any moments, every pointer that is
followed is there, every access is in bounds and no record of an earlier line changes, if and only if every line up to
the end of the run has its commands, at most nine or ten with an `exit`, and every signal finds a record. -/
theorem acces_iff (neuve : ℕ → ℤ) (xs : List Entree) {t : List Op} (h : Entrelace (session none xs) t) :
    Always applique Correcte (depart neuve) t ↔
      Sures 0 [] (xs.map Entree.line) ∧ Always compte Servi ⟨0, 1, false⟩ t := by
  have hrel : Rel (depart neuve) ⟨0, 1, false⟩ := ⟨by simp [depart], rfl, rfl⟩
  have hlib : Liberable none ↔ ¬∃ f ∈ ([] : List Octets), Litteral f := by simp [Liberable]
  rw [entrelace_iff h hrel, session_iff xs (pret_depart neuve) hlib]

/-- the line `ls` -/
def ls : Entree := ⟨some (octets "ls"), fun _ => ⟨7, by decide⟩, fun _ _ => 0⟩

theorem acces_ls :
    Always applique Correcte (depart fun _ => 0) (session none [ls]) ↔
      Sures 0 [] [some (octets "ls")] ∧ Always compte Servi ⟨0, 1, false⟩ (session none [ls]) :=
  acces_iff (fun _ => 0) [ls] (entrelace_refl _)

/-- the end of the input -/
def fin : Entree := ⟨none, fun _ => ⟨7, by decide⟩, fun _ _ => 0⟩

/-- **The end of the input.** `l` is null when `main` reads `l->seq[0]`. -/
theorem fin_de_l_entree :
    readcmd none none = some none ∧ Entrelace (session none [fin]) [.invite, .sequence none, .libere] ∧
      ¬Always applique Correcte (depart fun _ => 0) [.invite, .sequence none, .libere] := by
  refine ⟨rfl, entrelace_refl _, fun h => ?_⟩
  obtain ⟨c, hc, -⟩ := (correcte_sequence _ none).1 h.2.1
  cases hc

end Semestre6.Shell.Acces
