/-
TP5, peterson.c: the two processes that write one after the other, by the algorithm of Peterson on a shared segment.

The reads and writes of the segment are made one at a time, in the order of the program; a schedule says which process
makes the next one, and a process that waits in `waitpid` stays where it is.

- `sortie_sans_melange`: in every state of every run, what is written is not a mixture of the two texts;
- `peterson_fini`: under every fair schedule both processes end, and the texts are whole, one after the other.
-/
import Semestre6.Lib.Equite
import Semestre6.Synchro.Fork

namespace Semestre6.Peterson

open Equite Fork

/-- the child is `processus 1`, its parent `processus 2` -/
def numero : Proc → ℕ
  | .fils => 1
  | .pere => 2

theorem numero_inj {p q : Proc} : numero p = numero q ↔ p = q := by
  cases p <;> cases q <;> simp [numero]

variable {α : Type}

/-- where a process is -/
inductive Pc (α : Type) where
  /-- before the write of its flag -/
  | drapeau
  /-- before the write of `shm[T_pet]` -/
  | tour
  /-- before the read of the other flag, in the test of the `while` -/
  | litDrapeau
  /-- before the read of `shm[T_pet]`, in the same test -/
  | litTour
  /-- it has these texts to write, then its flag to take off -/
  | critique (reste : List α)
  /-- in `waitpid` -/
  | attend
  | fini
deriving DecidableEq, Repr

def Pc.estFini : Pc α → Bool
  | fini => true
  | _ => false

structure Etat (α : Type) where
  /-- `shm[C1]`, the flag of the child, and `shm[C2]`, that of the parent -/
  c : Proc → ℕ
  tPet : ℕ
  pc : Proc → Pc α
  sortie : List α

def init : Etat α := ⟨fun _ => 0, 1, fun _ => .drapeau, []⟩

/-- what follows the critical section: the parent waits for its child -/
def suite : Proc → Pc α
  | .fils => .fini
  | .pere => .attend

/-- the next access of `p`, when `ecrits p` are the texts of its section -/
def step (ecrits : Proc → List α) (s : Etat α) (p : Proc) : Option (Etat α) :=
  match s.pc p with
  | .drapeau => some { s with c := Function.update s.c p 1, pc := Function.update s.pc p .tour }
  | .tour => some { s with tPet := numero p.autre, pc := Function.update s.pc p .litDrapeau }
  | .litDrapeau =>
    some { s with pc := Function.update s.pc p (if s.c p.autre = 1 then .litTour else .critique (ecrits p)) }
  | .litTour =>
    some { s with
      pc := Function.update s.pc p (if s.tPet = numero p.autre then .litDrapeau else .critique (ecrits p)) }
  | .critique (x :: reste) => some { s with pc := Function.update s.pc p (.critique reste), sortie := s.sortie ++ [x] }
  | .critique [] => some { s with c := Function.update s.c p 0, pc := Function.update s.pc p (suite p) }
  | .attend => if (s.pc p.autre).estFini then some { s with pc := Function.update s.pc p .fini } else none
  | .fini => none

/-- a process that cannot go on stays where it is -/
def avance (ecrits : Proc → List α) (s : Etat α) (p : Proc) : Etat α := (step ecrits s p).getD s

/-- the texts of the source -/
def textes : Proc → List String
  | .fils => ["Debut section fils!\nOn attend un peu\n", "fin section fils\n"]
  | .pere => ["Debut section père!\nOn attend un peu\n", "fin section père\n"]

/-! ## The invariant -/

namespace Pc

/-- its flag is up -/
def demande : Pc α → Bool
  | tour | litDrapeau | litTour | critique _ => true
  | _ => false

/-- in the test of the `while` -/
def teste : Pc α → Bool
  | litDrapeau | litTour => true
  | _ => false

def dedans : Pc α → Bool
  | critique _ => true
  | _ => false

end Pc

structure Inv (s : Etat α) : Prop where
  c : ∀ p, s.c p = if (s.pc p).demande then 1 else 0
  tour : ∃ p : Proc, s.tPet = numero p
  /-- a process is in its section: the other is not, and if it tests, its test holds -/
  seul : ∀ p : Proc, (s.pc p).dedans → ¬(s.pc p.autre).dedans ∧ ((s.pc p.autre).teste → s.tPet = numero p)
  attend : s.pc .fils ≠ .attend
  fini : s.pc .pere = .fini → s.pc .fils = .fini

theorem inv_init : Inv (init : Etat α) where
  c _ := rfl
  tour := ⟨.fils, rfl⟩
  seul _ h := nomatch h
  attend := nofun
  fini := nofun

variable {ecrits : Proc → List α} {s s' : Etat α} {p : Proc}

theorem Pc.estFini_iff {x : Pc α} : x.estFini = true ↔ x = fini := by cases x <;> simp [estFini]

theorem Inv.tour_eq (h : Inv s) : s.tPet ≠ numero p.autre ↔ s.tPet = numero p := by
  obtain ⟨q, hq⟩ := h.tour
  rw [hq]
  rcases p.eq_or_eq_autre q with rfl | rfl <;> simp [numero_inj]

/-- one process goes from where it is to `x`, and puts its flag as `x` says -/
theorem Inv.maj (h : Inv s) {x : Pc α} {c : Proc → ℕ} {t : ℕ} {sortie : List α}
    (hc : c = Function.update s.c p (if x.demande then 1 else 0)) (ht : ∃ q : Proc, t = numero q)
    (hx : x.dedans → ¬(s.pc p.autre).dedans ∧ ((s.pc p.autre).teste → t = numero p))
    (hq : (s.pc p.autre).dedans → ¬x.dedans ∧ (x.teste → t = numero p.autre)) (hattend : p = .fils → x ≠ .attend)
    (hp : s.pc p ≠ .fini) (hfini : p = .pere → x = .fini → s.pc .fils = .fini) :
    Inv ⟨c, t, Function.update s.pc p x, sortie⟩ where
  c := by
    intro q
    subst hc
    rcases p.eq_or_eq_autre q with rfl | rfl
    · simp
    · simpa using h.c p.autre
  tour := ht
  seul := by
    intro q hdedans
    rcases p.eq_or_eq_autre q with rfl | rfl
    · simpa using hx (by simpa using hdedans)
    · simpa using hq (by simpa using hdedans)
  attend := by
    cases p with
    | fils => simpa using hattend rfl
    | pere => simpa using h.attend
  fini := by
    intro hpere
    cases p with
    | fils => exact absurd (h.fini (by simpa using hpere)) hp
    | pere => simpa using hfini rfl (by simpa using hpere)

theorem Inv.c_eq (h : Inv s) {x : Pc α} (hx : x.demande = (s.pc p).demande) :
    s.c = Function.update s.c p (if x.demande then 1 else 0) := by
  rw [hx, ← h.c p, Function.update_eq_self]

theorem step_inv (h : Inv s) (hs : step ecrits s p = some s') : Inv s' := by
  have hseul := h.seul p
  have hautre := h.seul p.autre
  rw [Proc.autre_autre] at hautre
  cases hpc : s.pc p with
  | drapeau =>
    simp only [step, hpc, Option.some.injEq] at hs
    subst hs
    exact h.maj rfl h.tour nofun (fun _ => ⟨nofun, nofun⟩) nofun (by rw [hpc]; nofun) nofun
  | tour =>
    simp only [step, hpc, Option.some.injEq] at hs
    subst hs
    exact h.maj (h.c_eq (by rw [hpc]; rfl)) ⟨_, rfl⟩ nofun (fun _ => ⟨nofun, fun _ => rfl⟩) nofun (by rw [hpc]; nofun)
      nofun
  | litDrapeau =>
    simp only [step, hpc, Option.some.injEq] at hs
    subst hs
    rw [hpc] at hautre
    split_ifs with hc
    · refine h.maj (h.c_eq (by rw [hpc]; rfl)) h.tour nofun (fun hd => ⟨nofun, fun _ => ?_⟩) nofun (by rw [hpc]; nofun)
        nofun
      exact (hautre hd).2 rfl
    · -- the other has its flag down, so it is neither inside nor at its test
      have hd : (s.pc p.autre).demande = false := by
        rw [h.c p.autre] at hc
        simpa using hc
      refine h.maj (h.c_eq (by rw [hpc]; rfl)) h.tour (fun _ => ?_) (fun hd' => ?_) nofun (by rw [hpc]; nofun) nofun
      · cases hpc' : s.pc p.autre <;> simp_all [Pc.demande, Pc.dedans, Pc.teste]
      · cases hpc' : s.pc p.autre <;> simp_all [Pc.demande, Pc.dedans]
  | litTour =>
    simp only [step, hpc, Option.some.injEq] at hs
    subst hs
    rw [hpc] at hautre
    split_ifs with ht
    · refine h.maj (h.c_eq (by rw [hpc]; rfl)) h.tour nofun (fun hd => ⟨nofun, fun _ => ht⟩) nofun (by rw [hpc]; nofun)
        nofun
    · -- were the other inside, the test would hold
      have htour : s.tPet = numero p := h.tour_eq.1 ht
      have hd : ¬(s.pc p.autre).dedans := fun hd => ht ((hautre hd).2 rfl)
      exact h.maj (h.c_eq (by rw [hpc]; rfl)) h.tour (fun _ => ⟨hd, fun _ => htour⟩) (fun hd' => absurd hd' hd) nofun
        (by rw [hpc]; nofun) nofun
  | critique reste =>
    rw [hpc] at hseul hautre
    have hd : ¬(s.pc p.autre).dedans := (hseul rfl).1
    match reste with
    | x :: reste =>
      simp only [step, hpc, Option.some.injEq] at hs
      subst hs
      exact h.maj (h.c_eq (by rw [hpc]; rfl)) h.tour (fun _ => hseul rfl) (fun hd' => absurd hd' hd) nofun
        (by rw [hpc]; nofun) nofun
    | [] =>
      simp only [step, hpc, Option.some.injEq] at hs
      subst hs
      refine h.maj ?_ h.tour ?_ (fun hd' => absurd hd' hd) ?_ (by rw [hpc]; nofun) ?_ <;> cases p <;> first | rfl | nofun
  | attend =>
    simp only [step, hpc] at hs
    split_ifs at hs with hf
    rw [Pc.estFini_iff] at hf
    simp only [Option.some.injEq] at hs
    subst hs
    have hp : p = .pere := by
      cases p with
      | fils => exact absurd hpc h.attend
      | pere => rfl
    subst hp
    exact h.maj (h.c_eq (by rw [hpc]; rfl)) h.tour nofun (fun hd => by rw [hf] at hd; exact nomatch hd) nofun
      (by rw [hpc]; nofun) fun _ _ => hf
  | fini => simp [step, hpc] at hs

/-! ## What is written -/

namespace Pc

/-- `l` is what it has written, when its texts are `e` -/
def Ecrit (e : List α) : Pc α → List α → Prop
  | critique reste, l => l ++ reste = e
  | attend, l | fini, l => l = e
  | _, l => l = []

/-- it has been in its section -/
def entre : Pc α → Bool
  | critique _ | attend | fini => true
  | _ => false

theorem Ecrit.eq_nil {e l : List α} {x : Pc α} (h : x.Ecrit e l) (hx : x.entre = false) : l = [] := by
  cases x with
  | critique | attend | fini => simp [entre] at hx
  | _ => exact h

theorem Ecrit.eq {e l : List α} {x : Pc α} (h : x.Ecrit e l) (hx : x.entre = true) (hd : x.dedans = false) : l = e := by
  cases x with
  | attend | fini => exact h
  | critique => simp [dedans] at hd
  | _ => simp [entre] at hx

theorem Ecrit.prefixe {e l : List α} {x : Pc α} (h : x.Ecrit e l) : l <+: e := by
  cases x with
  | critique reste => exact ⟨reste, h⟩
  | attend | fini =>
    obtain rfl : l = e := h
    exact List.prefix_rfl
  | _ =>
    obtain rfl : l = [] := h
    exact List.nil_prefix

end Pc

/-- `p` comes first: the other has nothing written while `p` is not out of its section -/
def Sortie (ecrits : Proc → List α) (s : Etat α) : Prop :=
  ∃ p l l', (s.pc p).Ecrit (ecrits p) l ∧ (s.pc p.autre).Ecrit (ecrits p.autre) l' ∧ s.sortie = l ++ l' ∧
    ((s.pc p.autre).entre → (s.pc p).entre ∧ (s.pc p).dedans = false)

theorem Sortie.garde (h : Sortie ecrits s) {x : Pc α} {c : Proc → ℕ} {t : ℕ}
    (hx : ∀ l, (s.pc p).Ecrit (ecrits p) l → x.Ecrit (ecrits p) l) (hentre : x.entre = (s.pc p).entre)
    (hd : (s.pc p).dedans = false → x.dedans = false) : Sortie ecrits ⟨c, t, Function.update s.pc p x, s.sortie⟩ := by
  obtain ⟨q, l, l', hl, hl', hs, hpremier⟩ := h
  rcases p.eq_or_eq_autre q with rfl | rfl
  · refine ⟨q, l, l', by simpa using hx l hl, by simpa using hl', hs, ?_⟩
    simp only [Function.update_of_ne (Proc.autre_ne q), Function.update_self, hentre]
    exact fun hq => ⟨(hpremier hq).1, hd (hpremier hq).2⟩
  · rw [Proc.autre_autre] at hl' hpremier
    refine ⟨p.autre, l, l', by simpa using hl, by simpa using hx l' hl', hs, ?_⟩
    simpa [hentre] using hpremier

theorem Sortie.commence (h : Sortie ecrits s) {c : Proc → ℕ} {t : ℕ} (hp : (s.pc p).entre = false)
    (hd : (s.pc p.autre).dedans = false) :
    Sortie ecrits ⟨c, t, Function.update s.pc p (.critique (ecrits p)), s.sortie⟩ := by
  obtain ⟨q, l, l', hl, hl', hs, hpremier⟩ := h
  rcases p.eq_or_eq_autre q with rfl | rfl
  · obtain rfl := hl.eq_nil hp
    refine ⟨q, [], l', by simp [Pc.Ecrit], by simpa using hl', hs, ?_⟩
    intro hq
    simp only [Function.update_of_ne (Proc.autre_ne q)] at hq
    exact absurd (hpremier hq).1 (by simp [hp])
  · rw [Proc.autre_autre] at hl'
    obtain rfl := hl'.eq_nil hp
    cases hentre : (s.pc p.autre).entre with
    | true => exact ⟨p.autre, l, [], by simpa using hl, by simp [Pc.Ecrit], hs, fun _ => by simpa using ⟨hentre, hd⟩⟩
    | false =>
      obtain rfl := hl.eq_nil hentre
      exact ⟨p, [], [], by simp [Pc.Ecrit], by simpa using hl, hs, by simp [hentre]⟩

theorem Sortie.ecrit (h : Sortie ecrits s) {x : α} {reste : List α} (hp : s.pc p = .critique (x :: reste)) :
    Sortie ecrits { s with pc := Function.update s.pc p (.critique reste), sortie := s.sortie ++ [x] } := by
  obtain ⟨q, l, l', hl, hl', hs, hpremier⟩ := h
  rcases p.eq_or_eq_autre q with rfl | rfl
  · rw [hp] at hl hpremier
    have hentre : (s.pc q.autre).entre = false := by
      by_contra hne
      exact nomatch (hpremier (by simpa using hne)).2
    obtain rfl := hl'.eq_nil hentre
    refine ⟨q, l ++ [x], [], ?_, by simpa using hl', by simp [hs], by simp [hentre]⟩
    simpa [Pc.Ecrit] using hl
  · rw [Proc.autre_autre, hp] at hl' hpremier
    refine ⟨p.autre, l, l' ++ [x], by simpa using hl, ?_, by simp [hs], fun _ => by simpa using hpremier rfl⟩
    simpa [Pc.Ecrit] using hl'

theorem step_sortie (h : Inv s) (ho : Sortie ecrits s) (hs : step ecrits s p = some s') : Sortie ecrits s' := by
  have hinv := step_inv h hs
  cases hpc : s.pc p with
  | drapeau =>
    simp only [step, hpc, Option.some.injEq] at hs
    exact hs ▸ ho.garde (by rw [hpc]; exact fun l hl => hl) (by rw [hpc]; rfl) fun _ => rfl
  | tour =>
    simp only [step, hpc, Option.some.injEq] at hs
    exact hs ▸ ho.garde (by rw [hpc]; exact fun l hl => hl) (by rw [hpc]; rfl) fun _ => rfl
  | litDrapeau =>
    simp only [step, hpc, Option.some.injEq] at hs
    subst hs
    split_ifs at hinv ⊢ with hc
    · exact ho.garde (by rw [hpc]; exact fun l hl => hl) (by rw [hpc]; rfl) fun _ => rfl
    · refine ho.commence (by rw [hpc]; rfl) ?_
      simpa using (hinv.seul p (by simp [Pc.dedans])).1
  | litTour =>
    simp only [step, hpc, Option.some.injEq] at hs
    subst hs
    split_ifs at hinv ⊢ with hc
    · exact ho.garde (by rw [hpc]; exact fun l hl => hl) (by rw [hpc]; rfl) fun _ => rfl
    · refine ho.commence (by rw [hpc]; rfl) ?_
      simpa using (hinv.seul p (by simp [Pc.dedans])).1
  | critique reste =>
    match reste with
    | x :: reste =>
      simp only [step, hpc, Option.some.injEq] at hs
      exact hs ▸ ho.ecrit hpc
    | [] =>
      simp only [step, hpc, Option.some.injEq] at hs
      subst hs
      refine ho.garde ?_ ?_ ?_
      · rw [hpc]
        intro l hl
        have hl : l ++ [] = ecrits p := hl
        rw [List.append_nil] at hl
        cases p <;> exact hl
      · rw [hpc]
        cases p <;> rfl
      · intro _
        cases p <;> rfl
  | attend =>
    simp only [step, hpc] at hs
    split_ifs at hs
    simp only [Option.some.injEq] at hs
    exact hs ▸ ho.garde (by rw [hpc]; exact fun l hl => hl) (by rw [hpc]; rfl) fun _ => rfl
  | fini => simp [step, hpc] at hs

/-! ## The rank -/

namespace Pc

def rang (e : List α) : Pc α → ℕ
  | drapeau => e.length + 5
  | tour => e.length + 4
  | litDrapeau | litTour => e.length + 3
  | critique reste => reste.length + 2
  | attend => 1
  | fini => 0

end Pc

/-- what is left to do, the turns of the tests apart -/
def mesure (ecrits : Proc → List α) (s : Etat α) : ℕ :=
  (s.pc .fils).rang (ecrits .fils) + (s.pc .pere).rang (ecrits .pere)

/-- `p` has ended, or waits for the other -/
def attente (s : Etat α) (p : Proc) : Bool :=
  match s.pc p with
  | .fini => true
  | .attend => !(s.pc p.autre).estFini
  | .litDrapeau | .litTour => s.c p.autre = 1 ∧ s.tPet = numero p.autre
  | _ => false

/-- the accesses that `p` has still to make before it leaves its test, when it does not wait -/
def phase (s : Etat α) (p : Proc) : ℕ :=
  match s.pc p with
  | .litDrapeau => if s.c p.autre = 1 then 2 else 1
  | .litTour => if s.tPet = numero p.autre then 2 else 1
  | _ => 0

def aide (s : Etat α) : Proc := if attente s .fils then .pere else .fils

def rang (ecrits : Proc → List α) (s : Etat α) : ℕ := 3 * mesure ecrits s + phase s (aide s)

theorem phase_le (s : Etat α) (p : Proc) : phase s p ≤ 2 := by
  unfold phase
  split <;> first | omega | (split_ifs <;> omega)

theorem mesure_eq (s : Etat α) (p : Proc) :
    mesure ecrits s = (s.pc p).rang (ecrits p) + (s.pc p.autre).rang (ecrits p.autre) := by
  cases p with
  | fils => rfl
  | pere => exact Nat.add_comm _ _

theorem mesure_lt {x : Pc α} {c : Proc → ℕ} {t : ℕ} {sortie : List α}
    (hx : x.rang (ecrits p) < (s.pc p).rang (ecrits p)) :
    mesure ecrits ⟨c, t, Function.update s.pc p x, sortie⟩ < mesure ecrits s := by
  rw [mesure_eq _ p, mesure_eq s p]
  simpa using hx

/-- a step that does not lower the measure is an access of a test that holds so far -/
theorem step_mesure (hs : step ecrits s p = some s') : mesure ecrits s' < mesure ecrits s ∨
    (s.pc p = .litDrapeau ∧ s.c p.autre = 1 ∧ s' = { s with pc := Function.update s.pc p .litTour }) ∨
    (s.pc p = .litTour ∧ s.tPet = numero p.autre ∧ s' = { s with pc := Function.update s.pc p .litDrapeau }) := by
  cases hpc : s.pc p with
  | drapeau =>
    simp only [step, hpc, Option.some.injEq] at hs
    exact .inl (hs ▸ mesure_lt (by rw [hpc]; simp [Pc.rang]))
  | tour =>
    simp only [step, hpc, Option.some.injEq] at hs
    exact .inl (hs ▸ mesure_lt (by rw [hpc]; simp [Pc.rang]))
  | litDrapeau =>
    simp only [step, hpc, Option.some.injEq] at hs
    subst hs
    split_ifs with hc
    · exact .inr (.inl ⟨rfl, hc, rfl⟩)
    · exact .inl (mesure_lt (by rw [hpc]; simp [Pc.rang]))
  | litTour =>
    simp only [step, hpc, Option.some.injEq] at hs
    subst hs
    split_ifs with ht
    · exact .inr (.inr ⟨rfl, ht, rfl⟩)
    · exact .inl (mesure_lt (by rw [hpc]; simp [Pc.rang]))
  | critique reste =>
    match reste with
    | x :: reste =>
      simp only [step, hpc, Option.some.injEq] at hs
      exact .inl (hs ▸ mesure_lt (by rw [hpc]; simp [Pc.rang]))
    | [] =>
      simp only [step, hpc, Option.some.injEq] at hs
      exact .inl (hs ▸ mesure_lt (by rw [hpc]; cases p <;> simp [Pc.rang, suite]))
  | attend =>
    simp only [step, hpc] at hs
    split_ifs at hs
    simp only [Option.some.injEq] at hs
    exact .inl (hs ▸ mesure_lt (by rw [hpc]; simp [Pc.rang]))
  | fini => simp [step, hpc] at hs

section Test

variable {x : Pc α} (hx : x.teste = true) (hp : (s.pc p).teste = true)
include hx hp

/-- an access of a test changes neither who waits nor who helps -/
theorem attente_test (q : Proc) : attente { s with pc := Function.update s.pc p x } q = attente s q := by
  rcases p.eq_or_eq_autre q with rfl | rfl
  · cases x <;> cases hpc : s.pc q <;> simp_all [Pc.teste, attente]
  · have hfini : x.estFini = (s.pc p).estFini := by
      cases x <;> cases hpc : s.pc p <;> simp_all [Pc.teste, Pc.estFini]
    simp [attente, hfini]

theorem aide_test : aide { s with pc := Function.update s.pc p x } = aide s := by
  rw [aide, aide, attente_test hx hp]

theorem mesure_test : mesure ecrits { s with pc := Function.update s.pc p x } = mesure ecrits s := by
  rw [mesure_eq _ p, mesure_eq s p]
  cases x <;> cases hpc : s.pc p <;> simp_all [Pc.teste, Pc.rang]

end Test

theorem rang_lt (h : mesure ecrits s' < mesure ecrits s) : rang ecrits s' < rang ecrits s := by
  have hle := phase_le s' (aide s')
  rw [rang, rang]
  omega

def Fini (s : Etat α) : Prop := s.pc .fils = .fini ∧ s.pc .pere = .fini

/-- while they have not both ended, one of them can go on -/
theorem attente_aide (h : Inv s) (hf : ¬Fini s) : attente s (aide s) = false := by
  by_cases hfils : attente s .fils = true
  · rw [aide, if_pos hfils]
    have hcf := h.c .fils
    have hcp := h.c .pere
    have hattend := h.attend
    cases hpf : s.pc .fils <;> cases hpp : s.pc .pere <;>
      simp_all [attente, Pc.demande, Proc.autre, numero, Pc.estFini, Fini]
  · rw [aide, if_neg hfils]
    simpa using hfils

theorem exists_step (h : attente s p = false) : ∃ s', step ecrits s p = some s' := by
  cases hpc : s.pc p with
  | critique reste => cases reste <;> simp [step, hpc]
  | attend => simpa [step, hpc, attente] using h
  | fini => simp [attente, hpc] at h
  | _ => simp [step, hpc]

theorem rang_aide (h : attente s (aide s) = false) (hs : step ecrits s (aide s) = some s') :
    rang ecrits s' < rang ecrits s := by
  rcases step_mesure hs with hlt | ⟨hpc, hc, rfl⟩ | ⟨hpc, ht, rfl⟩
  · exact rang_lt hlt
  · have htest : (s.pc (aide s)).teste = true := by rw [hpc]; rfl
    have ht : s.tPet ≠ numero (aide s).autre := by simpa [attente, hpc, hc] using h
    rw [rang, rang, mesure_test rfl htest, aide_test rfl htest]
    simp [phase, hpc, hc, ht]
  · have htest : (s.pc (aide s)).teste = true := by rw [hpc]; rfl
    have hc : s.c (aide s).autre ≠ 1 := by simpa [attente, hpc, ht] using h
    rw [rang, rang, mesure_test rfl htest, aide_test rfl htest]
    simp [phase, hpc, hc, ht]

/-- the step of the one that does not help -/
theorem rang_autre (hp : p ≠ aide s) (hs : step ecrits s p = some s') :
    rang ecrits s' < rang ecrits s ∨ rang ecrits s' = rang ecrits s ∧ aide s' = aide s := by
  have haide : aide s = p.autre := (p.eq_or_eq_autre (aide s)).resolve_left hp.symm
  have htest : ∀ x : Pc α, x.teste = true → (s.pc p).teste = true →
      rang ecrits { s with pc := Function.update s.pc p x } = rang ecrits s ∧
        aide { s with pc := Function.update s.pc p x } = aide s := by
    intro x hx hp
    refine ⟨?_, aide_test hx hp⟩
    rw [rang, rang, mesure_test hx hp, aide_test hx hp, haide]
    simp [phase]
  rcases step_mesure hs with hlt | ⟨hpc, -, rfl⟩ | ⟨hpc, -, rfl⟩
  · exact .inl (rang_lt hlt)
  · exact .inr (htest _ rfl (by rw [hpc]; rfl))
  · exact .inr (htest _ rfl (by rw [hpc]; rfl))

theorem avance_inv (s : Etat α) (p : Proc) (h : Inv s ∧ Sortie ecrits s) :
    Inv (avance ecrits s p) ∧ Sortie ecrits (avance ecrits s p) := by
  rw [avance]
  cases hs : step ecrits s p with
  | none => exact h
  | some s' => exact ⟨step_inv h.1 hs, step_sortie h.1 h.2 hs⟩

theorem avance_aide (h : Inv s) (hf : ¬Fini s) : Avance (avance ecrits) (rang ecrits) aide s := by
  have hattente := attente_aide h hf
  have hbaisse : rang ecrits (avance ecrits s (aide s)) < rang ecrits s := by
    obtain ⟨s', hs⟩ := exists_step hattente
    rw [avance, hs]
    exact rang_aide hattente hs
  refine ⟨hbaisse, ?_⟩
  intro p
  rcases eq_or_ne p (aide s) with rfl | hp
  · exact .inl hbaisse
  · rw [avance]
    cases hs : step ecrits s p with
    | none => exact .inr ⟨rfl, rfl⟩
    | some s' => exact rang_autre hp hs

theorem avance_fini (p : Proc) (h : Fini s) : Fini (avance ecrits s p) := by
  have hpc : s.pc p = .fini := by
    cases p with
    | fils => exact h.1
    | pere => exact h.2
  simpa [avance, step, hpc] using h

/-! ## The runs -/

theorem sortie_init : Sortie ecrits init := ⟨.fils, [], [], rfl, rfl, rfl, nofun⟩

variable {ordre : ℕ → Proc}

theorem inv_execution (ecrits : Proc → List α) (ordre : ℕ → Proc) (n : ℕ) :
    Inv (execution (avance ecrits) init ordre n) ∧ Sortie ecrits (execution (avance ecrits) init ordre n) :=
  execution_inv avance_inv ⟨inv_init, sortie_init⟩ n

/-- **The texts are not mixed**, whatever the schedule -/
theorem sortie_sans_melange (ecrits : Proc → List α) (ordre : ℕ → Proc) (n : ℕ) :
    ∃ p, (execution (avance ecrits) init ordre n).sortie <+: ecrits p ++ ecrits p.autre := by
  obtain ⟨-, p, l, l', hl, hl', hs, hpremier⟩ := inv_execution ecrits ordre n
  refine ⟨p, ?_⟩
  rw [hs]
  cases hentre : ((execution (avance ecrits) init ordre n).pc p.autre).entre with
  | true =>
    obtain ⟨hp, hd⟩ := hpremier hentre
    rw [hl.eq hp hd]
    exact (List.prefix_append_right_inj _).2 hl'.prefixe
  | false =>
    rw [hl'.eq_nil hentre, List.append_nil]
    exact hl.prefixe.trans (List.prefix_append _ _)

/-- **Both end** under a fair schedule, each with its text whole -/
theorem peterson_fini (ecrits : Proc → List α) (ho : Equitable ordre) :
    ∃ n, ∀ m, n ≤ m → Fini (execution (avance ecrits) init ordre m) ∧
      ∃ p, (execution (avance ecrits) init ordre m).sortie = ecrits p ++ ecrits p.autre := by
  have hinv : ∀ s p, Inv s → Inv (avance ecrits s p) := by
    intro s p h
    rw [avance]
    cases hs : step ecrits s p with
    | none => exact h
    | some s' => exact step_inv h hs
  obtain ⟨n, hn⟩ := exists_fini hinv (fun s h hf => avance_aide h hf) inv_init ho
  refine ⟨n, fun m hm => ?_⟩
  have hfini := execution_stable (fun s p h => avance_fini p h) hm hn
  refine ⟨hfini, ?_⟩
  obtain ⟨-, p, l, l', hl, hl', hs, -⟩ := inv_execution ecrits ordre m
  have hpc : ∀ q, (execution (avance ecrits) init ordre m).pc q = .fini := by
    intro q
    cases q with
    | fils => exact hfini.1
    | pere => exact hfini.2
  rw [hpc] at hl hl'
  exact ⟨p, by rw [hs, show l = ecrits p from hl, show l' = ecrits p.autre from hl']⟩

/-- the two processes of the source, each in turn -/
theorem peterson_fini_alterne :
    ∃ n, ∀ m, n ≤ m → Fini (execution (avance textes) init (fun k => if k % 2 = 0 then .fils else .pere) m) ∧
      ∃ p, (execution (avance textes) init (fun k => if k % 2 = 0 then .fils else .pere) m).sortie =
        textes p ++ textes p.autre := by
  refine peterson_fini textes fun p n => ?_
  cases p with
  | fils => exact ⟨2 * n, by omega, if_pos (by omega)⟩
  | pere => exact ⟨2 * n + 1, by omega, if_neg (by omega)⟩

end Semestre6.Peterson
