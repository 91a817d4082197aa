/-
TD4 and TP5, tell_wait.c: a parent and its child that wait for each other with SIGUSR1 and SIGUSR2.

The two signals are blocked except inside `sigsuspend`, so each process has a pending bit and, once its handler has
run, a flag; `wait` loops on its flag, for other signals wake it too. Each machine step is one instruction that the
other process can see.

- `simule`, `realise`: whatever the two processes do between their calls, the runs are those of two processes with
  two binary semaphores. A `tell` is never lost, but two of them before the `wait` count for one;
- `pas_borne`: only other signals can lengthen a run;
- `slow_write_sortie`: the program slow_write.c writes the text of the parent, then that of the child.
-/
import Semestre6.Lib.Transition
import Semestre6.Synchro.Fork

namespace Semestre6.TellWait

open Transition Fork

variable {α : Type}

/-- what a process does: write, `tell` the other, `wait` for it -/
inductive Cmd (α : Type) where
  | ecrit (x : α)
  | dit
  | attend
deriving DecidableEq, Repr

/-- where a process is in `wait_parent` or `wait_child` -/
inductive Phase where
  /-- at the test of the `while` -/
  | test
  /-- in `sigsuspend` -/
  | dort
  /-- before the flag is reset -/
  | remet
deriving DecidableEq, Repr

structure Etat (α : Type) where
  /-- the commands left, that under way included -/
  reste : Proc → List (Cmd α)
  phase : Proc → Phase
  /-- SIGUSR2 is pending for the child, SIGUSR1 for the parent -/
  pendant : Proc → Bool
  /-- `sigflag_parent` in the child, `sigflag_child` in the parent -/
  sigflag : Proc → Bool
  sortie : List α

inductive Evenement where
  | pas (p : Proc)
  /-- another signal, whose handler returns, wakes `p` -/
  | signal (p : Proc)
deriving DecidableEq, Repr

/-- after `init_synchro` and `fork` -/
def init (reste : Proc → List (Cmd α)) : Etat α :=
  ⟨reste, fun _ => .test, fun _ => false, fun _ => false, []⟩

def step (s : Etat α) : Evenement → Option (Etat α)
  | .pas p =>
    match s.reste p with
    | [] => none
    | .ecrit x :: l => some { s with reste := Function.update s.reste p l, sortie := s.sortie ++ [x] }
    | .dit :: l =>
      some { s with reste := Function.update s.reste p l, pendant := Function.update s.pendant p.autre true }
    | .attend :: l =>
      match s.phase p with
      | .test => some { s with phase := Function.update s.phase p (if s.sigflag p then .remet else .dort) }
      | .dort =>
        -- the handler runs, and `sigsuspend` returns
        if s.pendant p then
          some { s with
            phase := Function.update s.phase p .test
            pendant := Function.update s.pendant p false
            sigflag := Function.update s.sigflag p true }
        else none
      | .remet =>
        some { s with
          reste := Function.update s.reste p l
          phase := Function.update s.phase p .test
          sigflag := Function.update s.sigflag p false }
  | .signal p =>
    match s.reste p, s.phase p with
    | .attend :: _, .dort => some { s with phase := Function.update s.phase p .test }
    | _, _ => none

/-- slow_write.c: `slow_write` writes a character at a time -/
def slowWrite (fils pere : List α) : Proc → List (Cmd α)
  | .fils => .attend :: fils.map .ecrit
  | .pere => pere.map .ecrit ++ [.dit]

/-- a run of slow_write.c with another signal, on three characters -/
def lesPas : List Evenement :=
  [.pas .fils, .pas .pere, .signal .fils, .pas .pere, .pas .fils, .pas .pere, .pas .fils, .pas .fils, .pas .fils,
    .pas .fils]

example : (runM step (init (slowWrite ['c'] ['a', 'b'])) lesPas).map Etat.sortie = some ['a', 'b', 'c'] := rfl

/-! ## Binary semaphores -/

structure Semaphores (α : Type) where
  reste : Proc → List (Cmd α)
  jeton : Proc → Bool
  sortie : List α

def Semaphores.init (reste : Proc → List (Cmd α)) : Semaphores α := ⟨reste, fun _ => false, []⟩

/-- `dit` puts the token of the other process, `attend` takes its own -/
def Semaphores.step (a : Semaphores α) (p : Proc) : Option (Semaphores α) :=
  match a.reste p with
  | [] => none
  | .ecrit x :: l => some { a with reste := Function.update a.reste p l, sortie := a.sortie ++ [x] }
  | .dit :: l => some { a with reste := Function.update a.reste p l, jeton := Function.update a.jeton p.autre true }
  | .attend :: l =>
    if a.jeton p then
      some { a with reste := Function.update a.reste p l, jeton := Function.update a.jeton p false }
    else none

/-! ## From signals to semaphores -/

/-- the commands left to `p`, when a `wait` counts as done from its handler on -/
def Etat.resteApres (s : Etat α) (p : Proc) : List (Cmd α) := if s.sigflag p then (s.reste p).tail else s.reste p

structure Simule (s : Etat α) (a : Semaphores α) : Prop where
  sortie : a.sortie = s.sortie
  jeton : a.jeton = s.pendant
  reste : ∀ p, a.reste p = s.resteApres p
  /-- a flag is set in a `wait` only, and reset before its end -/
  sigflag : ∀ p, s.sigflag p = true → s.phase p ≠ .dort ∧ ∃ l, s.reste p = .attend :: l
  remet : ∀ p, s.phase p = .remet → s.sigflag p = true

theorem simule_init (reste : Proc → List (Cmd α)) : Simule (init reste) (.init reste) :=
  ⟨rfl, rfl, fun _ => rfl, nofun, nofun⟩

variable {s s' : Etat α} {a a' : Semaphores α} {p : Proc}

theorem Simule.sigflag_eq (h : Simule s a) {c : Cmd α} {l : List (Cmd α)} (hr : s.reste p = c :: l)
    (hc : c ≠ .attend) : s.sigflag p = false := by
  by_contra hf
  obtain ⟨-, l', hl⟩ := h.sigflag p (by simpa using hf)
  rw [hr] at hl
  exact hc (List.cons.inj hl).1

/-- what a step of `p` does not change of the other process -/
theorem Simule.maj (h : Simule s a) {l : List (Cmd α)} {ph : Phase} {pendant : Proc → Bool} {f : Bool}
    {sortie : List α} {l' : List (Cmd α)} (hl : l' = if f then l.tail else l)
    (hf : f = true → ph ≠ .dort ∧ ∃ l₁, l = .attend :: l₁) (hph : ph = .remet → f = true) :
    Simule ⟨Function.update s.reste p l, Function.update s.phase p ph, pendant, Function.update s.sigflag p f, sortie⟩
      ⟨Function.update a.reste p l', pendant, sortie⟩ where
  sortie := rfl
  jeton := rfl
  reste := by
    refine p.forall_of ?_ ?_
    · simp [Etat.resteApres, hl]
    · simpa [Etat.resteApres] using h.reste p.autre
  sigflag := by
    refine p.forall_of ?_ ?_
    · simpa using hf
    · simpa using h.sigflag p.autre
  remet := by
    refine p.forall_of ?_ ?_
    · simpa using hph
    · simpa using h.remet p.autre

theorem step_simule {ev : Evenement} (h : Simule s a) (hs : step s ev = some s') :
    ∃ l a', runM Semaphores.step a l = some a' ∧ Simule s' a' := by
  cases ev with
  | signal p =>
    cases hr : s.reste p with
    | nil => simp [step, hr] at hs
    | cons c l =>
      cases c with
      | ecrit x => simp [step, hr] at hs
      | dit => simp [step, hr] at hs
      | attend =>
        cases hph : s.phase p <;> simp only [step, hr, hph, Option.some.injEq, reduceCtorEq] at hs
        subst hs
        refine ⟨[], a, rfl, h.sortie, h.jeton, h.reste, p.forall_of ?_ ?_, p.forall_of ?_ ?_⟩
        · exact fun hf => absurd hph (h.sigflag p hf).1
        · simpa using h.sigflag p.autre
        · simp
        · simpa using h.remet p.autre
  | pas p =>
    cases hr : s.reste p with
    | nil => simp [step, hr] at hs
    | cons c l =>
      cases c with
      | ecrit x =>
        simp only [step, hr, Option.some.injEq] at hs
        subst hs
        have hf := h.sigflag_eq hr (by simp)
        have har : a.reste p = .ecrit x :: l := by rw [h.reste, Etat.resteApres, hf, hr]; rfl
        refine ⟨[p], _, by rw [runM, Semaphores.step, har]; rfl, ?_⟩
        have hmaj := @Simule.maj _ _ _ p h l (s.phase p) s.pendant false (s.sortie ++ [x]) l rfl (by simp)
          (fun hph => hf ▸ h.remet p hph)
        simpa [h.sortie, h.jeton, ← hf] using hmaj
      | dit =>
        simp only [step, hr, Option.some.injEq] at hs
        subst hs
        have hf := h.sigflag_eq hr (by simp)
        have har : a.reste p = .dit :: l := by rw [h.reste, Etat.resteApres, hf, hr]; rfl
        refine ⟨[p], _, by rw [runM, Semaphores.step, har]; rfl, ?_⟩
        have hmaj := @Simule.maj _ _ _ p h l (s.phase p) (Function.update s.pendant p.autre true) false s.sortie l rfl
          (by simp) (fun hph => hf ▸ h.remet p hph)
        simpa [h.sortie, h.jeton, ← hf] using hmaj
      | attend =>
        cases hph : s.phase p with
        | test =>
          simp only [step, hr, hph, Option.some.injEq] at hs
          subst hs
          refine ⟨[], a, rfl, h.sortie, h.jeton, h.reste, p.forall_of ?_ ?_, p.forall_of ?_ ?_⟩
          · exact fun hf => ⟨by simp [show s.sigflag p = true from hf], l, hr⟩
          · simpa using h.sigflag p.autre
          · simp only [Function.update_self]
            split_ifs with hf
            · exact fun _ => hf
            · simp
          · simpa using h.remet p.autre
        | dort =>
          simp only [step, hr, hph] at hs
          split_ifs at hs with hpend
          simp only [Option.some.injEq] at hs
          subst hs
          have hf : s.sigflag p = false := by
            by_contra hf
            exact (h.sigflag p (by simpa using hf)).1 hph
          have har : a.reste p = .attend :: l := by rw [h.reste, Etat.resteApres, hf, hr]; rfl
          have hjeton : a.jeton p = true := by rw [h.jeton, hpend]
          refine ⟨[p], _, by rw [runM, Semaphores.step, har]; simp only [hjeton, if_true]; rfl, ?_⟩
          have hmaj := @Simule.maj _ _ _ p h (.attend :: l) .test (Function.update s.pendant p false) true s.sortie l
            rfl (fun _ => ⟨by simp, l, rfl⟩) (by simp)
          simpa [h.sortie, h.jeton, ← hr] using hmaj
        | remet =>
          simp only [step, hr, hph, Option.some.injEq] at hs
          subst hs
          have hf := h.remet p hph
          have har : a.reste p = l := by rw [h.reste, Etat.resteApres, hf, hr]; rfl
          refine ⟨[], a, rfl, ?_⟩
          have hmaj := @Simule.maj _ _ _ p h l .test s.pendant false s.sortie l rfl (by simp) (by simp)
          simpa [← har, ← h.sortie, ← h.jeton] using hmaj

/-- a process that cannot go on waits for its token, or has ended -/
theorem Simule.bloque (h : Simule s a) (hp : step s (.pas p) = none) :
    Semaphores.step a p = none ∧ a.reste p = s.reste p := by
  cases hr : s.reste p with
  | nil =>
    have hf : s.sigflag p = false := by
      by_contra hf
      obtain ⟨-, l, hl⟩ := h.sigflag p (by simpa using hf)
      rw [hr] at hl
      exact nomatch hl
    have har : a.reste p = [] := by rw [h.reste, Etat.resteApres, hf, hr]; rfl
    exact ⟨by rw [Semaphores.step, har], har⟩
  | cons c l =>
    cases c with
    | ecrit x => simp [step, hr] at hp
    | dit => simp [step, hr] at hp
    | attend =>
      cases hph : s.phase p <;> simp only [step, hr, hph, reduceCtorEq] at hp
      split_ifs at hp with hpend
      have hf : s.sigflag p = false := by
        by_contra hf
        exact (h.sigflag p (by simpa using hf)).1 hph
      have har : a.reste p = .attend :: l := by rw [h.reste, Etat.resteApres, hf, hr]; rfl
      have hjeton : a.jeton p = false := by rw [h.jeton]; simpa using hpend
      exact ⟨by simp [Semaphores.step, har, hjeton], har⟩

theorem exists_simule {reste : Proc → List (Cmd α)} {l : List Evenement} (h : runM step (init reste) l = some s) :
    ∃ l' a, runM Semaphores.step (.init reste) l' = some a ∧ Simule s a :=
  runM_simule (fun _ _ _ _ h hs => step_simule h hs) (simule_init reste) h

/-- **The signals are semaphores**: a run of the two processes is a run of the same two with binary semaphores, which
has written the same; and when neither process can go on, neither could with semaphores. -/
theorem simule {reste : Proc → List (Cmd α)} {l : List Evenement} (h : runM step (init reste) l = some s) :
    ∃ l' a, runM Semaphores.step (.init reste) l' = some a ∧ a.sortie = s.sortie ∧
      ∀ p, step s (.pas p) = none → Semaphores.step a p = none ∧ a.reste p = s.reste p := by
  obtain ⟨l', a, ha, hsim⟩ := exists_simule h
  exact ⟨l', a, ha, hsim.sortie, fun p hp => hsim.bloque hp⟩

theorem simule_lesPas : ∃ s l' a, runM step (init (slowWrite ['c'] ['a', 'b'])) lesPas = some s ∧
    runM Semaphores.step (.init (slowWrite ['c'] ['a', 'b'])) l' = some a ∧ a.sortie = s.sortie := by
  have h : runM step (init (slowWrite ['c'] ['a', 'b'])) lesPas = some _ := rfl
  obtain ⟨l', a, ha, hs, -⟩ := simule h
  exact ⟨_, l', a, h, ha, hs⟩

/-! ## From semaphores to signals -/

/-- no process is in a `wait` -/
structure Repos (a : Semaphores α) (s : Etat α) : Prop where
  sortie : s.sortie = a.sortie
  pendant : s.pendant = a.jeton
  reste : s.reste = a.reste
  phase : ∀ p, s.phase p = .test
  sigflag : ∀ p, s.sigflag p = false

theorem step_repos (h : Repos a s) (ha : a.step p = some a') :
    ∃ l s', runM step s l = some s' ∧ Repos a' s' := by
  obtain ⟨hsortie, hpendant, hreste, hphase, hflag⟩ := h
  cases hr : a.reste p with
  | nil => simp [Semaphores.step, hr] at ha
  | cons c l =>
    have hrs : s.reste p = c :: l := by rw [hreste, hr]
    cases c with
    | ecrit x =>
      simp only [Semaphores.step, hr, Option.some.injEq] at ha
      subst ha
      refine ⟨[.pas p], _, by rw [runM, step, hrs]; rfl, ?_⟩
      exact ⟨by rw [hsortie], hpendant, by rw [hreste], hphase, hflag⟩
    | dit =>
      simp only [Semaphores.step, hr, Option.some.injEq] at ha
      subst ha
      refine ⟨[.pas p], _, by rw [runM, step, hrs]; rfl, ?_⟩
      exact ⟨hsortie, by rw [hpendant], by rw [hreste], hphase, hflag⟩
    | attend =>
      simp only [Semaphores.step, hr] at ha
      split_ifs at ha with hjeton
      simp only [Option.some.injEq] at ha
      subst ha
      -- the test, the handler, the test again and the reset
      refine ⟨[.pas p, .pas p, .pas p, .pas p],
        ⟨Function.update s.reste p l, s.phase, Function.update s.pendant p false, s.sigflag, s.sortie⟩, ?_,
        hsortie, by rw [hpendant], by rw [hreste], hphase, hflag⟩
      have hph : Function.update s.phase p .test = s.phase := by rw [← hphase p, Function.update_eq_self]
      have hfl : Function.update s.sigflag p false = s.sigflag := by rw [← hflag p, Function.update_eq_self]
      simp [runM, step, hrs, hphase p, hflag p, hpendant, hjeton, hph, hfl]

/-- **and semaphores can be had**: a run with semaphores is what some run of the two processes does -/
theorem realise {reste : Proc → List (Cmd α)} {l : List Proc}
    (h : runM Semaphores.step (.init reste) l = some a) :
    ∃ l' s, runM step (init reste) l' = some s ∧ s.sortie = a.sortie ∧ s.reste = a.reste ∧ s.pendant = a.jeton := by
  obtain ⟨l', s, hs, hrepos⟩ := runM_simule (fun _ _ _ _ h ha => step_repos h ha)
    (show Repos (.init reste) (init reste) from ⟨rfl, rfl, rfl, fun _ => rfl, fun _ => rfl⟩) h
  exact ⟨l', s, hs, hrepos.sortie, hrepos.reste, hrepos.pendant⟩

theorem realise_slowWrite : ∃ l' s, runM step (init (slowWrite ['c'] ['a', 'b'])) l' = some s ∧
    s.sortie = ['a', 'b', 'c'] := by
  have h : runM Semaphores.step (.init (slowWrite ['c'] ['a', 'b'])) [.pere, .pere, .pere, .fils, .fils] = some _ := rfl
  obtain ⟨l', s, hs, hsortie, -⟩ := realise h
  exact ⟨l', s, hs, hsortie⟩

/-! ## The length of a run -/

/-- the steps of a command -/
def cout : Cmd α → ℕ
  | .attend => 4
  | _ => 1

def couts (l : List (Cmd α)) : ℕ := (l.map cout).sum

@[simp] theorem couts_cons (c : Cmd α) (l : List (Cmd α)) : couts (c :: l) = cout c + couts l := rfl

/-- the steps left in a `wait` -/
def Phase.mesure (sigflag : Bool) : Phase → ℕ
  | test => if sigflag then 2 else 4
  | dort => 3
  | remet => 1

def mesure (s : Etat α) (p : Proc) : ℕ :=
  match s.reste p with
  | .attend :: l => (s.phase p).mesure (s.sigflag p) + couts l
  | l => couts l

theorem mesure_le (s : Etat α) (p : Proc) : mesure s p ≤ couts (s.reste p) := by
  rw [mesure]
  split
  next l hr =>
    have hle : (s.phase p).mesure (s.sigflag p) ≤ 4 := by
      cases s.phase p <;> cases s.sigflag p <;> decide
    rw [hr, couts_cons]
    exact Nat.add_le_add_right hle _
  next => exact le_rfl

def Evenement.estPas : Evenement → Bool
  | .pas _ => true
  | .signal _ => false

theorem mesure_pas (hs : step s (.pas p) = some s') :
    mesure s' p < mesure s p ∧ mesure s' p.autre = mesure s p.autre := by
  cases hr : s.reste p with
  | nil => simp [step, hr] at hs
  | cons c l =>
    cases c with
    | ecrit x =>
      simp only [step, hr, Option.some.injEq] at hs
      subst hs
      refine ⟨?_, by simp [mesure]⟩
      refine (mesure_le _ p).trans_lt ?_
      simp [mesure, hr, cout]
    | dit =>
      simp only [step, hr, Option.some.injEq] at hs
      subst hs
      refine ⟨?_, by simp [mesure]⟩
      refine (mesure_le _ p).trans_lt ?_
      simp [mesure, hr, cout]
    | attend =>
      cases hph : s.phase p with
      | test =>
        simp only [step, hr, hph, Option.some.injEq] at hs
        subst hs
        refine ⟨?_, by simp [mesure]⟩
        cases hf : s.sigflag p <;> simp [mesure, hr, hph, hf, Phase.mesure]
      | dort =>
        simp only [step, hr, hph] at hs
        split_ifs at hs
        simp only [Option.some.injEq] at hs
        subst hs
        exact ⟨by simp [mesure, hr, hph, Phase.mesure], by simp [mesure]⟩
      | remet =>
        simp only [step, hr, hph, Option.some.injEq] at hs
        subst hs
        refine ⟨?_, by simp [mesure]⟩
        refine (mesure_le _ p).trans_lt ?_
        simp [mesure, hr, hph, Phase.mesure]

theorem mesure_signal (hs : step s (.signal p) = some s') :
    mesure s' p ≤ mesure s p + 1 ∧ mesure s' p.autre = mesure s p.autre := by
  cases hr : s.reste p with
  | nil => simp [step, hr] at hs
  | cons c l =>
    cases c with
    | ecrit x => simp [step, hr] at hs
    | dit => simp [step, hr] at hs
    | attend =>
      cases hph : s.phase p <;> simp only [step, hr, hph, Option.some.injEq, reduceCtorEq] at hs
      subst hs
      refine ⟨?_, by simp [mesure]⟩
      have hle : Phase.test.mesure (s.sigflag p) ≤ 4 := by cases s.sigflag p <;> decide
      simp only [mesure, hr, hph, Function.update_self, Phase.mesure] at hle ⊢
      omega

/-- **Only other signals lengthen a run** -/
theorem pas_borne {reste : Proc → List (Cmd α)} {l : List Evenement} (h : runM step (init reste) l = some s) :
    l.countP Evenement.estPas ≤
      couts (reste .fils) + couts (reste .pere) + l.countP fun ev => !ev.estPas := by
  have hrun : ∀ (l : List Evenement) (s s' : Etat α), runM step s l = some s' →
      l.countP Evenement.estPas + (mesure s' .fils + mesure s' .pere) ≤
        mesure s .fils + mesure s .pere + l.countP fun ev => !ev.estPas := by
    intro l
    induction l with
    | nil =>
      intro s s' h
      simp only [runM, Option.some.injEq] at h
      subst h
      simp
    | cons ev l ih =>
      intro s s' h
      obtain ⟨s₁, hs, hl⟩ := runM_cons h
      have hsuite := ih s₁ s' hl
      cases ev with
      | pas p =>
        obtain ⟨hlt, hautre⟩ := mesure_pas hs
        rw [List.countP_cons_of_pos rfl, List.countP_cons_of_neg (by simp [Evenement.estPas])]
        cases p <;> simp only [Proc.autre] at hautre <;> omega
      | signal p =>
        obtain ⟨hle, hautre⟩ := mesure_signal hs
        rw [List.countP_cons_of_neg (by simp [Evenement.estPas]), List.countP_cons_of_pos rfl]
        cases p <;> simp only [Proc.autre] at hautre <;> omega
  have hl := hrun l _ _ h
  have hf := mesure_le (init reste) .fils
  have hp := mesure_le (init reste) .pere
  simp only [init] at hf hp hl
  omega

theorem pas_borne_lesPas : lesPas.countP Evenement.estPas ≤
    couts (slowWrite ['c'] ['a', 'b'] .fils) + couts (slowWrite ['c'] ['a', 'b'] .pere) +
      lesPas.countP fun ev => !ev.estPas := by
  have h : runM step (init (slowWrite ['c'] ['a', 'b'])) lesPas = some _ := rfl
  exact pas_borne h

/-! ## slow_write.c -/

/-- the two processes with semaphores -/
inductive Ordre (fils pere : List α) : Semaphores α → Prop
  | avant {a : Semaphores α} (suite : List α) (h : a.sortie ++ suite = pere)
    (hp : a.reste .pere = suite.map .ecrit ++ [.dit]) (hf : a.reste .fils = .attend :: fils.map .ecrit)
    (hj : a.jeton .fils = false) : Ordre fils pere a
  | dit {a : Semaphores α} (h : a.sortie = pere) (hp : a.reste .pere = [])
    (hf : a.reste .fils = .attend :: fils.map .ecrit) (hj : a.jeton .fils = true) : Ordre fils pere a
  | apres {a : Semaphores α} (suite : List α) (h : a.sortie ++ suite = pere ++ fils) (hp : a.reste .pere = [])
    (hf : a.reste .fils = suite.map .ecrit) : Ordre fils pere a

theorem step_ordre {fils pere : List α} (h : Ordre fils pere a) (ha : a.step p = some a') : Ordre fils pere a' := by
  cases h with
  | avant suite h hp hf hj =>
    cases p with
    | fils => simp [Semaphores.step, hf, hj] at ha
    | pere =>
      cases suite with
      | nil =>
        simp only [Semaphores.step, hp, List.map_nil, List.nil_append, Option.some.injEq] at ha
        subst ha
        exact .dit (by simpa using h) (by simp) (by simpa using hf) (by simp [Proc.autre])
      | cons x suite =>
        simp only [Semaphores.step, hp, List.map_cons, List.cons_append, Option.some.injEq] at ha
        subst ha
        exact .avant suite (by simpa using h) (by simp) (by simpa using hf) hj
  | dit h hp hf hj =>
    cases p with
    | fils =>
      simp only [Semaphores.step, hf, hj, if_true, Option.some.injEq] at ha
      subst ha
      exact .apres fils (by rw [h]) (by simpa using hp) (by simp)
    | pere => simp [Semaphores.step, hp] at ha
  | apres suite h hp hf =>
    cases p with
    | fils =>
      cases suite with
      | nil => simp [Semaphores.step, hf] at ha
      | cons x suite =>
        simp only [Semaphores.step, hf, List.map_cons, Option.some.injEq] at ha
        subst ha
        exact .apres suite (by simpa using h) (by simpa using hp) (by simp)
    | pere => simp [Semaphores.step, hp] at ha

/-- **The parent, then the child**: whatever the order of the steps and the signals that come besides, what is written
is a beginning of the two texts in this order, and the processes stop only when both texts are whole. -/
theorem slow_write_sortie {fils pere : List α} {l : List Evenement}
    (h : runM step (init (slowWrite fils pere)) l = some s) :
    s.sortie <+: pere ++ fils ∧
      ((∀ p, step s (.pas p) = none) → s.sortie = pere ++ fils ∧ ∀ p, s.reste p = []) := by
  obtain ⟨l', a, ha, hsim⟩ := exists_simule h
  have hbloque : ∀ p, step s (.pas p) = none → Semaphores.step a p = none ∧ a.reste p = s.reste p :=
    fun p hp => hsim.bloque hp
  have hinit : Ordre fils pere (.init (slowWrite fils pere)) := .avant pere rfl rfl rfl rfl
  have hordre : Ordre fils pere a := runM_inv (fun a p a' h ha => step_ordre h ha) hinit ha
  rw [← hsim.sortie]
  cases hordre with
  | avant suite h hp hf hj =>
    refine ⟨?_, fun hfin => ?_⟩
    · rw [← h, List.append_assoc]
      exact List.prefix_append _ _
    · have hstep := (hbloque .pere (hfin .pere)).1
      cases suite <;> simp [Semaphores.step, hp] at hstep
  | dit h hp hf hj =>
    refine ⟨by rw [h]; exact List.prefix_append _ _, fun hfin => ?_⟩
    have hstep := (hbloque .fils (hfin .fils)).1
    simp [Semaphores.step, hf, hj] at hstep
  | apres suite h hp hf =>
    refine ⟨⟨suite, h⟩, fun hfin => ?_⟩
    obtain ⟨hstep, hreste⟩ := hbloque .fils (hfin .fils)
    cases suite with
    | nil =>
      refine ⟨by simpa using h, fun p => ?_⟩
      rw [← (hbloque p (hfin p)).2]
      cases p with
      | fils => exact hf
      | pere => exact hp
    | cons x suite => simp [Semaphores.step, hf] at hstep

theorem slow_write_lesPas : ∃ s, runM step (init (slowWrite ['c'] ['a', 'b'])) lesPas = some s ∧
    s.sortie = ['a', 'b'] ++ ['c'] := by
  have h : runM step (init (slowWrite ['c'] ['a', 'b'])) lesPas = some _ := rfl
  refine ⟨_, h, ((slow_write_sortie h).2 ?_).1⟩
  intro p
  cases p <;> rfl

end Semestre6.TellWait
