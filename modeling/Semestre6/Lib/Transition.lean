/-
Runs of a deterministic machine fed with a list of inputs. The environment (a scheduler, a network, a user) is the
list; the machine answers each input with one step.

- `run`: the state after a list of inputs;
- `Always G`: every step of the run meets `G`, a condition on the state before the step and on its input;
- `run_inv_of_always`: the induction rule, for an invariant kept by the steps that meet a condition;
- `always_congr`: two conditions on one step that agree in the states of an invariant agree along every run;
- `runM`, `AlwaysM`: the same for a machine that refuses the inputs it is not ready for, with the rules `runM_inv` and
  `runM_inv_of_always` for a state invariant, `runM_hist` for one that also speaks of the inputs so far,
  `runM_mesure` for a measure that bounds the runs, and `runM_simule` for the runs of another machine;
- `runO`, `AlwaysO`, `SometimeO`: a machine that also answers each input with a list of outputs.
-/
import Mathlib.Tactic

namespace Semestre6.Transition

variable {σ ι : Type*}

/-! ## Total machines -/

def run (step : σ → ι → σ) (s : σ) (l : List ι) : σ := l.foldl step s

/-- every step of the run meets `G` -/
def Always (step : σ → ι → σ) (G : σ → ι → Prop) (s : σ) : List ι → Prop
  | [] => True
  | o :: l => G s o ∧ Always step G (step s o) l

theorem always_cons {step : σ → ι → σ} {G : σ → ι → Prop} {s : σ} {o : ι} {l : List ι} :
    Always step G s (o :: l) ↔ G s o ∧ Always step G (step s o) l :=
  Iff.rfl

/-- an invariant kept by the steps that meet `G` holds after every run whose steps all meet `G` -/
theorem run_inv_of_always {step : σ → ι → σ} {G : σ → ι → Prop} {Inv : σ → Prop}
    (hstep : ∀ s o, Inv s → G s o → Inv (step s o)) (s : σ) (l : List ι) (h : Inv s) (hl : Always step G s l) :
    Inv (run step s l) := by
  induction l generalizing s with
  | nil => exact h
  | cons o l ih => exact ih _ (hstep s o h hl.1) hl.2

/-- two step conditions that agree in the states of an invariant, which the steps that meet them keep, agree along
every run -/
theorem always_congr {step : σ → ι → σ} {Inv : σ → Prop} {P Q : σ → ι → Prop}
    (hstep : ∀ s o, Inv s → P s o → Inv (step s o)) (hPQ : ∀ s o, Inv s → (P s o ↔ Q s o)) (s : σ) (l : List ι)
    (h : Inv s) : Always step P s l ↔ Always step Q s l := by
  induction l generalizing s with
  | nil => exact Iff.rfl
  | cons o l ih =>
    constructor
    · rintro ⟨hp, hl⟩
      exact ⟨(hPQ s o h).1 hp, (ih _ (hstep s o h hp)).1 hl⟩
    · rintro ⟨hq, hl⟩
      have hp := (hPQ s o h).2 hq
      exact ⟨hp, (ih _ (hstep s o h hp)).2 hl⟩

theorem always_append {step : σ → ι → σ} {G : σ → ι → Prop} (s : σ) (l l' : List ι) :
    Always step G s (l ++ l') ↔ Always step G s l ∧ Always step G (run step s l) l' := by
  induction l generalizing s with
  | nil => exact ⟨fun h => ⟨trivial, h⟩, fun h => h.2⟩
  | cons o l ih =>
    calc G s o ∧ Always step G (step s o) (l ++ l')
        ↔ G s o ∧ Always step G (step s o) l ∧ Always step G (run step (step s o) l) l' := by rw [ih]
      _ ↔ (G s o ∧ Always step G (step s o) l) ∧ Always step G (run step s (o :: l)) l' := and_assoc.symm

/-! ## Machines that can refuse an input -/

def runM (step : σ → ι → Option σ) (s : σ) : List ι → Option σ
  | [] => some s
  | o :: l => (step s o).bind fun s' => runM step s' l

theorem runM_cons {step : σ → ι → Option σ} {s t : σ} {o : ι} {l : List ι} (h : runM step s (o :: l) = some t) :
    ∃ s', step s o = some s' ∧ runM step s' l = some t := by
  simpa [runM, Option.bind_eq_some_iff] using h

theorem runM_append {step : σ → ι → Option σ} {s t : σ} {l l' : List ι} (h : runM step s l = some t) :
    runM step s (l ++ l') = runM step t l' := by
  induction l generalizing s with
  | nil => simp only [runM, Option.some.injEq] at h; rw [h, List.nil_append]
  | cons o l ih =>
    obtain ⟨s', hs, hl⟩ := runM_cons h
    rw [List.cons_append, runM, hs, Option.bind_some, ih hl]

theorem runM_inv {step : σ → ι → Option σ} {Inv : σ → Prop}
    (hstep : ∀ s o s', Inv s → step s o = some s' → Inv s') {s t : σ} {l : List ι} (h : Inv s)
    (hl : runM step s l = some t) : Inv t := by
  induction l generalizing s with
  | nil => simp only [runM, Option.some.injEq] at hl; exact hl ▸ h
  | cons o l ih =>
    obtain ⟨s', hs, hl'⟩ := runM_cons hl
    exact ih (hstep s o s' h hs) hl'

/-- a measure that every step lowers bounds the runs -/
theorem runM_mesure {step : σ → ι → Option σ} {Inv : σ → Prop} {mesure : σ → ℕ}
    (hstep : ∀ s o s', Inv s → step s o = some s' → Inv s' ∧ mesure s' < mesure s) {s t : σ} {l : List ι} (h : Inv s)
    (hl : runM step s l = some t) : Inv t ∧ l.length + mesure t ≤ mesure s := by
  induction l generalizing s with
  | nil =>
    simp only [runM, Option.some.injEq] at hl
    subst hl
    exact ⟨h, by simp⟩
  | cons o l ih =>
    obtain ⟨s', hs, hl'⟩ := runM_cons hl
    obtain ⟨hinv, hlt⟩ := hstep s o s' h hs
    obtain ⟨ht, hle⟩ := ih hinv hl'
    exact ⟨ht, by rw [List.length_cons]; omega⟩

/-- when each step of one machine is some steps of another, a run is a run -/
theorem runM_simule {τ κ : Type*} {step : σ → ι → Option σ} {step' : τ → κ → Option τ} {R : σ → τ → Prop}
    (hstep : ∀ s t o s', R s t → step s o = some s' → ∃ l t', runM step' t l = some t' ∧ R s' t') {s s' : σ} {t : τ}
    {l : List ι} (h : R s t) (hl : runM step s l = some s') : ∃ l' t', runM step' t l' = some t' ∧ R s' t' := by
  induction l generalizing s t with
  | nil =>
    simp only [runM, Option.some.injEq] at hl
    exact ⟨[], t, rfl, hl ▸ h⟩
  | cons o l ih =>
    obtain ⟨s₁, hs, hl'⟩ := runM_cons hl
    obtain ⟨l₁, t₁, ht₁, h₁⟩ := hstep s t o s₁ h hs
    obtain ⟨l₂, t₂, ht₂, h₂⟩ := ih h₁ hl'
    exact ⟨l₁ ++ l₂, t₂, by rw [runM_append ht₁, ht₂], h₂⟩

/-- every step of the run meets `G` -/
def AlwaysM (step : σ → ι → Option σ) (G : σ → ι → Prop) (s : σ) : List ι → Prop
  | [] => True
  | o :: l => G s o ∧ ∀ s', step s o = some s' → AlwaysM step G s' l

theorem alwaysM_cons {step : σ → ι → Option σ} {G : σ → ι → Prop} {s s' : σ} {o : ι} {l : List ι}
    (hs : step s o = some s') : AlwaysM step G s (o :: l) ↔ G s o ∧ AlwaysM step G s' l := by
  simp [AlwaysM, hs]

theorem runM_inv_of_always {step : σ → ι → Option σ} {G : σ → ι → Prop} {Inv : σ → Prop}
    (hstep : ∀ s o s', Inv s → G s o → step s o = some s' → Inv s') {s t : σ} {l : List ι} (h : Inv s)
    (hG : AlwaysM step G s l) (hl : runM step s l = some t) : Inv t := by
  induction l generalizing s with
  | nil => simp only [runM, Option.some.injEq] at hl; exact hl ▸ h
  | cons o l ih =>
    obtain ⟨s', hs, hl'⟩ := runM_cons hl
    exact ih (hstep s o s' h hG.1 hs) (hG.2 s' hs) hl'

/-- two step conditions that agree in the states of an invariant, which the steps that meet them keep, agree along
every run -/
theorem alwaysM_congr {step : σ → ι → Option σ} {Inv : σ → Prop} {P Q : σ → ι → Prop}
    (hstep : ∀ s o s', Inv s → P s o → step s o = some s' → Inv s') (hPQ : ∀ s o, Inv s → (P s o ↔ Q s o)) {s : σ}
    (l : List ι) (h : Inv s) : AlwaysM step P s l ↔ AlwaysM step Q s l := by
  induction l generalizing s with
  | nil => exact Iff.rfl
  | cons o l ih =>
    apply Iff.intro
    · intro hl
      exact ⟨(hPQ s o h).1 hl.1, fun s' hs => (ih (hstep s o s' h hl.1 hs)).1 (hl.2 s' hs)⟩
    · intro hl
      have hp := (hPQ s o h).2 hl.1
      exact ⟨hp, fun s' hs => (ih (hstep s o s' h hp hs)).2 (hl.2 s' hs)⟩

/-- a condition that keeps an invariant gives, along a run, what it gives in the states of the invariant -/
theorem alwaysM_imp {step : σ → ι → Option σ} {Inv : σ → Prop} {P Q : σ → ι → Prop}
    (hstep : ∀ s o s', Inv s → P s o → step s o = some s' → Inv s') (hPQ : ∀ s o, Inv s → P s o → Q s o) {s : σ}
    {l : List ι} (h : Inv s) (hl : AlwaysM step P s l) : AlwaysM step Q s l := by
  induction l generalizing s with
  | nil => trivial
  | cons o l ih => exact ⟨hPQ s o h hl.1, fun s' hs => ih (hstep s o s' h hl.1 hs) (hl.2 s' hs)⟩

/-- the rule for an invariant of the inputs so far and the state they lead to -/
theorem runM_hist {step : σ → ι → Option σ} {Inv : List ι → σ → Prop}
    (hstep : ∀ l s o s', Inv l s → step s o = some s' → Inv (l ++ [o]) s') {s t : σ} {l₀ l : List ι} (h : Inv l₀ s)
    (hl : runM step s l = some t) : Inv (l₀ ++ l) t := by
  induction l generalizing s l₀ with
  | nil => simp only [runM, Option.some.injEq] at hl; subst hl; simpa using h
  | cons o l ih =>
    obtain ⟨s', hs, hl'⟩ := runM_cons hl
    simpa using ih (hstep l₀ s o s' h hs) hl'

/-! ## Machines with outputs -/

variable {ω : Type*}

def runO (step : σ → ι → Option (σ × List ω)) (s : σ) : List ι → Option (σ × List ω)
  | [] => some (s, [])
  | i :: l => (step s i).bind fun p => (runO step p.1 l).map fun q => (q.1, p.2 ++ q.2)

/-- every step of the run meets `G` -/
def AlwaysO (step : σ → ι → Option (σ × List ω)) (G : σ → ι → Prop) (s : σ) : List ι → Prop
  | [] => True
  | i :: l => G s i ∧ ∀ p, step s i = some p → AlwaysO step G p.1 l

theorem runO_cons {step : σ → ι → Option (σ × List ω)} {s : σ} {i : ι} {l : List ι} {q : σ × List ω}
    (h : runO step s (i :: l) = some q) :
    ∃ p q', step s i = some p ∧ runO step p.1 l = some q' ∧ q = (q'.1, p.2 ++ q'.2) := by
  simp only [runO, Option.bind_eq_some_iff, Option.map_eq_some_iff] at h
  obtain ⟨p, hp, q', hq, he⟩ := h
  exact ⟨p, q', hp, hq, he.symm⟩

theorem alwaysO_cons {step : σ → ι → Option (σ × List ω)} {G : σ → ι → Prop} {s : σ} {i : ι} {l : List ι}
    {p : σ × List ω} (hp : step s i = some p) : AlwaysO step G s (i :: l) ↔ G s i ∧ AlwaysO step G p.1 l := by
  simp [AlwaysO, hp]

theorem runO_cons_of {step : σ → ι → Option (σ × List ω)} {s s' t : σ} {i : ι} {l : List ι} {o o' : List ω}
    (h : step s i = some (s', o)) (hl : runO step s' l = some (t, o')) : runO step s (i :: l) = some (t, o ++ o') := by
  simp [runO, h, hl]

/-- some step of the run meets `G` -/
def SometimeO (step : σ → ι → Option (σ × List ω)) (G : σ → ι → Prop) (s : σ) : List ι → Prop
  | [] => False
  | i :: l => G s i ∨ ∃ p, step s i = some p ∧ SometimeO step G p.1 l

theorem sometimeO_append {step : σ → ι → Option (σ × List ω)} {G : σ → ι → Prop} {s : σ} {l l' : List ι} :
    SometimeO step G s (l ++ l') ↔
      SometimeO step G s l ∨ ∃ t o, runO step s l = some (t, o) ∧ SometimeO step G t l' := by
  induction l generalizing s with
  | nil => simp [SometimeO, runO]
  | cons i l ih =>
    rw [List.cons_append, SometimeO, SometimeO, or_assoc]
    apply or_congr_right
    apply Iff.intro
    · intro h
      obtain ⟨p, hp, hl⟩ := h
      rcases ih.1 hl with hl | ⟨t, o, ht, hl⟩
      · exact .inl ⟨p, hp, hl⟩
      · exact .inr ⟨t, p.2 ++ o, runO_cons_of hp ht, hl⟩
    · intro h
      rcases h with ⟨p, hp, hl⟩ | ⟨t, o, ht, hl⟩
      · exact ⟨p, hp, ih.2 (.inl hl)⟩
      · obtain ⟨p, q, hp, hq, he⟩ := runO_cons ht
        refine ⟨p, hp, ih.2 (.inr ⟨q.1, q.2, hq, ?_⟩)⟩
        rwa [← (Prod.mk.inj he).1]

/-- while no step meets `G`, an invariant is kept and the outputs count for nothing -/
theorem runO_inv_of_never {step : σ → ι → Option (σ × List ω)} {G : σ → ι → Prop} {Inv : σ → Prop} {P : ω → Bool}
    (hstep : ∀ s i s' o, Inv s → ¬G s i → step s i = some (s', o) → Inv s' ∧ o.countP P = 0) {s t : σ} {l : List ι}
    {o : List ω} (h : Inv s) (hG : ¬SometimeO step G s l) (hl : runO step s l = some (t, o)) :
    Inv t ∧ o.countP P = 0 := by
  induction l generalizing s o with
  | nil =>
    simp only [runO, Option.some.injEq, Prod.mk.injEq] at hl
    obtain ⟨rfl, rfl⟩ := hl
    exact ⟨h, rfl⟩
  | cons i l ih =>
    obtain ⟨p, ⟨t', o'⟩, hp, hq, he⟩ := runO_cons hl
    obtain ⟨rfl, rfl⟩ := Prod.mk.inj he
    obtain ⟨hinv, ho⟩ := hstep s i p.1 p.2 h (fun hg => hG (.inl hg)) hp
    obtain ⟨ht, hc⟩ := ih hinv (fun hs => hG (.inr ⟨p, hp, hs⟩)) hq
    exact ⟨ht, by rw [List.countP_append, ho, hc]⟩

end Semestre6.Transition
