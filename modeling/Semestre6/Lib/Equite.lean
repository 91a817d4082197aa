/-
Processes that share a state: at each instant a schedule names the one that takes a step.

- `execution`: the states that a schedule gives;
- `Equitable`: every process is named again and again;
- `exists_fini`: the rule for what a fair schedule reaches. In a state that is not final yet one process helps: its
  step lowers a rank, which the step of another lowers too unless it leaves it as it is, with the same process to help.
-/
import Mathlib.Tactic

namespace Semestre6.Equite

variable {σ ι : Type*} {step : σ → ι → σ} {Inv Fini : σ → Prop} {rang : σ → ℕ} {aide : σ → ι} {ordre : ℕ → ι} {s : σ}

def execution (step : σ → ι → σ) (s : σ) (ordre : ℕ → ι) : ℕ → σ
  | 0 => s
  | n + 1 => step (execution step s ordre n) (ordre n)

def Equitable (ordre : ℕ → ι) : Prop := ∀ i n, ∃ m, n ≤ m ∧ ordre m = i

theorem execution_inv (hstep : ∀ s i, Inv s → Inv (step s i)) (h : Inv s) (n : ℕ) : Inv (execution step s ordre n) := by
  induction n with
  | zero => exact h
  | succ n ih => exact hstep _ _ ih

/-- the process `aide s` helps in `s` -/
structure Avance (step : σ → ι → σ) (rang : σ → ℕ) (aide : σ → ι) (s : σ) : Prop where
  baisse : rang (step s (aide s)) < rang s
  garde : ∀ i, rang (step s i) < rang s ∨ rang (step s i) = rang s ∧ aide (step s i) = aide s

theorem exists_fini (hinv : ∀ s i, Inv s → Inv (step s i)) (haide : ∀ s, Inv s → ¬Fini s → Avance step rang aide s)
    (h : Inv s) (ho : Equitable ordre) : ∃ n, Fini (execution step s ordre n) := by
  have htous : ∀ n, Inv (execution step s ordre n) := execution_inv hinv h
  -- the induction is on the rank; between two of its drops the same process helps, so it is named
  have hrang : ∀ r n, rang (execution step s ordre n) = r → ∃ m, Fini (execution step s ordre m) := by
    intro r
    induction r using Nat.strong_induction_on with
    | _ r ih =>
      intro n hr
      by_contra hjamais
      push Not at hjamais
      obtain ⟨m, hnm, hm⟩ := ho (aide (execution step s ordre n)) n
      have hentre : ∀ k, n ≤ k → rang (execution step s ordre k) = r ∧
          aide (execution step s ordre k) = aide (execution step s ordre n) := by
        intro k hk
        induction k, hk using Nat.le_induction with
        | base => exact ⟨hr, rfl⟩
        | succ k _ hk =>
          rcases (haide _ (htous k) (hjamais k)).garde (ordre k) with hlt | ⟨heq, hmeme⟩
          · obtain ⟨j, hj⟩ := ih _ (hk.1 ▸ hlt) (k + 1) rfl
            exact absurd hj (hjamais j)
          · exact ⟨heq.trans hk.1, hmeme.trans hk.2⟩
      obtain ⟨hrm, ham⟩ := hentre m hnm
      have hbaisse := (haide _ (htous m) (hjamais m)).baisse
      rw [ham, ← hm, hrm] at hbaisse
      obtain ⟨j, hj⟩ := ih _ hbaisse (m + 1) rfl
      exact hjamais j hj
  exact hrang _ 0 rfl

theorem execution_add (k n : ℕ) : execution step s ordre (k + n) =
    execution step (execution step s ordre k) (fun i => ordre (k + i)) n := by
  induction n with
  | zero => rfl
  | succ n ih => rw [← Nat.add_assoc, execution, execution, ih]

theorem Equitable.suite (h : Equitable ordre) (k : ℕ) : Equitable fun i => ordre (k + i) := by
  intro i n
  obtain ⟨m, hm, hi⟩ := h i (k + n)
  refine ⟨m - k, by omega, ?_⟩
  dsimp only
  rw [Nat.add_sub_cancel' (by omega), hi]

/-- what is reached stays -/
theorem execution_stable (hfini : ∀ s i, Fini s → Fini (step s i)) {n m : ℕ} (hnm : n ≤ m)
    (h : Fini (execution step s ordre n)) : Fini (execution step s ordre m) := by
  induction m, hnm using Nat.le_induction with
  | base => exact h
  | succ m _ ih => exact hfini _ _ ih

end Semestre6.Equite
