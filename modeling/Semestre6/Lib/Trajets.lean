/-
Lengths of paths in a relation, against a potential that falls by one at most at each step.

- `Trajet r n a b`: `n` steps of `r` lead from `a` to `b`;
- `Trajet.borne`: no path is shorter than the fall of the potential;
- `exists_isLeast_iff`: a shortest path is as long as the fall exactly when some path falls at every step.
-/
import Mathlib.Tactic

namespace Semestre6.Trajets

open Relation

inductive Trajet {α : Type*} (r : α → α → Prop) : ℕ → α → α → Prop
  | nul (a : α) : Trajet r 0 a a
  | pas {n a b c} : r a b → Trajet r n b c → Trajet r (n + 1) a c

variable {α : Type*} {r : α → α → Prop} {d : α → ℤ} {a b c : α} {n : ℕ}

/-- a step on which the potential falls -/
def Descente (r : α → α → Prop) (d : α → ℤ) (v w : α) : Prop := r v w ∧ d w < d v

section borne

variable (hd : ∀ v w, r v w → d v ≤ d w + 1)
include hd

theorem Trajet.borne (h : Trajet r n a b) : d a ≤ n + d b := by
  induction h with
  | nul => simp
  | pas hr _ ih =>
    have := hd _ _ hr
    push_cast
    omega

/-- a path as short as the fall never goes up -/
theorem Trajet.descente (h : Trajet r n a b) (heq : d a = n + d b) : ReflTransGen (Descente r d) a b := by
  induction h with
  | nul => exact .refl
  | pas hr h ih =>
    have hle := h.borne hd
    have hstep := hd _ _ hr
    push_cast at heq
    exact .head ⟨hr, by omega⟩ (ih (by omega))

theorem exists_trajet_descente (h : ReflTransGen (Descente r d) a b) : ∃ n : ℕ, Trajet r n a b ∧ d a = n + d b := by
  induction h using ReflTransGen.head_induction_on with
  | refl => exact ⟨0, .nul b, by simp⟩
  | head hr _ ih =>
    obtain ⟨n, hn, heq⟩ := ih
    have hle := hd _ _ hr.1
    have hlt := hr.2
    refine ⟨n + 1, .pas hr.1 hn, ?_⟩
    push_cast
    omega

/-- **The shortest path** is as long as the fall of the potential exactly when one path falls at every step. -/
theorem exists_isLeast_iff : (∃ n : ℕ, IsLeast {n | Trajet r n a b} n ∧ d a = n + d b) ↔
    ReflTransGen (Descente r d) a b := by
  apply Iff.intro
  · intro h
    obtain ⟨n, hleast, heq⟩ := h
    exact hleast.1.descente hd heq
  · intro h
    obtain ⟨n, hn, heq⟩ := exists_trajet_descente hd h
    refine ⟨n, ⟨hn, ?_⟩, heq⟩
    intro k hk
    have hle := hk.borne hd
    omega

end borne

end Semestre6.Trajets
