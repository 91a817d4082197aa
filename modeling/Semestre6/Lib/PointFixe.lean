/-
Iterating a transformation that may not return until it changes nothing.

- `fixpoint f k a`: at most `k` applications of `f` from `a`;
- `fixpoint_mono`: more applications, of a transformation that returns more often, give the same result;
- `fixpoint_spec`, `fixpoint_of_eq`: the result is reached by the transformation and left unchanged by it;
- `arret_unique`: a deterministic relation reaches one such end at most.
-/
import Mathlib.Tactic

namespace Semestre6.PointFixe

variable {α : Type*} {a b c : α}

theorem eq_of_arret {R : α → α → Prop} (hR : Relator.RightUnique R) (hb : R b b) (h : Relation.ReflTransGen R b c) :
    b = c := by
  induction h with
  | refl => rfl
  | tail _ hstep ih =>
    subst ih
    exact hR hb hstep

variable [DecidableEq α] {f g : α → Option α} {k l : ℕ}

def fixpoint (f : α → Option α) : ℕ → α → Option α
  | 0, _ => none
  | k + 1, a => (f a).bind fun b => if b = a then some a else fixpoint f k b

theorem fixpoint_mono (hfg : ∀ a b, f a = some b → g a = some b) (hk : k ≤ l) (h : fixpoint f k a = some b) :
    fixpoint g l a = some b := by
  induction k generalizing l a with
  | zero => cases h
  | succ k ih =>
    obtain ⟨l, rfl⟩ : ∃ l', l = l' + 1 := ⟨l - 1, by omega⟩
    obtain ⟨c, hc, h⟩ := Option.bind_eq_some_iff.1 h
    rw [fixpoint, hfg a c hc, Option.bind_some]
    split_ifs at h ⊢
    · exact h
    · exact ih (by omega) h

theorem fixpoint_spec (h : fixpoint f k a = some b) :
    Relation.ReflTransGen (fun a b => f a = some b) a b ∧ f b = some b := by
  induction k generalizing a with
  | zero => cases h
  | succ k ih =>
    obtain ⟨c, hc, h⟩ := Option.bind_eq_some_iff.1 h
    split_ifs at h with hca
    · obtain rfl := Option.some.inj h
      exact ⟨.refl, hca ▸ hc⟩
    · obtain ⟨hr, hb⟩ := ih h
      exact ⟨hr.head hc, hb⟩

theorem fixpoint_of_eq (h : f a = some a) : fixpoint f (k + 1) a = some a := by
  rw [fixpoint, h, Option.bind_some, if_pos rfl]

end Semestre6.PointFixe
