/-
The two processes of a `fork`.
-/
import Mathlib.Tactic

namespace Semestre6.Fork

inductive Proc where
  | fils
  | pere
deriving DecidableEq, Repr

namespace Proc

def autre : Proc → Proc
  | fils => pere
  | pere => fils

@[simp] theorem autre_autre (p : Proc) : p.autre.autre = p := by cases p <;> rfl

@[simp] theorem autre_ne (p : Proc) : p.autre ≠ p := by cases p <;> nofun

@[simp] theorem ne_autre (p : Proc) : p ≠ p.autre := (autre_ne p).symm

theorem eq_or_eq_autre (p q : Proc) : q = p ∨ q = p.autre := by
  cases p <;> cases q <;> simp [autre]

theorem forall_of (p : Proc) {P : Proc → Prop} (h : P p) (h' : P p.autre) (q : Proc) : P q := by
  rcases p.eq_or_eq_autre q with rfl | rfl
  · exact h
  · exact h'

end Proc

end Semestre6.Fork
