/-
Stacks indexed by a key (`κ → List β`), and the list of keyed records that implements them: a record is pushed at the
head of the list, and the record popped is the first one with its key.

- `piles`: the stacks that a list of records stands for;
- `piles_cons`, `piles_eraseP`: a record added at the head is a push, the first record of a key erased is a pop;
- `piles_head?`: the top of a stack is the first record with its key.
-/
import Mathlib.Tactic

namespace Semestre6.Piles

variable {κ β ρ : Type*} [DecidableEq κ]

def empile (p : κ → List β) (k : κ) (b : β) : κ → List β := Function.update p k (b :: p k)

def depile (p : κ → List β) (k : κ) : κ → List β := Function.update p k (p k).tail

section

variable (cle : ρ → κ) (val : ρ → β)

/-- the stack of each key, its top first -/
def piles (l : List ρ) : κ → List β := fun k => (l.filter (cle · = k)).map val

theorem piles_cons (r : ρ) (l : List ρ) : piles cle val (r :: l) = empile (piles cle val l) (cle r) (val r) := by
  funext k
  by_cases hk : k = cle r
  · subst hk
    simp [piles, empile]
  · simp [piles, empile, Function.update_of_ne hk, Ne.symm hk]

/-- the pop of one key leaves the stacks of the others alone -/
theorem piles_eraseP (l : List ρ) (k : κ) : piles cle val (l.eraseP (cle · = k)) = depile (piles cle val l) k := by
  induction l with
  | nil =>
    funext j
    by_cases hj : j = k
    · simp [piles, depile, hj]
    · simp [piles, depile, hj]
  | cons r l ih =>
    by_cases hr : cle r = k
    · subst hr
      rw [List.eraseP_cons_of_pos (by simp), piles_cons]
      simp [depile, empile]
    · rw [List.eraseP_cons_of_neg (by simpa using hr), piles_cons, ih, piles_cons]
      funext j
      by_cases hj : j = k
      · subst hj
        simp [depile, empile, Function.update_of_ne (Ne.symm hr)]
      · by_cases hj' : j = cle r
        · subst hj'
          simp [depile, empile, Function.update_of_ne hj]
        · simp [depile, empile, Function.update_of_ne hj, Function.update_of_ne hj']

theorem piles_head? (l : List ρ) (k : κ) : (piles cle val l k).head? = (l.find? (cle · = k)).map val := by
  rw [piles, List.head?_map, List.head?_filter]

end

end Semestre6.Piles
