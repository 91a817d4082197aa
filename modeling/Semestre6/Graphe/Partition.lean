/-
Partition.java: the classes of 0..n-1 as an array of parents, climbed up to its roots.

- `trouver`: the loop `while(it != parent[it])`; the array is well founded, so it stops;
- `trouver_unir`: `unir(i, j)` gives the class of j the root of i and changes no other class.
-/
import Semestre6.Lib.Multigraphe

namespace Semestre6.Graphe

open Multigraphe

/-- `parent` is read below `n` only -/
structure Partition where
  n : ℕ
  parent : ℕ → ℕ
  /-- climbing ends -/
  fonde : WellFounded fun x y => parent y = x ∧ x ≠ y

namespace Partition

def nouvelle (n : ℕ) : Partition where
  n := n
  parent i := i
  fonde := ⟨fun _ => ⟨_, fun _ h => absurd h.1.symm h.2⟩⟩

def trouver (p : Partition) (it : ℕ) : ℕ :=
  if p.parent it ≠ it then p.trouver (p.parent it) else it
termination_by p.fonde.wrap it
decreasing_by exact ⟨rfl, ‹_›⟩

variable (p : Partition) (i j x : ℕ)

theorem trouver_of_racine {x : ℕ} (h : p.parent x = x) : p.trouver x = x := by
  rw [trouver, if_neg (not_not.2 h)]

theorem trouver_parent : p.trouver (p.parent x) = p.trouver x := by
  by_cases h : p.parent x = x
  · rw [h]
  · rw [trouver.eq_1 p x, if_pos h]

theorem parent_trouver : p.parent (p.trouver x) = p.trouver x := by
  induction x using p.fonde.induction with
  | h x ih =>
    by_cases h : p.parent x = x
    · rw [p.trouver_of_racine h, h]
    · rw [← p.trouver_parent]
      exact ih _ ⟨rfl, h⟩

theorem trouver_trouver : p.trouver (p.trouver x) = p.trouver x := p.trouver_of_racine (p.parent_trouver x)

/-- hanging a root below a root of another class keeps the array well founded -/
theorem fonde_update {k l : ℕ} (hk : p.parent k = k) (hl : p.parent l = l) :
    WellFounded fun x y => Function.update p.parent k l y = x ∧ x ≠ y := by
  by_cases hkl : k = l
  · subst hkl
    have hsame : Function.update p.parent k k = p.parent := by
      funext x
      by_cases hx : x = k
      · rw [hx, Function.update_self, hk]
      · rw [Function.update_of_ne hx]
    rw [hsame]
    exact p.fonde
  · -- first the vertices that do not climb to `k`, then `k`, then those that do
    have hautre : ∀ x, p.trouver x ≠ k → Acc (fun x y => Function.update p.parent k l y = x ∧ x ≠ y) x := by
      intro x
      induction x using p.fonde.induction with
      | h x ih =>
        intro hx
        have hxk : x ≠ k := fun h => hx (by rw [h, p.trouver_of_racine hk])
        refine ⟨x, ?_⟩
        rintro y ⟨hy, hyx⟩
        rw [Function.update_of_ne hxk] at hy
        exact ih y ⟨hy, hyx⟩ (by rwa [← hy, p.trouver_parent])
    have hracine : Acc (fun x y => Function.update p.parent k l y = x ∧ x ≠ y) k := by
      refine ⟨k, ?_⟩
      rintro y ⟨hy, _⟩
      rw [Function.update_self] at hy
      exact hy ▸ hautre l (by rw [p.trouver_of_racine hl]; exact Ne.symm hkl)
    refine ⟨fun x => ?_⟩
    induction x using p.fonde.induction with
    | h x ih =>
      by_cases hxk : x = k
      · exact hxk ▸ hracine
      · refine ⟨x, ?_⟩
        rintro y ⟨hy, hyx⟩
        rw [Function.update_of_ne hxk] at hy
        exact ih y ⟨hy, hyx⟩

def unir : Partition :=
  let k := p.trouver j
  let l := p.trouver i
  { p with
    parent := Function.update p.parent k l
    fonde := p.fonde_update (p.parent_trouver j) (p.parent_trouver i) }

def sontConnectes : Bool := p.trouver i = p.trouver j

/-- the number of classes -/
def classes : ℕ := ((Finset.range p.n).image p.trouver).card

theorem unir_parent : (p.unir i j).parent = Function.update p.parent (p.trouver j) (p.trouver i) := rfl

theorem trouver_unir : (p.unir i j).trouver x = fusionne p.trouver i j x := by
  induction x using p.fonde.induction with
  | h x ih =>
    by_cases hx : x = p.trouver j
    · -- the root of `j`, now below the root of `i`
      subst hx
      have hi : (p.unir i j).parent (p.trouver i) = p.trouver i := by
        rw [unir_parent, Function.update_apply, p.parent_trouver, ite_self]
      have hj : (p.unir i j).parent (p.trouver j) = p.trouver i := by rw [unir_parent, Function.update_self]
      rw [← trouver_parent, hj, trouver_of_racine _ hi, fusionne, p.trouver_trouver, if_pos rfl]
    · have hp : (p.unir i j).parent x = p.parent x := by rw [unir_parent, Function.update_of_ne hx]
      by_cases h : p.parent x = x
      · rw [trouver_of_racine _ (hp.trans h), fusionne, p.trouver_of_racine h, if_neg hx]
      · rw [← trouver_parent, hp, ih _ ⟨rfl, h⟩, fusionne, fusionne, p.trouver_parent]

theorem trouver_nouvelle (n : ℕ) : (nouvelle n).trouver x = x := trouver_of_racine _ rfl

end Partition

end Semestre6.Graphe
