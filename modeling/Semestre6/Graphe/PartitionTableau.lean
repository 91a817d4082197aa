/-
Partition.java on its array of ints, without the invariants that `Partition` carries: every access is checked, and the
loop of trouver is given a number of turns, which it can run out of.

- `boucle_eq`: on an array that holds a `Partition`, the loop finds the root in no more turns than there are cells,
  since a cell on the way up is never met again;
- `unir_eq`: `unir` is `Partition.unir` on the array;
- `classes_unies`: after any sequence of calls to unir in range, every call to trouver ends, and sontConnectes is the
  smallest equivalence that holds the pairs united.
-/
import Semestre6.Graphe.Partition

namespace Semestre6.Graphe.PartitionTableau

open Multigraphe

inductive Arret where
  | illegalArgument (message : String)
  | arrayIndexOutOfBounds
  /-- the loop has not ended in the turns it is given -/
  | boucleSansFin
deriving DecidableEq, Repr

def verifieIndex (i : ℤ) : Except Arret Unit := if i < 0 then .error (.illegalArgument "Index Error") else .ok ()

/-- `parent[i]` -/
def lit (parent : List ℤ) (i : ℤ) : Except Arret ℤ :=
  if 0 ≤ i ∧ i < parent.length then .ok (parent.getD i.toNat 0) else .error .arrayIndexOutOfBounds

/-- `parent[k] = l` -/
def ecrit (parent : List ℤ) (k l : ℤ) : Except Arret (List ℤ) :=
  if 0 ≤ k ∧ k < parent.length then .ok (parent.set k.toNat l) else .error .arrayIndexOutOfBounds

def nouvelle (n : ℤ) : Except Arret (List ℤ) := do
  verifieIndex n
  .ok ((List.range n.toNat).map (↑))

/-- the loop of `trouver`, for `tours` tests at most -/
def boucle (parent : List ℤ) : ℕ → ℤ → Except Arret ℤ
  | 0, _ => .error .boucleSansFin
  | tours + 1, it => do
    let p ← lit parent it
    if it ≠ p then boucle parent tours p else .ok it

def trouver (tours : ℕ) (parent : List ℤ) (i : ℤ) : Except Arret ℤ := do
  verifieIndex i
  boucle parent tours i

def unir (tours : ℕ) (parent : List ℤ) (i j : ℤ) : Except Arret (List ℤ) := do
  verifieIndex i
  verifieIndex j
  let k ← trouver tours parent j
  let l ← trouver tours parent i
  ecrit parent k l

def sontConnectes (tours : ℕ) (parent : List ℤ) (i j : ℤ) : Except Arret Bool := do
  verifieIndex i
  verifieIndex j
  let k ← trouver tours parent i
  let l ← trouver tours parent j
  .ok (k = l)

def unirs (tours : ℕ) : List (ℤ × ℤ) → List ℤ → Except Arret (List ℤ)
  | [], parent => .ok parent
  | (i, j) :: appels, parent => unir tours parent i j >>= unirs tours appels

/-! ## The array of a partition -/

/-- the cells below `n` hold the parents, all below `n` -/
structure Rep (parent : List ℤ) (p : Partition) : Prop where
  taille : parent.length = p.n
  cellule : ∀ x, x < p.n → parent.getD x 0 = p.parent x
  dedans : ∀ x, x < p.n → p.parent x < p.n

variable {parent : List ℤ} {p : Partition} {x i j : ℕ}

theorem verifieIndex_natCast (i : ℕ) : verifieIndex i = .ok () := if_neg (by omega)

theorem rep_nouvelle (n : ℕ) :
    ∃ parent, nouvelle n = .ok parent ∧ Rep parent (Partition.nouvelle n) := by
  refine ⟨(List.range n).map (↑), by rw [nouvelle, verifieIndex_natCast]; rfl, by simp [Partition.nouvelle], ?_, ?_⟩
  · intro x hx
    have hx : x < n := hx
    simp [List.getD, hx, Partition.nouvelle]
  · intro x hx
    exact hx

theorem Rep.lit_eq (h : Rep parent p) (hx : x < p.n) : lit parent x = .ok (p.parent x : ℤ) := by
  rw [lit, if_pos ⟨by omega, by rw [h.taille]; exact_mod_cast hx⟩, Int.toNat_natCast, h.cellule x hx]

/-- the cells met from `x` on -/
def Monte (p : Partition) : ℕ → ℕ → Prop := Relation.ReflTransGen fun x y => p.parent x = y ∧ y ≠ x

theorem Monte.lt (h : Rep parent p) (hx : x < p.n) {y : ℕ} (hxy : Monte p x y) : y < p.n := by
  induction hxy with
  | refl => exact hx
  | tail _ hyz ih => exact hyz.1 ▸ h.dedans _ ih

/-- a cell is not met again above its parent -/
theorem not_monte_parent (hx : p.parent x ≠ x) : ¬ Monte p (p.parent x) x := by
  intro h
  have hrev : Relation.ReflTransGen (fun x y => p.parent y = x ∧ x ≠ y) x (p.parent x) := by
    have h := Relation.reflTransGen_swap.2 h
    exact h
  have hcycle : Relation.TransGen (fun x y => p.parent y = x ∧ x ≠ y) x x :=
    Relation.TransGen.tail' hrev ⟨rfl, hx⟩
  exact (p.fonde.transGen).irrefl.irrefl x hcycle

/-- **The loop finds the root**, in as many tests as there are cells from `x` up. -/
theorem boucle_eq (h : Rep parent p) (hx : x < p.n) {s : Finset ℕ} {tours : ℕ} (hs : ∀ y, Monte p x y → y ∈ s)
    (htours : s.card ≤ tours) : boucle parent tours x = .ok (p.trouver x : ℤ) := by
  induction tours generalizing x s with
  | zero =>
    have hmem : x ∈ s := hs x .refl
    rw [Nat.le_zero, Finset.card_eq_zero] at htours
    rw [htours] at hmem
    exact absurd hmem (Finset.notMem_empty x)
  | succ tours ih =>
    rw [boucle, h.lit_eq hx]
    by_cases hr : p.parent x = x
    · simp [hr, p.trouver_of_racine hr, bind, Except.bind]
    · have hne : (x : ℤ) ≠ p.parent x := by exact_mod_cast Ne.symm hr
      have hs' : ∀ y, Monte p (p.parent x) y → y ∈ s.erase x := by
        intro y hy
        refine Finset.mem_erase.2 ⟨?_, hs y (.head ⟨rfl, hr⟩ hy)⟩
        intro hyx
        exact not_monte_parent hr (hyx ▸ hy)
      have hcard : (s.erase x).card ≤ tours := by
        rw [Finset.card_erase_of_mem (hs x .refl)]
        omega
      have hloop := ih (h.dedans x hx) hs' hcard
      rw [p.trouver_parent] at hloop
      simpa [bind, Except.bind, hne] using hloop

theorem trouver_eq (h : Rep parent p) (hx : x < p.n) : trouver p.n parent x = .ok (p.trouver x : ℤ) := by
  have hs : ∀ y, Monte p x y → y ∈ Finset.range p.n := fun y hy => Finset.mem_range.2 (hy.lt h hx)
  rw [trouver, verifieIndex_natCast]
  exact boucle_eq h hx hs (Finset.card_range p.n).le

theorem trouver_lt (h : Rep parent p) (hx : x < p.n) : p.trouver x < p.n := by
  induction x using p.fonde.induction with
  | h x ih =>
    by_cases hr : p.parent x = x
    · rwa [p.trouver_of_racine hr]
    · rw [← p.trouver_parent]
      exact ih _ ⟨rfl, hr⟩ (h.dedans x hx)

/-- **The array follows** `Partition.unir`. -/
theorem unir_eq (h : Rep parent p) (hi : i < p.n) (hj : j < p.n) :
    ∃ parent', unir p.n parent i j = .ok parent' ∧ Rep parent' (p.unir i j) := by
  have hk := trouver_lt h hj
  have hl := trouver_lt h hi
  refine ⟨parent.set (p.trouver j) (p.trouver i), ?_, by rw [List.length_set]; exact h.taille, ?_, ?_⟩
  · rw [unir, verifieIndex_natCast, verifieIndex_natCast, trouver_eq h hj, trouver_eq h hi]
    have hin : (p.trouver j : ℤ) < parent.length := by rw [h.taille]; exact_mod_cast hk
    simp [bind, Except.bind, ecrit, hin]
  · intro x hx
    have hx : x < p.n := hx
    rw [Partition.unir_parent]
    by_cases hxk : x = p.trouver j
    · subst hxk
      rw [Function.update_self, List.getD, List.getElem?_set_self (by rw [h.taille]; exact hx), Option.getD_some]
    · rw [Function.update_of_ne hxk, List.getD, List.getElem?_set_ne (Ne.symm hxk), ← List.getD, h.cellule x hx]
  · intro x hx
    have hx : x < p.n := hx
    rw [Partition.unir_parent]
    by_cases hxk : x = p.trouver j
    · rw [hxk, Function.update_self]
      exact hl
    · rw [Function.update_of_ne hxk]
      exact h.dedans x hx

theorem sontConnectes_eq (h : Rep parent p) (hi : i < p.n) (hj : j < p.n) :
    sontConnectes p.n parent i j = .ok (p.sontConnectes i j) := by
  rw [sontConnectes, verifieIndex_natCast, verifieIndex_natCast, trouver_eq h hi, trouver_eq h hj]
  simp [bind, Except.bind, Partition.sontConnectes]

/-! ## Sequences of calls -/

def enInt (a : ℕ × ℕ) : ℤ × ℤ := (a.1, a.2)

/-- the calls keep the array a partition, whose classes they merge -/
theorem unirs_eq {l : List (ℕ × ℕ)} (h : Rep parent p) (hl : Etiquete Prod.fst Prod.snd p.trouver l)
    (appels : List (ℕ × ℕ)) (happels : ∀ a ∈ appels, a.1 < p.n ∧ a.2 < p.n) :
    ∃ parent' p', unirs p.n (appels.map enInt) parent = .ok parent' ∧ Rep parent' p' ∧ p'.n = p.n ∧
      Etiquete Prod.fst Prod.snd p'.trouver (appels.reverse ++ l) := by
  induction appels generalizing parent p l with
  | nil => exact ⟨parent, p, rfl, h, rfl, hl⟩
  | cons a appels ih =>
    have ha := happels a List.mem_cons_self
    obtain ⟨parent₁, h₁, hrep₁⟩ := unir_eq h ha.1 ha.2
    have hl₁ : Etiquete Prod.fst Prod.snd (p.unir a.1 a.2).trouver (a :: l) := by
      have hf : (p.unir a.1 a.2).trouver = fusionne p.trouver a.1 a.2 := funext fun x => p.trouver_unir a.1 a.2 x
      rw [hf]
      exact hl.fusionne a
    obtain ⟨parent', p', h', hrep', hn, hl'⟩ := ih hrep₁ hl₁ fun b hb => happels b (List.mem_cons_of_mem _ hb)
    refine ⟨parent', p', ?_, hrep', hn, by simpa using hl'⟩
    rw [List.map_cons, unirs.eq_2]
    exact (congrArg (· >>= _) h₁).trans h'

theorem joint_iff {l : List (ℕ × ℕ)} {u v : ℕ} :
    Joint Prod.fst Prod.snd l u v ↔ Relation.EqvGen (fun x y => (x, y) ∈ l) u v := by
  apply Iff.intro
  · apply Relation.EqvGen.mono
    intro x y hxy
    obtain ⟨e, he, hx, hy⟩ := hxy
    subst hx hy
    exact he
  · apply Relation.EqvGen.mono
    intro x y hxy
    exact ⟨(x, y), hxy, rfl, rfl⟩

/-- **Classes.** On a new partition of `n` elements, any calls to unir in range go through; after them trouver ends on
every element within `n` turns, inside the array, and sontConnectes tells the smallest equivalence that holds the
pairs. -/
theorem classes_unies (n : ℕ) (appels : List (ℕ × ℕ)) (happels : ∀ a ∈ appels, a.1 < n ∧ a.2 < n) :
    ∃ parent, (nouvelle n >>= unirs n (appels.map enInt)) = .ok parent ∧
      (∀ u, u < n → ∃ r, r < n ∧ trouver n parent (u : ℕ) = .ok ((r : ℕ) : ℤ)) ∧
      ∀ u v, u < n → v < n → ∃ b, sontConnectes n parent (u : ℕ) (v : ℕ) = .ok b ∧
        (b = true ↔ Relation.EqvGen (fun x y => (x, y) ∈ appels) u v) := by
  obtain ⟨parent₀, h₀, hrep₀⟩ := rep_nouvelle n
  have hl₀ : Etiquete Prod.fst Prod.snd (Partition.nouvelle n).trouver ([] : List (ℕ × ℕ)) :=
    etiquete_nil _ fun x y h => by simpa [Partition.trouver_nouvelle] using h
  obtain ⟨parent, p, hrun, hrep, hn, hl⟩ := unirs_eq hrep₀ hl₀ appels happels
  have hn : p.n = n := hn
  subst hn
  refine ⟨parent, (congrArg (· >>= _) h₀).trans hrun, ?_, ?_⟩
  · intro u hu
    exact ⟨p.trouver u, trouver_lt hrep hu, trouver_eq hrep hu⟩
  · intro u v hu hv
    refine ⟨p.sontConnectes u v, sontConnectes_eq hrep hu hv, ?_⟩
    rw [Partition.sontConnectes, decide_eq_true_iff, hl u v, joint_iff, List.append_nil]
    simp only [List.mem_reverse]

/-- two calls on three elements -/
theorem classes_unies_trois :
    ∃ parent, (nouvelle 3 >>= unirs 3 ([(0, 1), (1, 0)].map enInt)) = .ok parent ∧
      (∀ u, u < 3 → ∃ r, r < 3 ∧ trouver 3 parent (u : ℕ) = .ok ((r : ℕ) : ℤ)) ∧
      ∀ u v, u < 3 → v < 3 → ∃ b, sontConnectes 3 parent (u : ℕ) (v : ℕ) = .ok b ∧
        (b = true ↔ Relation.EqvGen (fun x y => (x, y) ∈ [(0, 1), (1, 0)]) u v) :=
  classes_unies 3 [(0, 1), (1, 0)] (by decide)

end Semestre6.Graphe.PartitionTableau
