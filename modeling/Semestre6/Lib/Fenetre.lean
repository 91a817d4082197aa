/-
The windows of a list: the factors of a given length, by the index where they begin.

- `fenetre_eq_iff`: a window is a given word exactly when the list splits around the word at that index;
- `somme_fenetre_succ`: in a commutative group the sum over a window comes from the sum over the one before it by taking
  out the element that leaves and adding the one that enters.
-/
import Mathlib.Tactic

namespace Semestre6.Fenetre

variable {α G : Type*}

def fenetre (l : List α) (m i : ℕ) : List α := (l.drop i).take m

theorem length_fenetre {l : List α} {m i : ℕ} (h : i + m ≤ l.length) : (fenetre l m i).length = m := by
  rw [fenetre, List.length_take, List.length_drop]
  omega

theorem getElem?_fenetre {l : List α} {m i j : ℕ} (h : j < m) : (fenetre l m i)[j]? = l[i + j]? := by
  rw [fenetre, List.getElem?_take_of_lt h, List.getElem?_drop]

/-- **The window at `i` is `w`** exactly when `w` stands in the list after `i` elements. -/
theorem fenetre_eq_iff {l w : List α} {i : ℕ} (h : i + w.length ≤ l.length) :
    fenetre l w.length i = w ↔ ∃ avant apres, l = avant ++ w ++ apres ∧ avant.length = i := by
  apply Iff.intro
  · intro hw
    refine ⟨l.take i, l.drop (i + w.length), ?_, by rw [List.length_take]; omega⟩
    calc l = l.take i ++ l.drop i := (List.take_append_drop i l).symm
      _ = l.take i ++ (fenetre l w.length i ++ (l.drop i).drop w.length) := by
          rw [fenetre, List.take_append_drop w.length]
      _ = l.take i ++ w ++ l.drop (i + w.length) := by rw [hw, List.drop_drop, List.append_assoc]
  · intro hw
    obtain ⟨avant, apres, hl, hi⟩ := hw
    subst hl hi
    rw [fenetre, List.append_assoc, List.drop_left, List.take_left]

/-- one element leaves on the left, one enters on the right -/
theorem fenetre_succ {l : List α} {m i : ℕ} {a b : α} (ha : l[i]? = some a) (hb : l[i + m]? = some b) :
    fenetre l m i ++ [b] = a :: fenetre l m (i + 1) := by
  have hd : l.drop i = a :: l.drop (i + 1) := by
    obtain ⟨hi, hget⟩ := List.getElem?_eq_some_iff.1 ha
    rw [List.drop_eq_getElem_cons hi, hget]
  have hb' : (l.drop i)[m]? = some b := by rw [List.getElem?_drop, hb]
  have ht : (l.drop i).take (m + 1) = (l.drop i).take m ++ [b] := by
    rw [List.take_add_one, hb', Option.toList_some]
  rw [fenetre, fenetre, ← ht, hd, List.take_succ_cons]

/-- **The rolling sum.** -/
theorem somme_fenetre_succ [AddCommGroup G] (f : α → G) {l : List α} {m i : ℕ} {a b : α} (ha : l[i]? = some a)
    (hb : l[i + m]? = some b) :
    ((fenetre l m (i + 1)).map f).sum = ((fenetre l m i).map f).sum - f a + f b := by
  have h : ((fenetre l m i).map f).sum + f b = f a + ((fenetre l m (i + 1)).map f).sum := by
    have h := congrArg (fun w => (w.map f).sum) (fenetre_succ ha hb)
    simpa using h
  rw [sub_add_eq_add_sub, h, add_sub_cancel_left]

end Semestre6.Fenetre
