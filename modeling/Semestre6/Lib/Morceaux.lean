/-
A list cut after each occurrence of a separator and as soon as a piece has `m` elements, as readers of lines into
buffers of fixed size do.

- `coupe m fin ligne l`: the pieces, when `ligne` is already read of the first one;
- `coupe_fini`: a piece that is complete leaves the rest to be cut; `coupe_suite`: one that is not goes on;
- `coupe_append`, `coupe_append_complet`: the same when the list comes in two parts;
- `coupe_flatten`: put end to end the pieces are the list.
-/
import Mathlib.Tactic

namespace Semestre6.Morceaux

variable {α : Type*} [DecidableEq α] {m : ℕ} {fin c : α} {ligne l l' : List α}

def coupe (m : ℕ) (fin : α) : List α → List α → List (List α)
  | [], [] => []
  | c :: ligne, [] => [c :: ligne]
  | ligne, c :: l =>
    if c = fin ∨ m ≤ ligne.length + 1 then (ligne ++ [c]) :: coupe m fin [] l else coupe m fin (ligne ++ [c]) l

@[simp] theorem coupe_nil_nil : coupe m fin [] [] = [] := rfl

theorem coupe_nil (h : ligne ≠ []) : coupe m fin ligne [] = [ligne] := by
  cases ligne with
  | nil => exact absurd rfl h
  | cons c ligne => rfl

theorem coupe_cons : coupe m fin ligne (c :: l) =
    if c = fin ∨ m ≤ ligne.length + 1 then (ligne ++ [c]) :: coupe m fin [] l else coupe m fin (ligne ++ [c]) l := by
  cases ligne <;> rfl

/-- a piece is not complete -/
def Ouvert (m : ℕ) (fin : α) (ligne : List α) : Prop := fin ∉ ligne ∧ ligne.length < m

instance : Decidable (Ouvert m fin ligne) := inferInstanceAs (Decidable (fin ∉ ligne ∧ ligne.length < m))

theorem coupe_fini (h : c = fin ∨ m ≤ ligne.length + 1) :
    coupe m fin ligne (c :: l) = (ligne ++ [c]) :: coupe m fin [] l := by
  rw [coupe_cons, if_pos h]

theorem coupe_suite (h : Ouvert m fin (ligne ++ [c])) : coupe m fin ligne (c :: l) = coupe m fin (ligne ++ [c]) l := by
  rw [coupe_cons, if_neg]
  rintro (hc | hm)
  · exact h.1 (by simp [hc])
  · have hlen := h.2
    simp only [List.length_append, List.length_singleton] at hlen
    omega

/-- what a piece that is not complete takes first -/
theorem coupe_append (h : Ouvert m fin (ligne ++ l)) : coupe m fin ligne (l ++ l') = coupe m fin (ligne ++ l) l' := by
  induction l generalizing ligne with
  | nil => simp
  | cons c l ih =>
    have hsuite : Ouvert m fin ((ligne ++ [c]) ++ l) := by simpa using h
    have hc : Ouvert m fin (ligne ++ [c]) := by
      obtain ⟨hfin, hlen⟩ := hsuite
      exact ⟨fun hm => hfin (List.mem_append_left _ hm), by rw [List.length_append] at hlen; omega⟩
    rw [List.cons_append, coupe_suite hc, ih hsuite, List.append_assoc, List.singleton_append]

/-- a piece that is complete does not see what comes after the list -/
theorem coupe_append_complet {w r : List α} {reste : List (List α)} (ho : Ouvert m fin ligne) (hs : ligne ++ l = w ++ r)
    (hc : coupe m fin ligne l = w :: reste) (hw : ¬Ouvert m fin w) :
    coupe m fin ligne (l ++ l') = w :: coupe m fin [] (r ++ l') := by
  induction l generalizing ligne with
  | nil =>
    cases ligne with
    | nil => simp at hc
    | cons c ligne =>
      rw [coupe_nil (by simp)] at hc
      exact absurd ho ((List.cons.inj hc).1 ▸ hw)
  | cons c l ih =>
    by_cases hfin : c = fin ∨ m ≤ ligne.length + 1
    · rw [coupe_fini hfin] at hc
      obtain ⟨rfl, -⟩ := List.cons.inj hc
      have hr : l = r := by simpa using hs
      rw [List.cons_append, coupe_fini hfin, hr]
    · have hsuite : Ouvert m fin (ligne ++ [c]) := by
        obtain ⟨hc', hm⟩ := not_or.1 hfin
        refine ⟨by simpa using ⟨ho.1, Ne.symm hc'⟩, ?_⟩
        rw [List.length_append, List.length_singleton]
        omega
      rw [coupe_suite hsuite] at hc
      rw [List.cons_append, coupe_suite hsuite]
      exact ih hsuite (by simpa using hs) hc

theorem coupe_flatten : (coupe m fin ligne l).flatten = ligne ++ l := by
  induction l generalizing ligne with
  | nil => cases ligne <;> simp [coupe]
  | cons c l ih =>
    rw [coupe_cons]
    split_ifs <;> simp [ih]

end Semestre6.Morceaux
