/-
Maps from keys to values as lists of entries, one entry a key.

- `get_put`, `nodup_put`, `mem_cles_iff`: what `put` does to the values and to the keys;
- `sum_count`: keys that hold all the elements of a list count them all;
- `Compte`: a map that counts the elements of a list; the counts add up to its length;
- `Ordre`: an order in which the keys are enumerated, free but for giving each key once.
-/
import Mathlib.Tactic

namespace Semestre6.Dictionnaire

variable {K V : Type*} [DecidableEq K]

def get : List (K × V) → K → Option V
  | [], _ => none
  | e :: h, k => if e.1 = k then some e.2 else get h k

/-- the value replaces the one of the same key -/
def put : List (K × V) → K → V → List (K × V)
  | [], k, v => [(k, v)]
  | e :: h, k, v => if e.1 = k then (k, v) :: h else e :: put h k v

def cles (h : List (K × V)) : List K := h.map Prod.fst

variable {h : List (K × V)} {k k' : K} {v : V}

theorem get_put : get (put h k v) k' = if k = k' then some v else get h k' := by
  induction h with
  | nil => rfl
  | cons e h ih =>
    rw [put, get]
    by_cases he : e.1 = k
    · rw [if_pos he, get, he]
      split_ifs <;> rfl
    · rw [if_neg he, get, ih]
      by_cases hk : e.1 = k'
      · rw [if_pos hk, if_pos hk, if_neg fun h => he (hk.trans h.symm)]
      · rw [if_neg hk, if_neg hk]

theorem mem_cles_iff : k ∈ cles h ↔ ∃ v, get h k = some v := by
  induction h with
  | nil => simp [cles, get]
  | cons e h ih =>
    rw [cles, List.map_cons, List.mem_cons, ← cles, ih, get]
    by_cases he : e.1 = k
    · rw [if_pos he]
      exact iff_of_true (.inl he.symm) ⟨_, rfl⟩
    · rw [if_neg he]
      exact or_iff_right (Ne.symm he)

theorem cles_put : cles (put h k v) = if k ∈ cles h then cles h else cles h ++ [k] := by
  induction h with
  | nil => rfl
  | cons e h ih =>
    by_cases he : e.1 = k
    · simp [put, cles, he]
    · have hne : ¬ k = e.1 := Ne.symm he
      have hput : put (e :: h) k v = e :: put h k v := by rw [put, if_neg he]
      have hcons : ∀ l : List (K × V), cles (e :: l) = e.1 :: cles l := fun l => rfl
      rw [hput, hcons, hcons, ih]
      by_cases hk : k ∈ cles h
      · rw [if_pos hk, if_pos (List.mem_cons_of_mem _ hk)]
      · rw [if_neg hk, if_neg (by rw [List.mem_cons, or_iff_right hne]; exact hk), List.cons_append]

theorem nodup_put (hn : (cles h).Nodup) : (cles (put h k v)).Nodup := by
  rw [cles_put]
  split_ifs with hk
  · exact hn
  · exact List.nodup_append.2 ⟨hn, List.nodup_singleton k, fun a ha b hb hab => hk (by
      rw [← List.mem_singleton.1 hb, ← hab]; exact ha)⟩

variable (K) in
/-- an enumeration of the keys -/
structure Ordre where
  enumere : List K → List K
  perm : ∀ l, (enumere l).Perm l

/-! ## Counting -/

section comptage

variable [b : BEq K] [LawfulBEq K]

theorem sum_count {ks ws : List K} (hn : ks.Nodup) (hsub : ∀ w ∈ ws, w ∈ ks) :
    (ks.map fun k => ws.count k).sum = ws.length := by
  obtain rfl : b = instBEqOfDecidableEq := lawful_beq_subsingleton _ _
  have hcard : ∑ k ∈ ks.toFinset, Multiset.count k (ws : Multiset K) = Multiset.card (ws : Multiset K) :=
    Multiset.sum_count_eq_card fun w hw => List.mem_toFinset.2 (hsub w hw)
  rw [← List.sum_toFinset _ hn]
  simpa using hcard

/-- the keys are the elements of `ws`, with the number of times that each occurs -/
structure Compte (h : List (K × ℕ)) (ws : List K) : Prop where
  sansDouble : (cles h).Nodup
  valeur : ∀ k, get h k = if k ∈ ws then some (ws.count k) else none

variable {ws : List K} {c : List (K × ℕ)}

theorem Compte.mem_cles_iff (h : Compte c ws) : k ∈ cles c ↔ k ∈ ws := by
  rw [Dictionnaire.mem_cles_iff, h.valeur]
  by_cases hk : k ∈ ws <;> simp [hk]

theorem Compte.getD (h : Compte c ws) (k : K) : (get c k).getD 0 = ws.count k := by
  rw [h.valeur]
  by_cases hk : k ∈ ws
  · rw [if_pos hk, Option.getD_some]
  · rw [if_neg hk, Option.getD_none, List.count_eq_zero_of_not_mem hk]

theorem Compte.pos (h : Compte c ws) {n : ℕ} (hk : get c k = some n) : 1 ≤ n := by
  rw [h.valeur] at hk
  split_ifs at hk with hin
  rw [← Option.some.inj hk]
  exact List.count_pos_iff.2 hin

theorem Compte.sum_eq (h : Compte c ws) (o : Ordre K) :
    ((o.enumere (cles c)).map fun k => (get c k).getD 0).sum = ws.length := by
  have hperm := o.perm (cles c)
  simp only [h.getD]
  apply sum_count (hperm.nodup_iff.2 h.sansDouble)
  intro w hw
  exact hperm.mem_iff.2 (h.mem_cles_iff.2 hw)

end comptage

end Semestre6.Dictionnaire
