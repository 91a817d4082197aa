/-
The first of the least elements of a list, for a total preorder given as a relation.

- `Premier r a l`: `a` is the first element of `l` that is below all of them;
- `foldl_premier`: a scan that keeps the first strict minimum finds it;
- `foldl_dernier`: a scan that keeps the last element of an order on part of the list;
- `insertionSort_premier`, `filter_insertionSort`: it is the head of the list sorted by insertion, which keeps the order
  of equal elements;
- `sum_take_le`: no choice of as many elements weighs less than the head of a sorted list.
-/
import Mathlib.Tactic

namespace Semestre6.Minimum

variable {α : Type*} {r : α → α → Prop} {a b x : α} {l : List α}

variable (r) in
def Premier (a : α) (l : List α) : Prop := ∃ l₁ l₂, l = l₁ ++ a :: l₂ ∧ (∀ x ∈ l₁, ¬ r x a) ∧ ∀ x ∈ l₂, r a x

theorem Premier.mem (h : Premier r a l) : a ∈ l := by
  obtain ⟨l₁, l₂, rfl, _⟩ := h
  simp

theorem Premier.le [Std.Total r] (h : Premier r a l) (hx : x ∈ l) : r a x := by
  obtain ⟨l₁, l₂, rfl, h₁, h₂⟩ := h
  rcases List.mem_append.1 hx with hx | hx
  · exact (Std.Total.total a x).resolve_right (h₁ x hx)
  · rcases List.mem_cons.1 hx with rfl | hx
    · exact (Std.Total.total x x).elim id id
    · exact h₂ x hx

theorem Premier.unique (ha : Premier r a l) (hb : Premier r b l) : a = b := by
  obtain ⟨l₁, l₂, rfl, ha₁, ha₂⟩ := ha
  obtain ⟨k₁, k₂, he, hb₁, hb₂⟩ := hb
  -- the one that stands first is below the other and strictly above it
  rcases List.append_eq_append_iff.1 he with ⟨m, rfl, hm⟩ | ⟨m, rfl, hm⟩
  · cases m with
    | nil => exact (List.cons.inj hm).1
    | cons c m =>
      obtain ⟨rfl, rfl⟩ := List.cons.inj hm
      exact absurd (ha₂ b (by simp)) (hb₁ a (by simp))
  · cases m with
    | nil => exact (List.cons.inj hm).1.symm
    | cons c m =>
      obtain ⟨rfl, rfl⟩ := List.cons.inj hm
      exact absurd (hb₂ a (by simp)) (ha₁ b (by simp))

theorem premier_cons [Std.Total r] [IsTrans α r] (hr : r x a) (h : Premier r a l) : Premier r x (x :: l) :=
  ⟨[], l, rfl, by simp, fun _ hy => IsTrans.trans _ _ _ hr (h.le hy)⟩

theorem Premier.cons_of_not (hr : ¬ r x a) (h : Premier r a l) : Premier r a (x :: l) := by
  obtain ⟨l₁, l₂, rfl, h₁, h₂⟩ := h
  exact ⟨x :: l₁, l₂, rfl, List.forall_mem_cons.2 ⟨hr, h₁⟩, h₂⟩

theorem exists_premier [Std.Total r] [IsTrans α r] (hl : l ≠ []) : ∃ a, Premier r a l := by
  induction l with
  | nil => exact absurd rfl hl
  | cons x l ih =>
    by_cases h : l = []
    · exact ⟨x, [], l, rfl, by simp, by simp [h]⟩
    · obtain ⟨a, ha⟩ := ih h
      by_cases hr : r x a
      · exact ⟨x, premier_cons hr ha⟩
      · exact ⟨a, ha.cons_of_not hr⟩

/-! ## The scan -/

section scan

variable {κ : Type*} [LinearOrder κ] (f : α → κ)

/-- `m` is the minimum so far -/
theorem foldl_premier (m : α) (l : List α) :
    Premier (f · ≤ f ·) (l.foldl (fun m x => if f x < f m then x else m) m) (m :: l) := by
  induction l generalizing m with
  | nil => exact ⟨[], [], rfl, by simp, by simp⟩
  | cons x l ih =>
    rw [List.foldl_cons]
    by_cases h : f x < f m
    · rw [if_pos h]
      have hle := (ih x).le (List.mem_cons_self (a := x))
      exact (ih x).cons_of_not (fun hm => absurd (hm.trans hle) (not_le.2 h))
    · rw [if_neg h]
      obtain ⟨l₁, l₂, he, h₁, h₂⟩ := ih m
      rcases l₁ with _ | ⟨c, l₁⟩
      · obtain ⟨hc, hl⟩ := List.cons.inj he
        refine ⟨[], x :: l, by rw [List.nil_append, ← hc], by simp, ?_⟩
        intro y hy
        rcases List.mem_cons.1 hy with rfl | hy
        · rw [← hc]
          exact not_lt.1 h
        · exact h₂ y (hl ▸ hy)
      · obtain ⟨rfl, hl⟩ := List.cons.inj he
        refine ⟨m :: x :: l₁, l₂, congrArg (m :: x :: ·) hl, ?_, h₂⟩
        intro y hy
        have hm := h₁ m (by simp)
        rcases List.mem_cons.1 hy with rfl | hy
        · exact hm
        · rcases List.mem_cons.1 hy with rfl | hy
          · exact fun hy => hm ((not_lt.1 h).trans hy)
          · exact h₁ y (List.mem_cons_of_mem m hy)

end scan

/-- the same scan for a strict relation that is transitive and total on `S` only -/
theorem foldl_dernier [DecidableRel r] {S : Set α} (htrans : ∀ a ∈ S, ∀ b ∈ S, ∀ c ∈ S, r a b → r b c → r a c)
    (htotal : ∀ a ∈ S, ∀ b ∈ S, a = b ∨ r a b ∨ r b a) {m : α} (hm : m ∈ S) (hl : ∀ x ∈ l, x ∈ S ∨ ∀ y ∈ S, ¬ r y x) :
    ∃ d ∈ S, l.foldl (fun m x => if r m x then x else m) m = d ∧ (m = d ∨ r m d) ∧ ∀ x ∈ l, x ∈ S → x = d ∨ r x d := by
  induction l generalizing m with
  | nil => exact ⟨m, hm, rfl, .inl rfl, by simp⟩
  | cons x l ih =>
    obtain ⟨hx, hl⟩ := List.forall_mem_cons.1 hl
    rw [List.foldl_cons]
    -- what is before an element that is not after `d` is not after `d`
    have hsuit : ∀ a ∈ S, ∀ b ∈ S, ∀ d ∈ S, a = b ∨ r a b → b = d ∨ r b d → a = d ∨ r a d := by
      intro a ha b hb d hd hab hbd
      rcases hab with rfl | hab
      · exact hbd
      · rcases hbd with rfl | hbd
        · exact .inr hab
        · exact .inr (htrans a ha b hb d hd hab hbd)
    by_cases hr : r m x
    · rw [if_pos hr]
      have hxS : x ∈ S := hx.resolve_right fun h => h m hm hr
      obtain ⟨d, hd, hfold, hxd, hld⟩ := ih hxS hl
      refine ⟨d, hd, hfold, hsuit m hm x hxS d hd (.inr hr) hxd, ?_⟩
      intro y hy hyS
      rcases List.mem_cons.1 hy with rfl | hy
      · exact hxd
      · exact hld y hy hyS
    · rw [if_neg hr]
      obtain ⟨d, hd, hfold, hmd, hld⟩ := ih hm hl
      refine ⟨d, hd, hfold, hmd, ?_⟩
      intro y hy hyS
      rcases List.mem_cons.1 hy with rfl | hy
      · have hym : y = m ∨ r y m := (htotal y hyS m hm).imp_right fun h => h.resolve_right hr
        exact hsuit y hyS m hm d hd hym hmd
      · exact hld y hy hyS

/-! ## Sorting by insertion -/

section tri

variable [DecidableRel r]

theorem insertionSort_premier {l₁ l₂ : List α} (h₁ : ∀ x ∈ l₁, ¬ r x a) (h₂ : ∀ x ∈ l₂, r a x) :
    (l₁ ++ a :: l₂).insertionSort r = a :: (l₁ ++ l₂).insertionSort r := by
  induction l₁ with
  | nil => exact List.insertionSort_cons_of_forall_rel r h₂
  | cons x l₁ ih =>
    obtain ⟨hx, h₁⟩ := List.forall_mem_cons.1 h₁
    rw [List.cons_append, List.insertionSort_cons, ih h₁, List.orderedInsert_of_not_le r _ hx, List.cons_append,
      List.insertionSort_cons]

theorem Premier.insertionSort [DecidableEq α] (h : Premier r a l) (ha : r a a) :
    l.insertionSort r = a :: (l.erase a).insertionSort r := by
  obtain ⟨l₁, l₂, rfl, h₁, h₂⟩ := h
  have hn : a ∉ l₁ := fun hm => h₁ a hm ha
  rw [List.erase_append_right _ hn, List.erase_cons_head]
  exact insertionSort_premier h₁ h₂

/-- elements that are all equal for the order keep theirs -/
theorem filter_insertionSort (p : α → Bool) (hp : ∀ a b, p a = true → p b = true → r a b)
    (l : List α) : (l.insertionSort r).filter p = l.filter p := by
  have hpair : (l.filter p).Pairwise r := by
    apply List.pairwise_of_forall_mem_list
    intro a ha b hb
    exact hp a b (List.mem_filter.1 ha).2 (List.mem_filter.1 hb).2
  have hsub : (l.filter p).Sublist ((l.insertionSort r).filter p) := by
    have h := (List.sublist_insertionSort hpair List.filter_sublist).filter p
    simpa only [List.filter_filter, Bool.and_self] using h
  exact (hsub.eq_of_length ((List.perm_insertionSort r l).filter p).length_eq.symm).symm

end tri

/-! ## The head of a sorted list -/

theorem forall₂_take {s l : List α} (hl : l.Pairwise r) (hr : ∀ x, r x x) (h : s.Sublist l) :
    List.Forall₂ r (l.take s.length) s := by
  induction l generalizing s with
  | nil => simp [List.sublist_nil.1 h]
  | cons x l ih =>
    obtain ⟨hx, hl⟩ := List.pairwise_cons.1 hl
    cases s with
    | nil => simp
    | cons y s =>
      have hys : r x y ∧ s.Sublist l := by
        cases h with
        | cons _ h => exact ⟨hx y (h.subset (by simp)), (List.sublist_cons_self y s).trans h⟩
        | cons_cons _ h => exact ⟨hr x, h⟩
      simpa using ⟨hys.1, ih hl hys.2⟩

theorem sum_take_le {κ : Type*} [AddCommMonoid κ] [PartialOrder κ] [IsOrderedAddMonoid κ] {f : α → κ} {s l : List α}
    (hl : l.Pairwise (f · ≤ f ·)) (h : s.Subperm l) : ((l.take s.length).map f).sum ≤ (s.map f).sum := by
  obtain ⟨s', hs, hsl⟩ := h
  rw [← hs.length_eq, ← (hs.map f).sum_eq]
  apply List.Forall₂.sum_le_sum
  rw [List.forall₂_map_left_iff, List.forall₂_map_right_iff]
  exact forall₂_take hl (fun x => le_refl (f x)) hsl

end Semestre6.Minimum
