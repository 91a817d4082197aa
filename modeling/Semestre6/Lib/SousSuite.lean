/-
Longest common subsequences of two lists. The rules below build the greatest length from the heads or from the ends.

- `PlusLongue l m n`: `n` is the greatest length of a list that is a subsequence of both;
- `cons_eq`, `cons_ne`: the greedy step on equal heads, and the better of two drops on different ones;
- `concat_eq`, `concat_ne`: the same at the ends, by reversal.
-/
import Mathlib.Tactic

namespace Semestre6.SousSuite

variable {α : Type*} {l m c : List α} {a b : α} {n k : ℕ}

def communes (l m : List α) : Set (List α) := {c | c.Sublist l ∧ c.Sublist m}

def PlusLongue (l m : List α) (n : ℕ) : Prop := IsGreatest (List.length '' communes l m) n

theorem PlusLongue.unique (h : PlusLongue l m n) (h' : PlusLongue l m k) : n = k := IsGreatest.unique h h'

theorem plusLongue_nil_left (m : List α) : PlusLongue [] m 0 := by
  refine ⟨⟨[], ⟨List.Sublist.refl [], List.nil_sublist m⟩, rfl⟩, ?_⟩
  rintro _ ⟨c, ⟨hc, -⟩, rfl⟩
  rw [List.sublist_nil.1 hc, List.length_nil]

theorem plusLongue_comm : PlusLongue l m n ↔ PlusLongue m l n := by
  have hs : communes l m = communes m l := Set.ext fun c => and_comm
  rw [PlusLongue, PlusLongue, hs]

theorem plusLongue_nil_right (l : List α) : PlusLongue l [] 0 := plusLongue_comm.1 (plusLongue_nil_left l)

/-- the head of both can be taken: it costs a common subsequence one element at most -/
theorem PlusLongue.cons_eq (h : PlusLongue l m n) : PlusLongue (a :: l) (a :: m) (n + 1) := by
  obtain ⟨⟨c, ⟨hl, hm⟩, hc⟩, hmax⟩ := h
  refine ⟨⟨a :: c, ⟨hl.cons_cons a, hm.cons_cons a⟩, by rw [List.length_cons, hc]⟩, ?_⟩
  rintro _ ⟨d, ⟨hd, hd'⟩, rfl⟩
  have htail : d.tail.length ≤ n := hmax ⟨d.tail, ⟨hd.tail, hd'.tail⟩, rfl⟩
  rw [List.length_tail] at htail
  omega

/-- of two different heads a common subsequence misses one -/
theorem sublist_or (hab : a ≠ b) (h : c.Sublist (a :: l)) (h' : c.Sublist (b :: m)) : c.Sublist l ∨ c.Sublist m := by
  rcases List.sublist_cons_iff.1 h with h | ⟨d, rfl, -⟩
  · exact .inl h
  · rcases List.sublist_cons_iff.1 h' with h' | ⟨e, he, -⟩
    · exact .inr h'
    · exact absurd (List.cons.inj he).1 hab

theorem PlusLongue.cons_ne (hab : a ≠ b) (hn : PlusLongue (a :: l) m n) (hk : PlusLongue l (b :: m) k) :
    PlusLongue (a :: l) (b :: m) (max n k) := by
  apply And.intro
  · rcases max_choice n k with h | h
    · obtain ⟨c, ⟨hl, hm⟩, hc⟩ := hn.1
      exact ⟨c, ⟨hl, hm.cons b⟩, by rw [hc, h]⟩
    · obtain ⟨c, ⟨hl, hm⟩, hc⟩ := hk.1
      exact ⟨c, ⟨hl.cons a, hm⟩, by rw [hc, h]⟩
  · rintro _ ⟨c, ⟨hl, hm⟩, rfl⟩
    rcases sublist_or hab hl hm with h | h
    · exact le_max_of_le_right (hk.2 ⟨c, ⟨h, hm⟩, rfl⟩)
    · exact le_max_of_le_left (hn.2 ⟨c, ⟨hl, h⟩, rfl⟩)

/-! ## From the ends -/

theorem plusLongue_reverse : PlusLongue l.reverse m.reverse n ↔ PlusLongue l m n := by
  have hs : List.length '' communes l.reverse m.reverse = List.length '' communes l m := by
    ext k
    apply Iff.intro
    · rintro ⟨c, ⟨hl, hm⟩, rfl⟩
      exact ⟨c.reverse, ⟨List.reverse_sublist.1 (by simpa using hl), List.reverse_sublist.1 (by simpa using hm)⟩,
        List.length_reverse⟩
    · rintro ⟨c, ⟨hl, hm⟩, rfl⟩
      exact ⟨c.reverse, ⟨hl.reverse, hm.reverse⟩, List.length_reverse⟩
  rw [PlusLongue, PlusLongue, hs]

theorem PlusLongue.concat_eq (h : PlusLongue l m n) : PlusLongue (l ++ [a]) (m ++ [a]) (n + 1) := by
  rw [← plusLongue_reverse] at h ⊢
  simpa using h.cons_eq

theorem PlusLongue.concat_ne (hab : a ≠ b) (hn : PlusLongue (l ++ [a]) m n) (hk : PlusLongue l (m ++ [b]) k) :
    PlusLongue (l ++ [a]) (m ++ [b]) (max n k) := by
  rw [← plusLongue_reverse] at hn hk ⊢
  simp only [List.reverse_append, List.reverse_singleton, List.singleton_append] at hn hk ⊢
  exact hn.cons_ne hab hk

end Semestre6.SousSuite
