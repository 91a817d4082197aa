/-
The equijoin of two lists, in the order of a nested loop, and the one that a table of one value a key computes.

- `jointure`: for each element on the left, all the elements on the right with its key;
- `table_eq`: a table filled by the list on the right keeps the last element of each key;
- `jointure_eq_dernier_iff`: joining through the table is the join exactly when no element on the left has two matches;
- `nouveaux`, `nouveaux_cons`: the keys met for the first time, as a loop with a record of those already met gives them.
-/
import Mathlib.Tactic

namespace Semestre6.Jointure

variable {α β γ K : Type*} [DecidableEq K]

/-- the elements of key `k`, in their order -/
def deClef (clef : β → K) (r : List β) (k : K) : List β := r.filter fun b => clef b = k

def jointure (kl : α → K) (kr : β → K) (f : α → β → γ) (l : List α) (r : List β) : List γ :=
  l.flatMap fun a => (deClef kr r (kl a)).map (f a)

/-- one element on the right at most: the last -/
def jointureDernier (kl : α → K) (kr : β → K) (f : α → β → γ) (l : List α) (r : List β) : List γ :=
  l.flatMap fun a => ((deClef kr r (kl a)).getLast?.map (f a)).toList

def table (clef : β → K) (t : K → Option β) (r : List β) : K → Option β :=
  r.foldl (fun t b => Function.update t (clef b) (some b)) t

variable {kl : α → K} {kr clef : β → K} {f : α → β → γ} {l : List α} {r : List β}

theorem deClef_cons (b : β) (r : List β) (k : K) :
    deClef clef (b :: r) k = if clef b = k then b :: deClef clef r k else deClef clef r k := by
  unfold deClef
  split_ifs with h
  · exact List.filter_cons_of_pos (by simpa using h)
  · exact List.filter_cons_of_neg (by simpa using h)

theorem table_eq (t : K → Option β) (k : K) : table clef t r k = (deClef clef r k).getLast?.or (t k) := by
  induction r generalizing t with
  | nil => rfl
  | cons b r ih =>
    rw [table, List.foldl_cons, ← table, ih, deClef_cons]
    by_cases hb : clef b = k
    · subst hb
      rw [Function.update_self, if_pos rfl, List.getLast?_cons]
      cases (deClef clef r (clef b)).getLast? <;> rfl
    · rw [Function.update_of_ne (Ne.symm hb), if_neg hb]

theorem length_jointure : (jointure kl kr f l r).length = (l.map fun a => (deClef kr r (kl a)).length).sum := by
  rw [jointure, List.length_flatMap]
  simp only [List.length_map]

theorem length_getLast? (r : List β) (g : β → γ) : (r.getLast?.map g).toList.length = min r.length 1 := by
  induction r using List.reverseRecOn with
  | nil => rfl
  | append_singleton r b => simp

theorem length_jointureDernier :
    (jointureDernier kl kr f l r).length = (l.map fun a => min (deClef kr r (kl a)).length 1).sum := by
  rw [jointureDernier, List.length_flatMap]
  simp only [length_getLast?]

theorem getLast?_toList {s : List β} (h : s.length ≤ 1) (g : β → γ) : (s.getLast?.map g).toList = s.map g := by
  match s with
  | [] => rfl
  | [b] => rfl
  | b :: c :: s => simp at h

/-- a sum of lengths cut at 1 is the sum only where no length is cut -/
theorem le_one_of_sum_le (n : α → ℕ) (h : (l.map n).sum ≤ (l.map fun a => min (n a) 1).sum) : ∀ a ∈ l, n a ≤ 1 := by
  induction l with
  | nil => simp
  | cons a l ih =>
    have hl : (l.map fun a => min (n a) 1).sum ≤ (l.map n).sum :=
      List.sum_le_sum fun a _ => Nat.min_le_left (n a) 1
    rw [List.map_cons, List.map_cons, List.sum_cons, List.sum_cons] at h
    rw [List.forall_mem_cons]
    exact ⟨by omega, ih (by omega)⟩

/-- **The table loses nothing** exactly when no element on the left has two matches. -/
theorem jointure_eq_dernier_iff :
    jointure kl kr f l r = jointureDernier kl kr f l r ↔ ∀ a ∈ l, (deClef kr r (kl a)).length ≤ 1 := by
  apply Iff.intro
  · intro h
    have hlen := congrArg List.length h
    rw [length_jointure, length_jointureDernier] at hlen
    exact le_one_of_sum_le (fun a => (deClef kr r (kl a)).length) hlen.le
  · intro h
    unfold jointure jointureDernier
    apply List.flatMap_congr
    intro a ha
    exact (getLast?_toList (h a ha) (f a)).symm

/-! ## Keys met for the first time -/

section nouveaux

variable {κ : Type*} [BEq κ]

/-- the keys of `l` that are not yet met, each once, in the order in which they come first -/
def nouveaux (vu : κ → Bool) (l : List κ) : List κ := (l.filter fun k => !vu k).eraseDups

theorem nouveaux_false (l : List κ) : nouveaux (fun _ => false) l = l.eraseDups := by
  simp [nouveaux]

theorem nouveaux_cons (vu : κ → Bool) (k : κ) (l : List κ) :
    nouveaux vu (k :: l) = if vu k then nouveaux vu l else k :: nouveaux (fun x => vu x || x == k) l := by
  by_cases hk : vu k = true
  · rw [if_pos hk, nouveaux, List.filter_cons_of_neg (by simp [hk])]
    rfl
  · rw [if_neg hk, nouveaux, List.filter_cons_of_pos (by simpa using hk), List.eraseDups_cons, List.filter_filter, nouveaux]
    simp only [Bool.not_or, Bool.and_comm]

end nouveaux

end Semestre6.Jointure
