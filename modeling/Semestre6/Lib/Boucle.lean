/-
While loops, and loops on an index, whose body can throw.

- `ok_of_bind`, `ok_of_map`, `ok_of_mapM`: a computation in several parts that does not throw;
- `tours cond corps k`: the state after at most `k` turns;
- `Finit`: the loop stops, after some number of turns, in a state that no longer meets its condition;
- `tours_inv`: the rule for an invariant of the loop, which also says that the body never throws; `tours_inv_of_ok`:
  the rule for the runs that do not;
- `finit_of_mesure`: a loop stops when a measure decreases at every turn; `tours_fini`, `tours_suffit`: so does one whose
  turns can throw, and more turns change nothing;
- `pour`, `pour_inv`: the loop on an index, and the rule for an invariant that follows the index; `foldlM_inv`: the
  rule for a loop on a list;
- `foldlM_decrit`, `foldlM_decrit_error`: a loop that reads a list, up to the first element that it cannot read.
-/
import Mathlib.Tactic

namespace Semestre6.Boucle

theorem ok_of_bind {ε α β : Type*} {x : Except ε α} {f : α → Except ε β} {b : β} (h : x.bind f = .ok b) :
    ∃ a, x = .ok a ∧ f a = .ok b := by
  cases x with
  | error e => cases h
  | ok a => exact ⟨a, rfl, h⟩

theorem ok_of_map {ε α β : Type*} {x : Except ε α} {f : α → β} {b : β} (h : x.map f = .ok b) :
    ∃ a, x = .ok a ∧ f a = b := by
  cases x with
  | error e => cases h
  | ok a => exact ⟨a, rfl, Except.ok.inj h⟩

theorem ok_of_mapM {ε α β : Type} {f : α → Except ε β} {l : List α} {l' : List β} (h : l.mapM f = .ok l') :
    l'.length = l.length ∧ ∀ (k : ℕ) x, l[k]? = some x → ∃ y, l'[k]? = some y ∧ f x = .ok y := by
  induction l generalizing l' with
  | nil =>
    obtain rfl := Except.ok.inj h
    exact ⟨rfl, by simp⟩
  | cons x l ih =>
    rw [List.mapM_cons] at h
    obtain ⟨y, hy, h⟩ := ok_of_bind h
    obtain ⟨suite, hs, h⟩ := ok_of_bind h
    obtain rfl := Except.ok.inj h
    obtain ⟨hlen, hget⟩ := ih hs
    refine ⟨by simp [hlen], ?_⟩
    intro k z hk
    cases k with
    | zero => exact ⟨y, rfl, by simpa using (by simpa using hk : x = z) ▸ hy⟩
    | succ k => exact hget k z (by simpa using hk)

variable {σ ε : Type*} {cond : σ → Bool} {corps : σ → Except ε σ} {s t : σ} {k : ℕ}

def tours (cond : σ → Bool) (corps : σ → Except ε σ) : ℕ → σ → Except ε σ
  | 0, s => .ok s
  | k + 1, s => if cond s then corps s >>= tours cond corps k else .ok s

def Finit (cond : σ → Bool) (corps : σ → Except ε σ) (s t : σ) : Prop :=
  ∃ k, tours cond corps k s = .ok t ∧ cond t = false

theorem tours_of_cond {s' : σ} (h : cond s = true) (hs : corps s = .ok s') (k : ℕ) :
    tours cond corps (k + 1) s = tours cond corps k s' := by
  rw [tours, if_pos h, hs]
  rfl

theorem tours_of_not (h : cond s = false) (k : ℕ) : tours cond corps k s = .ok s := by
  cases k with
  | zero => rfl
  | succ k => rw [tours, if_neg (by simp [h])]

theorem tours_add {j : ℕ} (h : tours cond corps j s = .ok t) :
    tours cond corps (j + k) s = tours cond corps k t := by
  induction j generalizing s with
  | zero =>
    rw [tours, Except.ok.injEq] at h
    rw [Nat.zero_add, h]
  | succ j ih =>
    rw [Nat.add_right_comm]
    by_cases hc : cond s = true
    · rw [tours, if_pos hc] at h
      obtain ⟨s', hs, h⟩ := ok_of_bind h
      rw [tours_of_cond hc hs]
      exact ih h
    · rw [Bool.not_eq_true] at hc
      rw [tours_of_not hc, Except.ok.injEq] at h
      rw [← h, tours_of_not hc, tours_of_not hc]

theorem tours_succ (h : tours cond corps k s = .ok t) :
    tours cond corps (k + 1) s = if cond t then corps t else .ok t := by
  rw [tours_add (k := 1) h, tours]
  split_ifs
  · cases corps t <;> rfl
  · rfl

variable {Inv : σ → Prop}

/-- the rule for an invariant of the turns that do not throw -/
theorem tours_inv_of_ok (Inv : σ → Prop) (hstep : ∀ s s', Inv s → cond s = true → corps s = .ok s' → Inv s') (h : Inv s)
    (ht : tours cond corps k s = .ok t) : Inv t := by
  induction k generalizing s with
  | zero => exact Except.ok.inj ht ▸ h
  | succ k ih =>
    by_cases hc : cond s = true
    · rw [tours, if_pos hc] at ht
      obtain ⟨s', hs, ht⟩ := ok_of_bind ht
      exact ih (hstep s s' h hc hs) ht
    · rw [tours, if_neg hc, Except.ok.injEq] at ht
      exact ht ▸ h

theorem tours_inv (hstep : ∀ s, Inv s → cond s = true → ∃ s', corps s = .ok s' ∧ Inv s') (h : Inv s) (k : ℕ) :
    ∃ t, tours cond corps k s = .ok t ∧ Inv t := by
  induction k generalizing s with
  | zero => exact ⟨s, rfl, h⟩
  | succ k ih =>
    by_cases hc : cond s = true
    · obtain ⟨s', hs, hi⟩ := hstep s h hc
      rw [tours_of_cond hc hs]
      exact ih hi
    · exact ⟨s, tours_of_not (Bool.not_eq_true _ ▸ hc) _, h⟩

/-- a loop whose turns decrease a measure stops -/
theorem finit_of_mesure (Inv : σ → Prop) (mesure : σ → ℕ)
    (hstep : ∀ s, Inv s → cond s = true → ∃ s', corps s = .ok s' ∧ Inv s' ∧ mesure s' < mesure s) (h : Inv s) :
    ∃ t, Finit cond corps s t ∧ Inv t := by
  generalize hn : mesure s = n
  induction n using Nat.strong_induction_on generalizing s with
  | h n ih =>
    by_cases hc : cond s = true
    · obtain ⟨s', hs, hi, hlt⟩ := hstep s h hc
      obtain ⟨t, ⟨k, hk, ht⟩, hinv⟩ := ih (mesure s') (hn ▸ hlt) hi rfl
      exact ⟨t, ⟨k + 1, (tours_of_cond hc hs k).trans hk, ht⟩, hinv⟩
    · exact ⟨s, ⟨0, rfl, by simpa using hc⟩, h⟩

/-- a loop whose turns decrease a measure, and can throw: that many turns are enough -/
theorem tours_fini (mesure : σ → ℕ)
    (hstep : ∀ s s', cond s = true → corps s = .ok s' → mesure s' < mesure s) (hk : mesure s < k)
    (ht : tours cond corps k s = .ok t) : cond t = false := by
  induction k generalizing s with
  | zero => omega
  | succ k ih =>
    by_cases hc : cond s = true
    · rw [tours, if_pos hc] at ht
      obtain ⟨s', hs, ht⟩ := ok_of_bind ht
      have hlt := hstep s s' hc hs
      exact ih (by omega) ht
    · rw [tours, if_neg hc, Except.ok.injEq] at ht
      rw [← ht]
      simpa using hc

theorem tours_suffit {k' : ℕ} (mesure : σ → ℕ)
    (hstep : ∀ s s', cond s = true → corps s = .ok s' → mesure s' < mesure s) (hk : mesure s < k)
    (hk' : mesure s < k') : tours cond corps k s = tours cond corps k' s := by
  induction k generalizing s k' with
  | zero => omega
  | succ k ih =>
    obtain ⟨k', rfl⟩ : ∃ j, k' = j + 1 := ⟨k' - 1, by omega⟩
    rw [tours, tours]
    split_ifs with hc
    · cases hs : corps s with
      | error e => rfl
      | ok s' =>
        have hlt := hstep s s' hc hs
        exact ih (by omega) (by omega)
    · rfl

/-! ## Loops on an index -/

/-- `for (i = debut; i < fin; i++)` -/
def pour (debut fin : ℕ) (corps : ℕ → σ → Except ε σ) (s : σ) : Except ε σ :=
  (List.range' debut (fin - debut)).foldlM (fun s i => corps i s) s

variable {debut fin : ℕ} {corps : ℕ → σ → Except ε σ}

theorem pour_inv (Inv : ℕ → σ → Prop) (hle : debut ≤ fin)
    (hstep : ∀ i s, debut ≤ i → i < fin → Inv i s → ∃ s', corps i s = .ok s' ∧ Inv (i + 1) s') (h : Inv debut s) :
    ∃ t, pour debut fin corps s = .ok t ∧ Inv fin t := by
  obtain ⟨n, rfl⟩ := Nat.exists_eq_add_of_le hle
  rw [pour, Nat.add_sub_cancel_left]
  clear hle
  induction n generalizing debut s with
  | zero => exact ⟨s, rfl, h⟩
  | succ n ih =>
    obtain ⟨s', hs, hi⟩ := hstep debut s le_rfl (by omega) h
    obtain ⟨t, ht, hinv⟩ := ih hi fun i s hd hf => hstep i s (by omega) (by omega)
    have he : debut + 1 + n = debut + (n + 1) := by omega
    refine ⟨t, ?_, he ▸ hinv⟩
    rw [List.range'_succ, List.foldlM_cons, hs]
    exact ht

/-! ## Loops on a list -/

/-- the rule for an invariant of the elements treated so far -/
theorem foldlM_inv {ι : Type*} {f : σ → ι → Except ε σ} (Inv : List ι → σ → Prop) (l : List ι)
    (hstep : ∀ l₀ x l₁ s, l₀ ++ x :: l₁ = l → Inv l₀ s → ∃ s', f s x = .ok s' ∧ Inv (l₀ ++ [x]) s')
    (h : Inv [] s) : ∃ t, l.foldlM f s = .ok t ∧ Inv l t := by
  have hsuite : ∀ l₁ l₀ s, l₀ ++ l₁ = l → Inv l₀ s → ∃ t, l₁.foldlM f s = .ok t ∧ Inv l t := by
    intro l₁
    induction l₁ with
    | nil => exact fun l₀ s hl h => ⟨s, rfl, by rwa [← hl, List.append_nil]⟩
    | cons x l₁ ih =>
      intro l₀ s hl h
      obtain ⟨s', hs, hi⟩ := hstep l₀ x l₁ s hl h
      obtain ⟨t, ht, hinv⟩ := ih (l₀ ++ [x]) s' (by rw [List.append_assoc]; exact hl) hi
      refine ⟨t, ?_, hinv⟩
      rw [List.foldlM_cons, hs]
      exact ht
  exact hsuite l [] s rfl h

section Decrit

/-! The elements of a list describe what the loop adds, and the loop throws at the first one that describes nothing. -/

variable {ι α : Type*} {f : σ → ι → Except ε σ} {decrit : ι → Option α} {de : List α → σ} {L L' : List α} {l : List ι}

theorem foldlM_decrit (hok : ∀ L x a, decrit x = some a → f (de L) x = .ok (de (L ++ [a])))
    (h : l.mapM decrit = some L') : l.foldlM f (de L) = .ok (de (L ++ L')) := by
  induction l generalizing L L' with
  | nil =>
    obtain rfl : L' = [] := by simpa using h.symm
    rw [List.append_nil]
    rfl
  | cons x l ih =>
    rw [List.mapM_cons] at h
    obtain ⟨a, ha, h⟩ := Option.bind_eq_some_iff.1 h
    obtain ⟨L₁, hL₁, h⟩ := Option.bind_eq_some_iff.1 h
    obtain rfl := Option.some.inj h
    rw [List.foldlM_cons, hok L x a ha]
    refine (ih hL₁).trans ?_
    rw [List.append_assoc]
    rfl

theorem exists_mapM_of_find? (h : l.find? (fun x => (decrit x).isNone) = none) : ∃ L, l.mapM decrit = some L := by
  induction l with
  | nil => exact ⟨[], rfl⟩
  | cons x l ih =>
    obtain ⟨hx, hl⟩ := List.forall_mem_cons.1 (List.find?_eq_none.1 h)
    obtain ⟨a, ha⟩ := Option.ne_none_iff_exists'.1 (by simpa using hx : decrit x ≠ none)
    obtain ⟨L, hL⟩ := ih (List.find?_eq_none.2 hl)
    exact ⟨a :: L, by rw [List.mapM_cons, ha, hL]; rfl⟩

theorem foldlM_decrit_error (hok : ∀ L x a, decrit x = some a → f (de L) x = .ok (de (L ++ [a]))) {x : ι}
    (h : l.find? (fun x => (decrit x).isNone) = some x) :
    decrit x = none ∧ ∃ L', ∀ e, f (de L') x = .error e → l.foldlM f (de L) = .error e := by
  refine ⟨by simpa using List.find?_some h, ?_⟩
  induction l generalizing L with
  | nil => cases h
  | cons y l ih =>
    cases hy : decrit y with
    | none =>
      rw [List.find?_cons_of_pos (by simp [hy])] at h
      obtain rfl := Option.some.inj h
      refine ⟨L, ?_⟩
      intro e he
      rw [List.foldlM_cons, he]
      rfl
    | some a =>
      rw [List.find?_cons_of_neg (by simp [hy])] at h
      obtain ⟨L', hL'⟩ := ih (L := L ++ [a]) h
      refine ⟨L', ?_⟩
      intro e he
      rw [List.foldlM_cons, hok L y a hy]
      exact hL' e he

end Decrit

end Semestre6.Boucle
