/-
Best-first search with unit costs, an estimate `h` of the cost left, and a queue that keeps the first weight of a state
it already holds. There is no set of visited states: a state can come back once it is out of the queue.

- `Extrait`: the first of the least entries leaves the queue; at the bound or above all entries are equal;
- `indiceMin_extrait`: the scan for a least index from a bound takes out such an entry;
- `Execution E file`: the entries extracted so far, in order, and the queue;
- `Invariant`: its clauses, kept by every step when the estimate falls by one at most and all the predecessors of a
  state have the same estimate;
- `Execution.optimal`: below the bound the first goal extracted has the least cost of all goals;
- `Execution.epuise`: a run that empties the queue without a goal has no goal to find.
-/
import Mathlib.Tactic

namespace Semestre6.MeilleurDabord

/-! ## The queue -/

section file

variable {α : Type*} {cle : α → ℤ} {file reste : List α} {e x : α}

/-- `e` leaves the queue, and `reste` stays in its order -/
def Extrait (cle : α → ℤ) (file : List α) (e : α) (reste : List α) : Prop :=
  ∃ l₁ l₂, file = l₁ ++ e :: l₂ ∧ reste = l₁ ++ l₂ ∧ (∀ x ∈ l₁, cle e < cle x) ∧ ∀ x ∈ l₂, cle e ≤ cle x

theorem Extrait.mem_iff (h : Extrait cle file e reste) : x ∈ file ↔ x = e ∨ x ∈ reste := by
  obtain ⟨l₁, l₂, rfl, rfl, _⟩ := h
  simp only [List.mem_append, List.mem_cons]
  tauto

theorem Extrait.le (h : Extrait cle file e reste) (hx : x ∈ reste) : cle e ≤ cle x := by
  obtain ⟨l₁, l₂, _, rfl, h₁, h₂⟩ := h
  rcases List.mem_append.1 hx with hx | hx
  · exact (h₁ x hx).le
  · exact h₂ x hx

theorem Extrait.map {β : Type*} {cle' : β → ℤ} {f : α → β} (hk : ∀ y ∈ file, cle y = cle' (f y))
    (h : Extrait cle file e reste) : Extrait cle' (file.map f) (f e) (reste.map f) := by
  have he : e ∈ file := h.mem_iff.2 (.inl rfl)
  obtain ⟨l₁, l₂, rfl, rfl, h₁, h₂⟩ := h
  refine ⟨l₁.map f, l₂.map f, by simp, by simp, ?_, ?_⟩
  · intro x hx
    obtain ⟨y, hy, rfl⟩ := List.mem_map.1 hx
    rw [← hk e he, ← hk y (List.mem_append_left _ hy)]
    exact h₁ y hy
  · intro x hx
    obtain ⟨y, hy, rfl⟩ := List.mem_map.1 hx
    rw [← hk e he, ← hk y (List.mem_append_right _ (List.mem_cons_of_mem e hy))]
    exact h₂ y hy

theorem Extrait.of_map {β : Type*} {f : β → α} {file : List β} (hext : Extrait cle (file.map f) e reste) :
    ∃ p reste', Extrait (fun a => cle (f a)) file p reste' ∧ e = f p ∧ reste = reste'.map f := by
  obtain ⟨l₁, l₂, hf, rfl, h₁, h₂⟩ := hext
  obtain ⟨m₁, m, rfl, rfl, hm⟩ := List.map_eq_append_iff.1 hf
  obtain ⟨p, m₂, rfl, rfl, rfl⟩ := List.map_eq_cons_iff.1 hm
  refine ⟨p, m₁ ++ m₂, ⟨m₁, m₂, rfl, rfl, ?_, ?_⟩, rfl, by simp⟩
  · exact fun x hx => h₁ _ (List.mem_map_of_mem hx)
  · exact fun x hx => h₂ _ (List.mem_map_of_mem hx)

/-! ### The scan for the least index -/

variable {borne : ℤ}

/-- the loop from index `i` on, with the least value so far and its index -/
def indiceMin (cle : α → ℤ) (i index : ℕ) (min : ℤ) : List α → ℕ
  | [] => index
  | z :: file => if cle z < min then indiceMin cle (i + 1) i (cle z) file else indiceMin cle (i + 1) index min file

/-- `l` is scanned, its least entry below the bound is at `index`, or it has none and `index` is 0 -/
theorem indiceMin_spec (l file : List α) (index : ℕ) (m : ℤ) (hm : m ≤ borne) (hl : ∀ z ∈ l, m ≤ min (cle z) borne)
    (hindex : m = borne ∧ index = 0 ∨
      ∃ z, l[index]? = some z ∧ min (cle z) borne = m ∧ ∀ y ∈ l.take index, m < min (cle y) borne)
    (hne : l ++ file ≠ []) :
    ∃ z, (l ++ file)[indiceMin cle l.length index m file]? = some z ∧
      (∀ y ∈ (l ++ file).take (indiceMin cle l.length index m file), min (cle z) borne < min (cle y) borne) ∧
      ∀ y ∈ l ++ file, min (cle z) borne ≤ min (cle y) borne := by
  induction file generalizing l index m with
  | nil =>
    rw [List.append_nil] at hne ⊢
    unfold indiceMin
    rcases hindex with ⟨rfl, rfl⟩ | ⟨z, hz, hzm, htake⟩
    · obtain ⟨z, l', rfl⟩ := List.exists_cons_of_ne_nil hne
      refine ⟨z, rfl, by simp, ?_⟩
      intro y hy
      exact (min_le_right _ _).trans (hl y hy)
    · exact ⟨z, hz, hzm ▸ htake, fun y hy => hzm ▸ hl y hy⟩
  | cons x file ih =>
    have hcat : l ++ x :: file = (l ++ [x]) ++ file := by simp
    have hlen : l.length + 1 = (l ++ [x]).length := by simp
    unfold indiceMin
    by_cases hx : cle x < m
    · rw [if_pos hx, hcat, hlen]
      have hcx : min (cle x) borne = cle x := min_eq_left (by omega)
      refine ih (l ++ [x]) _ _ (by omega) ?_ (.inr ⟨x, by simp, hcx, ?_⟩) (by simp)
      · intro z hz
        rcases List.mem_append.1 hz with hz | hz
        · exact hx.le.trans (hl z hz)
        · rw [List.mem_singleton.1 hz, hcx]
      · intro y hy
        rw [List.take_left] at hy
        exact hx.trans_le (hl y hy)
    · rw [if_neg hx, hcat, hlen]
      refine ih (l ++ [x]) _ _ hm ?_ ?_ (by simp)
      · intro z hz
        rcases List.mem_append.1 hz with hz | hz
        · exact hl z hz
        · rw [List.mem_singleton.1 hz]
          exact le_min (not_lt.1 hx) hm
      · rcases hindex with h0 | ⟨z, hz, hzm, htake⟩
        · exact .inl h0
        · have hi : index < l.length := (List.getElem?_eq_some_iff.1 hz).1
          refine .inr ⟨z, by rw [List.getElem?_append_left hi, hz], hzm, ?_⟩
          rwa [List.take_append_of_le_length hi.le]

/-- **The scan** takes out the first of the least entries, all those at the bound or above being equal. -/
theorem indiceMin_extrait (cle : α → ℤ) (borne : ℤ) (hne : file ≠ []) :
    ∃ z, file[indiceMin cle 0 0 borne file]? = some z ∧
      Extrait (fun x => min (cle x) borne) file z (file.eraseIdx (indiceMin cle 0 0 borne file)) := by
  obtain ⟨z, hz, hmin, hle⟩ := indiceMin_spec [] file 0 borne le_rfl (by simp) (.inl ⟨rfl, rfl⟩) hne
  simp only [List.nil_append, List.length_nil] at hz hmin hle
  obtain ⟨hi, hzi⟩ := List.getElem?_eq_some_iff.1 hz
  refine ⟨z, hz, _, file.drop (indiceMin cle 0 0 borne file + 1), ?_, ?_, hmin, ?_⟩
  · rw [← hzi, List.getElem_cons_drop, List.take_append_drop]
  · exact List.eraseIdx_eq_take_drop_succ ..
  · exact fun y hy => hle y (List.mem_of_mem_drop hy)

theorem Extrait.mem (h : Extrait cle file e reste) : e ∈ file := h.mem_iff.2 (.inl rfl)

theorem Extrait.length (h : Extrait cle file e reste) : file.length = reste.length + 1 := by
  obtain ⟨l₁, l₂, rfl, rfl, -⟩ := h
  simp only [List.length_append, List.length_cons, Nat.add_assoc]

theorem Extrait.sublist (h : Extrait cle file e reste) : reste.Sublist file := by
  obtain ⟨l₁, l₂, rfl, rfl, -⟩ := h
  exact (List.Sublist.refl l₁).append (List.sublist_cons_self e l₂)

theorem Extrait.of_lt (h : Extrait (fun x => min (cle x) borne) file e reste) (he : cle e < borne) :
    Extrait cle file e reste := by
  obtain ⟨l₁, l₂, hf, hr, h₁, h₂⟩ := h
  simp only [min_eq_left he.le, lt_min_iff, le_min_iff] at h₁ h₂
  exact ⟨l₁, l₂, hf, hr, fun x hx => (h₁ x hx).1, fun x hx => (h₂ x hx).1⟩

/-- **The bound makes no difference** exactly when some entry is below it, or the first entry is a least one. -/
theorem Extrait.of_borne_iff (h : Extrait (fun x => min (cle x) borne) file e reste) :
    Extrait cle file e reste ↔ (∃ x ∈ file, cle x < borne) ∨ ∀ y ∈ file.head?, ∀ x ∈ file, cle y ≤ cle x := by
  apply Iff.intro
  · intro hext
    by_cases he : cle e < borne
    · exact .inl ⟨e, h.mem, he⟩
    · right
      have hle : ∀ x ∈ file, cle e ≤ cle x := by
        intro x hx
        rcases hext.mem_iff.1 hx with rfl | hx
        · exact le_rfl
        · exact hext.le hx
      obtain ⟨l₁, l₂, rfl, -, h₁, -⟩ := h
      -- nothing is before `e`, whose key is the bound
      match l₁ with
      | [] => simpa using hle
      | y :: l₁ =>
        have hy : min (cle e) borne < min (cle y) borne := h₁ y List.mem_cons_self
        rw [min_eq_right (not_lt.1 he)] at hy
        exact absurd (min_le_right _ _) (not_le.2 hy)
  · intro hcas
    rcases hcas with ⟨x, hx, hlt⟩ | hhead
    · apply h.of_lt
      have hmin : min (cle e) borne ≤ min (cle x) borne := by
        rcases h.mem_iff.1 hx with rfl | hx
        · exact le_rfl
        · exact h.le hx
      rw [min_eq_left hlt.le] at hmin
      exact (min_lt_iff.1 (hmin.trans_lt hlt)).resolve_right (lt_irrefl _)
    · obtain ⟨l₁, l₂, hf, hr, h₁, h₂⟩ := h
      match l₁ with
      | [] =>
        subst hf
        have hle : ∀ x ∈ e :: l₂, cle e ≤ cle x := by simpa using hhead
        exact ⟨[], l₂, rfl, hr, by simp, fun x hx => hle x (List.mem_cons_of_mem e hx)⟩
      | y :: l₁ =>
        have hy := h₁ y List.mem_cons_self
        have he : cle e < borne := (min_lt_iff.1 (hy.trans_le (min_le_right _ _))).resolve_right (lt_irrefl _)
        exact Extrait.of_lt ⟨y :: l₁, l₂, hf, hr, h₁, h₂⟩ he

end file

variable {σ : Type*} [DecidableEq σ]

/-- a state that the queue holds keeps its weight -/
def inserer (file : List (σ × ℤ)) (z : σ × ℤ) : List (σ × ℤ) :=
  if z.1 ∈ file.map Prod.fst then file else file ++ [z]

/-- the successors of an entry, one after the other -/
def developpe (file : List (σ × ℤ)) (l : List σ) (g : ℤ) : List (σ × ℤ) :=
  l.foldl (fun file z => inserer file (z, g)) file

section developpe

variable {file : List (σ × ℤ)} {l : List σ} {g : ℤ} {x : σ × ℤ} {z : σ}

theorem mem_inserer (h : x ∈ inserer file (z, g)) : x ∈ file ∨ x = (z, g) := by
  unfold inserer at h
  split_ifs at h
  · exact .inl h
  · simpa using h

theorem subset_inserer (hx : x ∈ file) : x ∈ inserer file (z, g) := by
  unfold inserer
  split_ifs
  · exact hx
  · exact List.mem_append_left _ hx

theorem mem_developpe (h : x ∈ developpe file l g) : x ∈ file ∨ (x.1 ∈ l ∧ x.2 = g) := by
  induction l generalizing file with
  | nil => exact .inl h
  | cons z l ih =>
    rcases ih h with h | h
    · rcases mem_inserer h with h | rfl
      · exact .inl h
      · exact .inr ⟨List.mem_cons_self .., rfl⟩
    · exact .inr ⟨List.mem_cons_of_mem z h.1, h.2⟩

theorem subset_developpe (hx : x ∈ file) : x ∈ developpe file l g := by
  induction l generalizing file with
  | nil => exact hx
  | cons z l ih => exact ih (subset_inserer hx)

/-- every successor is in the queue, with the weight it had or the new one -/
theorem exists_developpe (file : List (σ × ℤ)) (g : ℤ) (hz : z ∈ l) :
    ∃ g', (z, g') ∈ developpe file l g ∧ ((z, g') ∈ file ∨ g' = g) := by
  induction l generalizing file with
  | nil => exact absurd hz List.not_mem_nil
  | cons y l ih =>
    rcases List.mem_cons.1 hz with rfl | hz
    · by_cases hin : z ∈ file.map Prod.fst
      · obtain ⟨⟨_, g'⟩, hx, rfl⟩ := List.mem_map.1 hin
        exact ⟨g', subset_developpe (l := l) (subset_inserer hx), .inl hx⟩
      · have hnew : (z, g) ∈ inserer file (z, g) := by simp [inserer, hin]
        exact ⟨g, subset_developpe (l := l) hnew, .inr rfl⟩
    · obtain ⟨g', hg', hin⟩ := ih (inserer file (y, g)) hz
      refine ⟨g', hg', ?_⟩
      rcases hin with hin | hin
      · rcases mem_inserer hin with hin | he
        · exact .inl hin
        · exact .inr (Prod.mk.inj he).2
      · exact .inr hin

end developpe

/-! ## The runs -/

variable (succ : σ → List σ) (h : σ → ℤ) (borne : ℤ) (but : σ → Prop) (s₀ : σ)

def estime (x : σ × ℤ) : ℤ := x.2 + h x.1

/-- what `Extrait` compares: the estimates at the bound or above are equal -/
def cle (x : σ × ℤ) : ℤ := min (estime h x) borne

/-- `E` has been extracted and `file` is the queue; a goal ends the run -/
inductive Execution : List (σ × ℤ) → List (σ × ℤ) → Prop
  | debut : Execution [] [(s₀, 0)]
  | pas {E file e reste} : Execution E file → (∀ x ∈ E, ¬ but x.1) → Extrait (cle h borne) file e reste →
      Execution (E ++ [e]) (developpe reste (succ e.1) (e.2 + 1))

/-- `n` steps lead to a state -/
inductive Chemin : ℕ → σ → Prop
  | zero : Chemin 0 s₀
  | pas {n x z} : Chemin n x → z ∈ succ x → Chemin (n + 1) z

structure Invariant (E file : List (σ × ℤ)) : Prop where
  atteint : ∀ x ∈ E ++ file, ∃ n : ℕ, x.2 = n ∧ Chemin succ s₀ n x.1
  /-- every successor of an extracted entry was queued, no later than from it -/
  clos : ∀ x ∈ E, ∀ z ∈ succ x.1, ∃ g, (z, g) ∈ E ++ file ∧ g ≤ x.2 + 1
  origine : (s₀, 0) ∈ E ++ file
  croissant : ∀ x ∈ E, ∀ y ∈ file, estime h x ≤ estime h y
  parent : ∀ y ∈ E ++ file, y = (s₀, 0) ∨ ∃ x ∈ E, y.1 ∈ succ x.1 ∧ y.2 = x.2 + 1

variable {succ h borne but s₀} {E file reste : List (σ × ℤ)} {e x : σ × ℤ} {l : List σ} {g : ℤ}

/-- no entry is ever lost -/
theorem Extrait.garde (hext : Extrait (cle h borne) file e reste) (hx : x ∈ E ++ file) :
    x ∈ (E ++ [e]) ++ developpe reste l g := by
  rcases List.mem_append.1 hx with hx | hx
  · exact List.mem_append_left _ (List.mem_append_left _ hx)
  · rcases hext.mem_iff.1 hx with rfl | hx
    · exact List.mem_append_left _ (by simp)
    · exact List.mem_append_right _ (subset_developpe hx)

omit [DecidableEq σ] in
/-- below the bound the least entry is the one of least estimate -/
theorem Extrait.estime_le (hext : Extrait (cle h borne) file e reste) (hx : x ∈ file) (he : estime h e < borne) :
    estime h e ≤ estime h x := by
  rcases hext.mem_iff.1 hx with rfl | hx
  · exact le_rfl
  · have hle := hext.le hx
    unfold cle at hle
    omega

/-- an entry after a step: it was there, or it is a successor of the one extracted -/
theorem Extrait.ancienne_ou (hext : Extrait (cle h borne) file e reste)
    (hx : x ∈ (E ++ [e]) ++ developpe reste (succ e.1) (e.2 + 1)) :
    x ∈ E ++ file ∨ (x.1 ∈ succ e.1 ∧ x.2 = e.2 + 1) := by
  rcases List.mem_append.1 hx with hx | hx
  · rcases List.mem_append.1 hx with hx | hx
    · exact .inl (List.mem_append_left _ hx)
    · rw [List.mem_singleton.1 hx]
      exact .inl (List.mem_append_right _ (hext.mem_iff.2 (.inl rfl)))
  · rcases mem_developpe hx with hx | hx
    · exact .inl (List.mem_append_right _ (hext.mem_iff.2 (.inr hx)))
    · exact .inr hx

section pas

variable (hI : Invariant succ h s₀ E file) (hext : Extrait (cle h borne) file e reste)
include hI hext

/-- a successor of the entry extracted is in the queue, no later than from it -/
theorem Invariant.successeur (hpar : ∀ x y, ∀ z ∈ succ x, z ∈ succ y → h x = h y) {z : σ} (hz : z ∈ succ e.1) :
    ∃ g, (z, g) ∈ developpe reste (succ e.1) (e.2 + 1) ∧ g ≤ e.2 + 1 := by
  have he : e ∈ file := hext.mem_iff.2 (.inl rfl)
  obtain ⟨g, hg, hin | rfl⟩ := exists_developpe reste (e.2 + 1) hz
  · refine ⟨g, hg, ?_⟩
    rcases hI.parent _ (List.mem_append_right E (hext.mem_iff.2 (.inr hin))) with h0 | ⟨y, hy, hzy, hgy⟩
    · obtain ⟨n, hn, _⟩ := hI.atteint e (List.mem_append_right _ he)
      have : g = 0 := (Prod.mk.inj h0).2
      omega
    · -- queued from `y`, extracted before `e` and with the same estimate left
      have hye := hI.croissant y hy e he
      have hsame := hpar e.1 y.1 z hz hzy
      simp only [estime] at hye hgy
      omega
  · exact ⟨_, hg, le_rfl⟩

theorem Invariant.pas (hcons : ∀ x, ∀ z ∈ succ x, h x ≤ h z + 1)
    (hpar : ∀ x y, ∀ z ∈ succ x, z ∈ succ y → h x = h y) (hmin : ∀ y ∈ file, estime h e ≤ estime h y) :
    Invariant succ h s₀ (E ++ [e]) (developpe reste (succ e.1) (e.2 + 1)) where
  atteint := by
    intro y hy
    rcases hext.ancienne_ou hy with hy | ⟨hy, hg⟩
    · exact hI.atteint y hy
    · obtain ⟨n, hn, hc⟩ := hI.atteint e (List.mem_append_right _ (hext.mem_iff.2 (.inl rfl)))
      exact ⟨n + 1, by rw [hg, hn]; rfl, hc.pas hy⟩
  clos := by
    intro x hx z hz
    rcases List.mem_append.1 hx with hx | hx
    · obtain ⟨g, hg, hle⟩ := hI.clos x hx z hz
      exact ⟨g, hext.garde hg, hle⟩
    · obtain rfl := List.mem_singleton.1 hx
      obtain ⟨g, hg, hle⟩ := hI.successeur hext hpar hz
      exact ⟨g, List.mem_append_right _ hg, hle⟩
  origine := hext.garde hI.origine
  croissant := by
    intro x hx y hy
    have hxe : estime h x ≤ estime h e := by
      rcases List.mem_append.1 hx with hx | hx
      · exact hI.croissant x hx e (hext.mem_iff.2 (.inl rfl))
      · rw [List.mem_singleton.1 hx]
    rcases mem_developpe hy with hy | ⟨hy, hg⟩
    · exact hxe.trans (hmin y (hext.mem_iff.2 (.inr hy)))
    · have := hcons e.1 y.1 hy
      simp only [estime] at hxe ⊢
      omega
  parent := by
    intro y hy
    rcases hext.ancienne_ou hy with hy | hy
    · rcases hI.parent y hy with h0 | ⟨x, hx, hyx⟩
      · exact .inl h0
      · exact .inr ⟨x, List.mem_append_left _ hx, hyx⟩
    · exact .inr ⟨e, List.mem_append_right _ (List.mem_singleton_self e), hy⟩

end pas

theorem Execution.invariant (hcons : ∀ x, ∀ z ∈ succ x, h x ≤ h z + 1)
    (hpar : ∀ x y, ∀ z ∈ succ x, z ∈ succ y → h x = h y) (hE : Execution succ h borne but s₀ E file)
    (hborne : ∀ x ∈ E ++ file, estime h x < borne) : Invariant succ h s₀ E file := by
  induction hE with
  | debut =>
    refine ⟨?_, by simp, by simp, by simp, by simp⟩
    intro x hx
    obtain rfl : x = (s₀, 0) := by simpa using hx
    exact ⟨0, rfl, .zero⟩
  | @pas E file e reste _ _ hext ih =>
    apply (ih fun x hx => hborne x (hext.garde hx)).pas hext hcons hpar
    intro y hy
    exact hext.estime_le hy (hborne e (hext.garde (List.mem_append_right _ (hext.mem_iff.2 (.inl rfl)))))

omit [DecidableEq σ] in
/-- a path that is not extracted to its end goes through the queue, no later than step by step -/
theorem Invariant.chemin (hcons : ∀ x, ∀ z ∈ succ x, h x ≤ h z + 1) (hI : Invariant succ h s₀ E file) {n : ℕ} {s : σ}
    (hc : Chemin succ s₀ n s) : (∃ g, (s, g) ∈ E ∧ g ≤ n) ∨ ∃ x ∈ file, estime h x ≤ n + h s := by
  induction hc with
  | zero =>
    rcases List.mem_append.1 hI.origine with h0 | h0
    · exact .inl ⟨0, h0, le_rfl⟩
    · exact .inr ⟨_, h0, le_rfl⟩
  | @pas n x z _ hz ih =>
    rcases ih with ⟨g, hg, hle⟩ | ⟨y, hy, hest⟩
    · obtain ⟨g', hg', hle'⟩ := hI.clos _ hg z hz
      simp only at hle'
      rcases List.mem_append.1 hg' with hg' | hg'
      · exact .inl ⟨g', hg', by push_cast; omega⟩
      · refine .inr ⟨_, hg', ?_⟩
        simp only [estime]
        push_cast
        omega
    · have hxz := hcons x z hz
      refine .inr ⟨y, hy, ?_⟩
      push_cast
      omega

/-- the first goal extracted is reached, and no goal costs less -/
theorem Execution.optimal (hcons : ∀ x, ∀ z ∈ succ x, h x ≤ h z + 1)
    (hpar : ∀ x y, ∀ z ∈ succ x, z ∈ succ y → h x = h y) (hbut : ∀ s, but s → h s = 0)
    (hE : Execution succ h borne but s₀ (E ++ [e]) file) (hborne : ∀ x ∈ (E ++ [e]) ++ file, estime h x < borne)
    (he : but e.1) :
    (∃ n : ℕ, e.2 = n ∧ Chemin succ s₀ n e.1) ∧ ∀ n s, Chemin succ s₀ n s → but s → e.2 ≤ (n : ℤ) := by
  refine ⟨(hE.invariant hcons hpar hborne).atteint e (by simp), ?_⟩
  intro n s hc hs
  generalize hL : E ++ [e] = L at hE
  cases hE with
  | debut => simp at hL
  | @pas E' file' e' reste hE' hbut' hext =>
    -- the run before `e` was extracted
    obtain ⟨rfl, he'⟩ := List.append_inj' hL rfl
    obtain rfl : e = e' := by simpa using he'
    have hI := hE'.invariant hcons hpar fun x hx => hborne x (hext.garde hx)
    rcases hI.chemin hcons hc with ⟨g, hg, _⟩ | ⟨x, hx, hest⟩
    · exact absurd hs (hbut' _ hg)
    · have hmin := hext.estime_le hx (hborne e (by simp))
      have h₀ := hbut s hs
      have h₁ := hbut _ he
      simp only [estime] at hmin hest
      omega

/-- an empty queue and no goal extracted: no goal can be reached -/
theorem Execution.epuise (hcons : ∀ x, ∀ z ∈ succ x, h x ≤ h z + 1)
    (hpar : ∀ x y, ∀ z ∈ succ x, z ∈ succ y → h x = h y) (hE : Execution succ h borne but s₀ E [])
    (hborne : ∀ x ∈ E, estime h x < borne) (hbut : ∀ x ∈ E, ¬ but x.1) {n : ℕ} {s : σ} (hc : Chemin succ s₀ n s) :
    ¬ but s := by
  have hI := hE.invariant hcons hpar (by simpa using hborne)
  rcases hI.chemin hcons hc with ⟨g, hg, _⟩ | ⟨x, hx, _⟩
  · exact hbut _ hg
  · exact absurd hx List.not_mem_nil

end Semestre6.MeilleurDabord
