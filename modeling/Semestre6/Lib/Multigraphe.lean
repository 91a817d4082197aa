/-
Forests in a multigraph given by the list of its edges: loops and parallel edges are edges like the others.

- `Joint l x y`: a path of edges of `l` leads from `x` to `y`;
- `Etiquete f l`: the labels `f` tell the components of `l`; `fusionne` is what one more edge does to them;
- `Foret l`: no edge of `l` joins two vertices that the others already join;
- `Foret.card`, `card_le`: the number of components plus the number of edges, exact for a forest, a bound otherwise;
- `Foret.joints_iff`: a forest joins all the vertices exactly when it has one edge less than vertices;
- `update_deux`: the lists of neighbours with one more edge.
-/
import Mathlib.Tactic

namespace Semestre6.Multigraphe

variable {ν ε β : Type*} {deb fin : ε → ν} {l l' : List ε} {e : ε} {x y : ν}

variable (deb fin) in
def Joint (l : List ε) : ν → ν → Prop := Relation.EqvGen fun x y => ∃ e ∈ l, deb e = x ∧ fin e = y

theorem Joint.mono (h : l ⊆ l') (hxy : Joint deb fin l x y) : Joint deb fin l' x y :=
  Relation.EqvGen.mono (fun _ _ ⟨e, he, hx⟩ => ⟨e, h he, hx⟩) _ _ hxy

theorem joint_of_mem (he : e ∈ l) : Joint deb fin l (deb e) (fin e) := .rel _ _ ⟨e, he, rfl, rfl⟩

/-- what the two ends of every edge share, joined vertices share -/
theorem Joint.congr (h : Joint deb fin l x y) (f : ν → β) (hf : ∀ e ∈ l, f (deb e) = f (fin e)) : f x = f y := by
  induction h with
  | rel u v huv =>
    obtain ⟨e, he, rfl, rfl⟩ := huv
    exact hf e he
  | refl u => rfl
  | symm u v _ ih => exact ih.symm
  | trans u v w _ _ ih₁ ih₂ => exact ih₁.trans ih₂

/-- a joined vertex is an end of some edge -/
theorem Joint.exists_mem (h : Joint deb fin l x y) (hxy : x ≠ y) : ∃ e ∈ l, deb e = x ∨ fin e = x := by
  by_contra! hn
  have heq := h.congr (fun u => u = x) fun e he => by simp [hn e he]
  exact hxy (cast heq rfl).symm

/-! ## Labels of the components -/

variable (deb fin) in
/-- two vertices have the same label exactly when they are joined -/
def Etiquete (f : ν → β) (l : List ε) : Prop := ∀ x y, f x = f y ↔ Joint deb fin l x y

/-- the class of `b` takes the label of the class of `a` -/
def fusionne [DecidableEq β] (f : ν → β) (a b : ν) (x : ν) : β := if f x = f b then f a else f x

theorem etiquete_nil (f : ν → β) (hf : Function.Injective f) : Etiquete deb fin f [] := by
  intro x y
  constructor
  · intro h
    rw [hf h]
    exact .refl y
  · intro h
    exact h.congr f (by simp)

theorem Etiquete.perm {f : ν → β} (hf : Etiquete deb fin f l) (h : l.Perm l') : Etiquete deb fin f l' :=
  fun x y => (hf x y).trans ⟨Joint.mono h.subset, Joint.mono h.symm.subset⟩

theorem Etiquete.fusionne [DecidableEq β] {f : ν → β} (hf : Etiquete deb fin f l) (e : ε) :
    Etiquete deb fin (fusionne f (deb e) (fin e)) (e :: l) := by
  have hmono : ∀ {u v}, f u = f v → Joint deb fin (e :: l) u v :=
    fun {u v} h => ((hf u v).1 h).mono (List.subset_cons_self e l)
  have he : Joint deb fin (e :: l) (deb e) (fin e) := joint_of_mem (List.mem_cons_self ..)
  intro x y
  constructor
  · intro h
    by_cases hx : f x = f (fin e) <;> by_cases hy : f y = f (fin e)
    · exact hmono (hx.trans hy.symm)
    · simp only [Multigraphe.fusionne, hx, hy, if_true, if_false] at h
      exact (hmono hx).trans _ _ _ (he.symm.trans _ _ _ (hmono h))
    · simp only [Multigraphe.fusionne, hx, hy, if_true, if_false] at h
      exact (hmono h).trans _ _ _ (he.trans _ _ _ (hmono hy.symm))
    · simp only [Multigraphe.fusionne, hx, hy, if_false] at h
      exact hmono h
  · intro h
    apply h.congr
    intro d hd
    rcases List.mem_cons.1 hd with rfl | hd
    · by_cases h : f (deb d) = f (fin d) <;> simp [Multigraphe.fusionne, h]
    · simp [Multigraphe.fusionne, (hf _ _).2 (joint_of_mem hd)]

variable (deb fin) in
theorem exists_etiquete (l : List ε) : ∃ f : ν → ν, Etiquete deb fin f l := by
  classical
  induction l with
  | nil => exact ⟨id, etiquete_nil id Function.injective_id⟩
  | cons e l ih =>
    obtain ⟨f, hf⟩ := ih
    exact ⟨Multigraphe.fusionne f (deb e) (fin e), hf.fusionne e⟩

/-- what one more edge joins -/
theorem Joint.of_cons (h : Joint deb fin (e :: l) x y) :
    Joint deb fin l x y ∨ (Joint deb fin l x (deb e) ∧ Joint deb fin l (fin e) y) ∨
      (Joint deb fin l x (fin e) ∧ Joint deb fin l (deb e) y) := by
  classical
  obtain ⟨f, hf⟩ := exists_etiquete deb fin l
  have heq := (hf.fusionne e x y).2 h
  simp only [← hf _ _]
  by_cases hx : f x = f (fin e) <;> by_cases hy : f y = f (fin e)
  · exact .inl (hx.trans hy.symm)
  · simp only [Multigraphe.fusionne, hx, hy, if_true, if_false] at heq
    exact .inr (.inr ⟨hx, heq⟩)
  · simp only [Multigraphe.fusionne, hx, hy, if_true, if_false] at heq
    exact .inr (.inl ⟨heq, hy.symm⟩)
  · simp only [Multigraphe.fusionne, hx, hy, if_false] at heq
    exact .inl heq

/-! ## Forests -/

variable (deb fin) in
/-- no edge joins two vertices that the others join -/
def Foret (l : List ε) : Prop := ∀ e r, l.Perm (e :: r) → ¬ Joint deb fin r (deb e) (fin e)

theorem Foret.nil : Foret deb fin ([] : List ε) := by
  intro e r h
  exact absurd h.length_eq (by simp)

theorem Foret.perm (hl : Foret deb fin l) (h : l.Perm l') : Foret deb fin l' := fun e r hr => hl e r (h.trans hr)

theorem Foret.tail (hl : Foret deb fin (e :: l)) : Foret deb fin l := by
  intro d r hr hj
  have hp : (e :: l).Perm (d :: e :: r) := (hr.cons e).trans (List.Perm.swap d e r)
  exact hl d (e :: r) hp (hj.mono (List.subset_cons_self e r))

theorem Foret.of_subperm (hl : Foret deb fin l) (h : l'.Subperm l) : Foret deb fin l' := by
  obtain ⟨r, hr⟩ : ∃ r, l.Perm (l' ++ r) := by
    obtain ⟨s, hs, hsl⟩ := h
    obtain ⟨r, hr⟩ := hsl.exists_perm_append
    exact ⟨r, hr.trans (hs.append_right r)⟩
  have hl := hl.perm (hr.trans List.perm_append_comm)
  clear hr h
  induction r with
  | nil => exact hl
  | cons e r ih => exact ih hl.tail

/-- an edge between two components keeps a forest -/
theorem foret_cons_iff : Foret deb fin (e :: l) ↔ Foret deb fin l ∧ ¬ Joint deb fin l (deb e) (fin e) := by
  constructor
  · intro h
    exact ⟨h.tail, h e l (List.Perm.refl _)⟩
  · rintro ⟨hl, he⟩ d r hr hj
    have hmem : e ∈ d :: r := hr.subset (List.mem_cons_self ..)
    rcases List.mem_cons.1 hmem with rfl | hmem
    · exact he (hj.mono hr.cons_inv.symm.subset)
    · obtain ⟨s, hs⟩ : ∃ s, r.Perm (e :: s) := by
        classical
        exact ⟨_, List.perm_cons_erase hmem⟩
      have hds : l.Perm (d :: s) := (hr.trans ((hs.cons d).trans (List.Perm.swap e d s))).cons_inv
      -- the ends of `d` are joined through `e` only, and then the ends of `e` through `d`
      have hd : Joint deb fin l (deb d) (fin d) := joint_of_mem (hds.symm.subset (List.mem_cons_self ..))
      have hsl : s ⊆ l := List.Subset.trans (List.subset_cons_self d s) hds.symm.subset
      rcases (hj.mono hs.subset).of_cons with h | ⟨h₁, h₂⟩ | ⟨h₁, h₂⟩
      · exact hl d s hds h
      · exact he (((h₁.mono hsl).symm.trans _ _ _ hd).trans _ _ _ (h₂.mono hsl).symm)
      · exact he (((h₂.mono hsl).trans _ _ _ hd.symm).trans _ _ _ (h₁.mono hsl))

/-! ## Counting the components -/

variable {V : Finset ν}

theorem card_fusionne [DecidableEq β] {f : ν → β} {a b : ν} (ha : a ∈ V) (hb : b ∈ V) (h : f a ≠ f b) :
    (V.image (fusionne f a b)).card + 1 = (V.image f).card := by
  have himage : V.image (fusionne f a b) = (V.image f).erase (f b) := by
    ext z
    simp only [Finset.mem_image, Finset.mem_erase, fusionne]
    constructor
    · rintro ⟨x, hx, rfl⟩
      by_cases hxb : f x = f b
      · rw [if_pos hxb]
        exact ⟨h, a, ha, rfl⟩
      · rw [if_neg hxb]
        exact ⟨hxb, x, hx, rfl⟩
    · rintro ⟨hz, x, hx, rfl⟩
      exact ⟨x, hx, if_neg hz⟩
  rw [himage]
  exact Finset.card_erase_add_one (Finset.mem_image_of_mem f hb)

/-- two labellings of the same components have as many labels -/
theorem Etiquete.card_eq [DecidableEq ν] [DecidableEq β] {f : ν → ν} {g : ν → β} (hf : Etiquete deb fin f l)
    (hg : Etiquete deb fin g l) : (V.image f).card = (V.image g).card := by
  have hfg : ∀ x y, f x = f y ↔ g x = g y := fun x y => (hf x y).trans (hg x y).symm
  apply Finset.card_bij (fun z hz => g (Finset.mem_image.1 hz).choose)
  · intro z hz
    exact Finset.mem_image_of_mem g (Finset.mem_image.1 hz).choose_spec.1
  · intro z hz z' hz' h
    rw [← (Finset.mem_image.1 hz).choose_spec.2, ← (Finset.mem_image.1 hz').choose_spec.2, hfg, h]
  · intro z hz
    obtain ⟨x, hx, rfl⟩ := Finset.mem_image.1 hz
    have hmem := Finset.mem_image_of_mem f hx
    exact ⟨f x, hmem, ((hfg _ _).1 (Finset.mem_image.1 hmem).choose_spec.2)⟩

variable [DecidableEq β] {f : ν → β}

/-- an edge lowers the number of components by one at most, and does when it joins two of them -/
theorem card_le (hl : ∀ e ∈ l, deb e ∈ V ∧ fin e ∈ V) (hf : Etiquete deb fin f l) :
    V.card ≤ (V.image f).card + l.length ∧ (Foret deb fin l → (V.image f).card + l.length = V.card) := by
  classical
  suffices h : ∃ g : ν → ν, Etiquete deb fin g l ∧ V.card ≤ (V.image g).card + l.length ∧
      (Foret deb fin l → (V.image g).card + l.length = V.card) by
    obtain ⟨g, hg, h⟩ := h
    rwa [← hg.card_eq hf]
  clear hf
  induction l with
  | nil => exact ⟨id, etiquete_nil id Function.injective_id, by simp, by simp⟩
  | cons e l ih =>
    obtain ⟨g, hg, hle, heq⟩ := ih fun d hd => hl d (List.mem_cons_of_mem e hd)
    obtain ⟨hd, hf⟩ := hl e (List.mem_cons_self ..)
    refine ⟨Multigraphe.fusionne g (deb e) (fin e), hg.fusionne e, ?_⟩
    simp only [List.length_cons]
    by_cases h : g (deb e) = g (fin e)
    · have hsame : Multigraphe.fusionne g (deb e) (fin e) = g := by
        funext x
        unfold Multigraphe.fusionne
        split_ifs with hx
        · rw [hx, h]
        · rfl
      rw [hsame]
      exact ⟨by omega, fun hfor => absurd ((hg _ _).1 h) (foret_cons_iff.1 hfor).2⟩
    · have hcard := card_fusionne (V := V) hd hf h
      refine ⟨by omega, fun hfor => ?_⟩
      have := heq hfor.tail
      omega

theorem Foret.card (hl : ∀ e ∈ l, deb e ∈ V ∧ fin e ∈ V) (hfor : Foret deb fin l) (hf : Etiquete deb fin f l) :
    (V.image f).card + l.length = V.card :=
  (card_le hl hf).2 hfor

theorem card_eq_one_iff (hV : V.Nonempty) (hf : Etiquete deb fin f l) :
    (V.image f).card = 1 ↔ ∀ x ∈ V, ∀ y ∈ V, Joint deb fin l x y := by
  obtain ⟨a, ha⟩ := hV
  constructor
  · intro h x hx y hy
    have hle := Finset.card_le_one.1 h.le
    exact (hf x y).1 (hle _ (Finset.mem_image_of_mem f hx) _ (Finset.mem_image_of_mem f hy))
  · intro h
    have himage : V.image f = {f a} := by
      apply Finset.eq_singleton_iff_unique_mem.2
      refine ⟨Finset.mem_image_of_mem f ha, ?_⟩
      intro z hz
      obtain ⟨x, hx, rfl⟩ := Finset.mem_image.1 hz
      exact (hf x a).2 (h x hx a ha)
    rw [himage, Finset.card_singleton]

/-- a list that joins all the vertices has at least one edge less than vertices -/
theorem length_of_joints (hl : ∀ e ∈ l, deb e ∈ V ∧ fin e ∈ V) (hV : V.Nonempty)
    (h : ∀ x ∈ V, ∀ y ∈ V, Joint deb fin l x y) : V.card ≤ l.length + 1 := by
  classical
  obtain ⟨f, hf⟩ := exists_etiquete deb fin l
  have h₁ := (card_eq_one_iff hV hf).2 h
  have h₂ := (card_le hl hf).1
  omega

theorem Foret.joints_iff (hl : ∀ e ∈ l, deb e ∈ V ∧ fin e ∈ V) (hV : V.Nonempty) (hfor : Foret deb fin l) :
    (∀ x ∈ V, ∀ y ∈ V, Joint deb fin l x y) ↔ l.length + 1 = V.card := by
  classical
  obtain ⟨f, hf⟩ := exists_etiquete deb fin l
  have hcard := hfor.card hl hf
  rw [← card_eq_one_iff hV hf]
  omega

/-! ## Lists of neighbours -/

/-- the lists of the two ends of a new edge, each with one more element; twice in the list of a loop -/
theorem update_deux {μ α : Type*} [DecidableEq μ] (f : μ → List α) (x y : μ) (a b : α) :
    Function.update (Function.update f x (f x ++ [a])) y (Function.update f x (f x ++ [a]) y ++ [b]) =
      fun v => f v ++ ((if x = v then [a] else []) ++ if y = v then [b] else []) := by
  funext v
  by_cases hy : v = y <;> by_cases hx : v = x
  · subst hy
    simp [← hx]
  · subst hy
    simp [hx, Ne.symm hx]
  · subst hx
    simp [Function.update_of_ne hy, Ne.symm hy]
  · simp [Function.update_of_ne hy, Function.update_of_ne hx, Ne.symm hy, Ne.symm hx]

end Semestre6.Multigraphe
