/-
The two implementations of EnsembleEntiers that the configuration chooses from: a linked list (SousEnsemble_abstract)
and a growable array (EnsembleTableauEntiers). A call gives the state after it and the exception it throws, if any.

- `supprime_liste`: the list relinks past the first match, and throws when there is none (a NullPointerException
  unless the list is empty);
- `boucle_spec`, `balaye_perm_iff`: the loop of the array swaps a match with the last element, shrinks the bound and goes
  on, past the element it has just brought in; it takes out exactly one match when at most one stands before the
  last cell;
- `interchangeables_iff`: along a sequence of calls the two throw at the same deletions and hold the same multiset
  exactly when every deletion is of a value that the array holds at most once before its last cell, and every addition
  is made below 2^30 elements, where the capacity of the array can still double.
Witness that the condition is needed: `deux_fois_supprime`, a value held twice.
-/
import Mathlib.Tactic
import Semestre6.Lib.Transition

namespace Semestre6.Ensemble

open Transition

inductive JException where
  | exception (message : String)
  | nullPointer
  | negativeArraySize
deriving DecidableEq, Repr

/-! ## The linked list -/

namespace SousEnsemble

/-- the nodes from `tete` on -/
def ajoute (tete : List ℤ) (c : ℤ) : List ℤ × Option JException := (c :: tete, none)

/-- the loop on `suiv`, the nodes after the head, and the relinking past the first match; without one `suiv` ends null
and `suiv.elt` throws -/
def relie (c : ℤ) : List ℤ → Option (List ℤ)
  | [] => none
  | x :: suiv => if x ≠ c then (relie c suiv).map (x :: ·) else some suiv

def supprime : List ℤ → ℤ → List ℤ × Option JException
  | [], c => ([], some (.exception (toString c ++ " non trouvé")))
  | x :: suiv, c =>
    if x ≠ c then
      match relie c suiv with
      | some suiv' => (x :: suiv', none)
      | none => (x :: suiv, some .nullPointer)
    else (suiv, none)

theorem relie_eq (c : ℤ) (l : List ℤ) : relie c l = if c ∈ l then some (l.erase c) else none := by
  induction l with
  | nil => rfl
  | cons x l ih =>
    by_cases hx : x = c
    · simp [relie, hx]
    · unfold relie
      rw [if_pos hx, ih, List.erase_cons_tail (by simpa using hx)]
      by_cases hc : c ∈ l
      · simp [hc]
      · simp [hc, Ne.symm hx]

/-- the first match goes, and an exception says that there was none -/
theorem supprime_liste (l : List ℤ) (c : ℤ) :
    (supprime l c).1 = l.erase c ∧ ((supprime l c).2.isSome = true ↔ c ∉ l) := by
  cases l with
  | nil => simp [supprime]
  | cons x l =>
    by_cases hx : x = c
    · simp [supprime, hx]
    · by_cases hc : c ∈ l
      · simp [supprime, relie_eq, hx, hc, List.erase_cons_tail]
      · simp [supprime, relie_eq, hx, hc, Ne.symm hx, List.erase_of_not_mem]

end SousEnsemble

/-! ## The array -/

def swap2Elts (elements : List ℤ) (idx1 idx2 : ℕ) : List ℤ :=
  let tmp := elements.getD idx1 0
  (elements.set idx1 (elements.getD idx2 0)).set idx2 tmp

/-- the loop of `supprime` from index `i` on; both the bound and the array change on a match -/
def boucle (e : ℤ) (i nbElt : ℕ) (elements : List ℤ) (found : Bool) : List ℤ × ℕ × Bool :=
  if i < nbElt then
    if elements.getD i 0 = e then boucle e (i + 1) (nbElt - 1) (swap2Elts elements i (nbElt - 1)) true
    else boucle e (i + 1) nbElt elements found
  else (elements, nbElt, found)
termination_by nbElt - i

/-- what the loop leaves of the elements it has still to scan: a match is replaced by the last one, which is not
scanned -/
def balaye (e : ℤ) : List ℤ → List ℤ
  | [] => []
  | x :: r => if x = e then (if h : r = [] then [] else r.getLast h :: balaye e r.dropLast) else x :: balaye e r
termination_by l => l.length

/-- `g` is scanned, `d` is not, `z` is past the bound; the recursion follows the loop -/
theorem boucle_spec (e : ℤ) (g d z : List ℤ) (found : Bool) :
    ∃ z', boucle e g.length (g.length + d.length) (g ++ (d ++ z)) found =
        (g ++ (balaye e d ++ z'), g.length + (balaye e d).length, found || decide (e ∈ d)) ∧
      (balaye e d ++ z').length = (d ++ z).length := by
  match d with
  | [] => exact ⟨z, by unfold boucle; simp [balaye], by simp [balaye]⟩
  | x :: r =>
    have hi : g.length < g.length + (x :: r).length := by simp
    have hget : (g ++ (x :: r ++ z)).getD g.length 0 = x := by simp
    by_cases hx : x = e
    · subst hx
      by_cases hr : r = []
      · -- the last one: swapped with itself
        subst hr
        refine ⟨x :: z, ?_, by simp [balaye]⟩
        unfold boucle
        rw [if_pos hi, if_pos hget]
        unfold boucle
        simp [balaye, swap2Elts]
      · obtain ⟨s, y, rfl⟩ : ∃ s y, r = s ++ [y] := ⟨r.dropLast, r.getLast hr, (List.dropLast_append_getLast hr).symm⟩
        obtain ⟨z', hb, hl⟩ := boucle_spec x (g ++ [y]) s (x :: z) true
        have hn : g.length + (x :: (s ++ [y])).length - 1 = g.length + 1 + s.length := by simp; omega
        have hy : (g ++ (x :: (s ++ [y]) ++ z)).getD (g.length + 1 + s.length) 0 = y := by
          rw [List.getD_eq_getElem?_getD, List.getElem?_append_right (by omega)]
          simp [show g.length + 1 + s.length - g.length = s.length + 1 by omega]
        have hsw : swap2Elts (g ++ (x :: (s ++ [y]) ++ z)) g.length (g.length + 1 + s.length) =
            g ++ [y] ++ (s ++ x :: z) := by
          unfold swap2Elts
          rw [hy, hget, List.set_append_right _ _ le_rfl, List.set_append_right _ _ (by omega)]
          simp [show g.length + 1 + s.length - g.length = s.length + 1 by omega]
        refine ⟨z', ?_, ?_⟩
        · unfold boucle
          rw [if_pos hi, if_pos hget, hn, hsw]
          have hlen : (g ++ [y]).length = g.length + 1 := by simp
          rw [hlen] at hb
          rw [hb]
          simp [balaye]
          omega
        · simp [balaye] at hl ⊢
          omega
    · obtain ⟨z', hb, hl⟩ := boucle_spec e (g ++ [x]) r z found
      refine ⟨z', ?_, ?_⟩
      · unfold boucle
        rw [if_pos hi, if_neg (by rw [hget]; exact hx)]
        have hlen : (g ++ [x]).length = g.length + 1 := by simp
        have hn : g.length + (x :: r).length = g.length + 1 + r.length := by simp; omega
        have happ : g ++ (x :: r ++ z) = g ++ [x] ++ (r ++ z) := by simp
        rw [hlen] at hb
        rw [hn, happ, hb]
        simp [balaye, hx, Ne.symm hx]
        omega
      · simp [balaye, hx] at hl ⊢
        omega
termination_by d.length
decreasing_by all_goals simp_all

theorem balaye_absent {e : ℤ} {l : List ℤ} (h : e ∉ l) : balaye e l = l := by
  induction l with
  | nil => simp [balaye]
  | cons x l ih =>
    obtain ⟨hx, hl⟩ : x ≠ e ∧ e ∉ l := ⟨fun he => h (he ▸ List.mem_cons_self), fun hm => h (List.mem_cons_of_mem x hm)⟩
    unfold balaye
    rw [if_neg hx, ih hl]

theorem balaye_length_le (e : ℤ) (l : List ℤ) : (balaye e l).length ≤ l.length := by
  fun_induction balaye e l with
  | case1 => exact le_rfl
  | case2 => simp
  | case3 r hr ih =>
    rw [List.length_dropLast] at ih
    simp only [List.length_cons]
    have := List.length_pos_of_ne_nil hr
    omega
  | case4 x r hx ih => simpa using ih

/-- each match costs one element -/
theorem balaye_length_lt {e : ℤ} {l : List ℤ} (h : e ∈ l) : (balaye e l).length < l.length := by
  induction l with
  | nil => simp at h
  | cons x l ih =>
    unfold balaye
    by_cases hx : x = e
    · rw [if_pos hx]
      split_ifs with hl
      · simp
      · have hle := balaye_length_le e l.dropLast
        have hpos := List.length_pos_of_ne_nil hl
        rw [List.length_dropLast] at hle
        simp only [List.length_cons]
        omega
    · rw [if_neg hx]
      have hl : e ∈ l := by
        rcases List.mem_cons.1 h with he | hl
        · exact absurd he.symm hx
        · exact hl
      simpa using ih hl

/-- the loop takes out exactly one match when at most one stands before the last cell -/
theorem balaye_perm_iff {e : ℤ} {l : List ℤ} (h : e ∈ l) :
    (balaye e l).Perm (l.erase e) ↔ l.dropLast.count e ≤ 1 := by
  induction l with
  | nil => simp at h
  | cons x r ih =>
    by_cases hx : x = e
    · subst hx
      by_cases hr : r = []
      · subst hr
        simp [balaye]
      · have hlast : r.Perm (r.getLast hr :: r.dropLast) := by
          conv_lhs => rw [← List.dropLast_append_getLast hr]
          exact List.perm_append_singleton ..
        have hbal : balaye x (x :: r) = r.getLast hr :: balaye x r.dropLast := by
          conv_lhs => unfold balaye
          rw [if_pos rfl, dif_neg hr]
        have hmem : (balaye x r.dropLast).Perm r.dropLast ↔ x ∉ r.dropLast := by
          constructor
          · intro hp hm
            have hlt := balaye_length_lt hm
            rw [hp.length_eq] at hlt
            exact lt_irrefl _ hlt
          · intro hm
            rw [balaye_absent hm]
        calc (balaye x (x :: r)).Perm ((x :: r).erase x)
            ↔ (r.getLast hr :: balaye x r.dropLast).Perm (r.getLast hr :: r.dropLast) := by
              rw [hbal, List.erase_cons_head]
              exact ⟨fun h => h.trans hlast, fun h => h.trans hlast.symm⟩
          _ ↔ x ∉ r.dropLast := by rw [List.perm_cons, hmem]
          _ ↔ (x :: r).dropLast.count x ≤ 1 := by
              rw [List.dropLast_cons_of_ne_nil hr, List.count_cons_self, ← List.count_eq_zero]
              omega
    · have hr : e ∈ r := by
        rcases List.mem_cons.1 h with he | hr
        · exact absurd he.symm hx
        · exact hr
      have hbal : balaye e (x :: r) = x :: balaye e r := by
        conv_lhs => unfold balaye
        rw [if_neg hx]
      rw [hbal, List.erase_cons_tail (by simpa using hx), List.perm_cons, ih hr,
        List.dropLast_cons_of_ne_nil (List.ne_nil_of_mem hr), List.count_cons_of_ne hx]

/-- the capacity is a power of two that fits an int -/
structure EnsembleTableauEntiers where
  elements : List ℤ
  nbElt : ℕ
  borne : nbElt ≤ elements.length
  capacite : ∃ p ≤ 30, elements.length = 2 ^ p

namespace EnsembleTableauEntiers

def nouveau : EnsembleTableauEntiers := ⟨[0], 0, by simp, 0, by simp, rfl⟩

def contenu (t : EnsembleTableauEntiers) : List ℤ := t.elements.take t.nbElt

/-- the doubled array; a length of 2^31 does not fit an int and is negative -/
def growTab (elements : List ℤ) : Option (List ℤ) :=
  if elements.length * 2 < 2 ^ 31 then some (elements ++ List.replicate elements.length 0) else none

/-- the array in which `ajoute` writes -/
def place (t : EnsembleTableauEntiers) : Option (List ℤ) :=
  if t.nbElt = t.elements.length then growTab t.elements else some t.elements

theorem place_spec {t : EnsembleTableauEntiers} {l : List ℤ} (h : t.place = some l) :
    t.nbElt < l.length ∧ l.take t.nbElt = t.contenu ∧ ∃ p ≤ 30, l.length = 2 ^ p := by
  obtain ⟨p, hp, hl⟩ := t.capacite
  have hb := t.borne
  have hpos : 0 < 2 ^ p := by positivity
  unfold place growTab at h
  split_ifs at h with hn hg
  · cases h
    refine ⟨by simp; omega, ?_, p + 1, ?_, by simp [hl]; ring⟩
    · rw [contenu, hn, List.take_left']
      · simp
      · rfl
    · by_contra hp'
      obtain rfl : p = 30 := by omega
      omega
  · cases h
    exact ⟨by omega, rfl, p, hp, hl⟩

/-- below 2^30 elements there is room or the capacity can double -/
theorem place_isSome_iff (t : EnsembleTableauEntiers) : t.place.isSome = true ↔ t.nbElt < 2 ^ 30 := by
  obtain ⟨p, hp, hl⟩ := t.capacite
  have hb := t.borne
  have hle : 2 ^ p ≤ 2 ^ 30 := Nat.pow_le_pow_right (by decide) hp
  unfold place growTab
  split_ifs with hn hg
  · simp; omega
  · simp; omega
  · simp; omega

def ajoute (t : EnsembleTableauEntiers) (e : ℤ) : EnsembleTableauEntiers × Option JException :=
  match h : t.place with
  | some l =>
    (⟨l.set t.nbElt e, t.nbElt + 1, by simpa using (place_spec h).1, by simpa using (place_spec h).2.2⟩, none)
  | none => (t, some .negativeArraySize)

/-- the elements before the bound and those past it -/
theorem boucle_contenu (t : EnsembleTableauEntiers) (e : ℤ) :
    ∃ z', boucle e 0 t.nbElt t.elements false =
        (balaye e t.contenu ++ z', (balaye e t.contenu).length, decide (e ∈ t.contenu)) ∧
      (balaye e t.contenu ++ z').length = t.elements.length := by
  obtain ⟨z', hb, hl⟩ := boucle_spec e [] t.contenu (t.elements.drop t.nbElt) false
  have hn : t.contenu.length = t.nbElt := by simpa [contenu] using t.borne
  have he : t.contenu ++ t.elements.drop t.nbElt = t.elements := List.take_append_drop ..
  rw [he] at hb hl
  exact ⟨z', by simpa [hn] using hb, hl⟩

def supprime (t : EnsembleTableauEntiers) (e : ℤ) : EnsembleTableauEntiers × Option JException :=
  let r := boucle e 0 t.nbElt t.elements false
  (⟨r.1, r.2.1, by obtain ⟨z', hb, -⟩ := t.boucle_contenu e; simp [r, hb], by
    obtain ⟨z', hb, hl⟩ := t.boucle_contenu e; simpa [r, hb, hl] using t.capacite⟩,
    if r.2.2 then none else some (.exception (toString e ++ "not found.")))

theorem ajoute_spec (t : EnsembleTableauEntiers) (e : ℤ) :
    (t.nbElt < 2 ^ 30 ∧ (t.ajoute e).1.contenu = t.contenu ++ [e] ∧ (t.ajoute e).2 = none) ∨
      (¬t.nbElt < 2 ^ 30 ∧ t.ajoute e = (t, some .negativeArraySize)) := by
  rw [← place_isSome_iff]
  unfold ajoute
  split
  · rename_i l h
    obtain ⟨hlt, hc, -⟩ := place_spec h
    refine Or.inl ⟨by simp [h], ?_, rfl⟩
    rw [← hc, contenu, List.take_add_one, List.take_set_of_le le_rfl]
    simp [hlt]
  · rename_i h
    exact Or.inr ⟨by simp [h], rfl⟩

theorem supprime_spec (t : EnsembleTableauEntiers) (e : ℤ) :
    (t.supprime e).1.contenu = balaye e t.contenu ∧ ((t.supprime e).2.isSome = true ↔ e ∉ t.contenu) := by
  obtain ⟨z', hb, -⟩ := t.boucle_contenu e
  constructor
  · change (boucle e 0 t.nbElt t.elements false).1.take (boucle e 0 t.nbElt t.elements false).2.1 = _
    rw [hb, List.take_left']
    rfl
  · change (if (boucle e 0 t.nbElt t.elements false).2.2 = true then none else _ : Option JException).isSome = true ↔ _
    rw [hb]
    by_cases he : e ∈ t.contenu
    · simp [he]
    · simp [he]

end EnsembleTableauEntiers

/-! ## The same calls on both -/

inductive Appel where
  | ajoute (c : ℤ)
  | supprime (c : ℤ)
deriving DecidableEq, Repr

structure Couple where
  liste : List ℤ
  tableau : EnsembleTableauEntiers

namespace Couple

/-- both after a call, with the exceptions thrown -/
def appelle (s : Couple) : Appel → Couple × Option JException × Option JException
  | .ajoute c => (⟨(SousEnsemble.ajoute s.liste c).1, (s.tableau.ajoute c).1⟩,
      (SousEnsemble.ajoute s.liste c).2, (s.tableau.ajoute c).2)
  | .supprime c => (⟨(SousEnsemble.supprime s.liste c).1, (s.tableau.supprime c).1⟩,
      (SousEnsemble.supprime s.liste c).2, (s.tableau.supprime c).2)

def etape (s : Couple) (a : Appel) : Couple := (s.appelle a).1

/-- both hold the same multiset -/
def Egaux (s : Couple) : Prop := s.liste.Perm s.tableau.contenu

/-- a deletion throws in both or in neither, and both hold the same multiset afterwards -/
def Accord (s : Couple) (a : Appel) : Prop :=
  (∀ c, a = .supprime c → ((s.appelle a).2.1.isSome = true ↔ (s.appelle a).2.2.isSome = true)) ∧ (s.etape a).Egaux

/-- below 2^30 elements; at most one match before the last cell -/
def Permis (s : Couple) : Appel → Prop
  | .ajoute _ => s.tableau.nbElt < 2 ^ 30
  | .supprime c => s.tableau.contenu.dropLast.count c ≤ 1

theorem accord_iff {s : Couple} (h : s.Egaux) (a : Appel) : s.Accord a ↔ s.Permis a := by
  cases a with
  | ajoute c =>
    have hacc : s.Accord (.ajoute c) ↔ (c :: s.liste).Perm (s.tableau.ajoute c).1.contenu := by
      simp [Accord, Egaux, etape, appelle, SousEnsemble.ajoute]
    rw [hacc]
    obtain ⟨hn, hc, -⟩ | ⟨hn, hc⟩ := s.tableau.ajoute_spec c
    · refine ⟨fun _ => hn, fun _ => ?_⟩
      rw [hc]
      exact (h.cons c).trans (List.perm_append_singleton c _).symm
    · refine ⟨fun hp => ?_, fun hp => absurd hp hn⟩
      rw [hc] at hp
      have hlen := (hp.trans h.symm).length_eq
      simp at hlen
  | supprime c =>
    obtain ⟨hl, hlx⟩ := SousEnsemble.supprime_liste s.liste c
    obtain ⟨ht, htx⟩ := s.tableau.supprime_spec c
    have hmem : c ∈ s.liste ↔ c ∈ s.tableau.contenu := h.mem_iff
    have hacc : s.Accord (.supprime c) ↔ (s.liste.erase c).Perm (balaye c s.tableau.contenu) := by
      simp only [Accord, Egaux, etape, appelle, hl, ht, hlx, htx, hmem]
      simp
    rw [hacc, Permis]
    by_cases hc : c ∈ s.tableau.contenu
    · rw [← balaye_perm_iff hc]
      exact ⟨fun hp => hp.symm.trans (h.erase c), fun hp => (h.erase c).trans hp.symm⟩
    · have hdrop : c ∉ s.tableau.contenu.dropLast := fun hm => hc (List.mem_of_mem_dropLast hm)
      rw [balaye_absent hc, List.erase_of_not_mem (fun hm => hc (hmem.1 hm)), List.count_eq_zero_of_not_mem hdrop]
      exact ⟨fun _ => Nat.zero_le 1, fun _ => h⟩

def initial : Couple := ⟨[], .nouveau⟩

/-- **The two implementations.** Along every sequence of calls from empty, every deletion throws in both or in neither
and both hold the same multiset after every call, if and only if every deletion is of a value that the array holds at
most once before its last cell, and every addition is made below 2^30 elements. -/
theorem interchangeables_iff (appels : List Appel) :
    Always etape Accord initial appels ↔ Always etape Permis initial appels :=
  always_congr (fun _ _ _ hacc => hacc.2) (fun _ a h => accord_iff h a) initial appels (List.Perm.refl [])

/-- **A value held twice.** After two additions of 5 and one of 1, the deletion of 5 takes one 5 out of the list and both
out of the array. -/
theorem deux_fois_supprime : ¬Always etape Accord initial [.ajoute 5, .ajoute 5, .ajoute 1, .supprime 5] := by
  rintro ⟨-, -, h3, h4, -⟩
  have hp := (accord_iff h3.2 _).1 h4
  have hc : (etape (etape (etape initial (.ajoute 5)) (.ajoute 5)) (.ajoute 1)).tableau.contenu = [5, 5, 1] := by decide
  rw [Permis, hc] at hp
  exact absurd hp (by decide)

end Couple

end Semestre6.Ensemble
