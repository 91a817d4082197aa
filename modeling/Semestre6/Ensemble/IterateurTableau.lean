/-
IterateurEnsembleTableau.java: a cursor on an array set, with a deletion of the last element it gave.

A traversal calls `supprime` or not after each `prochain`, as `choix` says for its turn.

- `supprime_debut`, `supprime_deux_fois`: the deletions that throw;
- `retire_perm`: a deletion takes out the element last given, and brings the last one to its place;
- `parcours_finit`: a traversal ends, and what it leaves in the set is what `supprime` was not called for;
- `parcours_fidele_iff`: it gives every element once exactly when nothing is deleted before the last one: the element
  that a deletion brings behind the cursor is never given.
Witness that the condition is needed: `dernier_saute`.
-/
import Mathlib.Data.List.GetD
import Semestre6.Lib.Boucle

namespace Semestre6.Ensemble.IterateurTableau

open Boucle

inductive JException where
  | exception
deriving DecidableEq, Repr

/-- `EnsembleTableauEntiers`; `none` is null -/
structure EnsembleTableau (T : Type) where
  contenu : List (Option T)
  taille : ℕ
  borne : taille ≤ contenu.length

/-- `dernier` is none for -1; it points into the set, since a deletion forgets it -/
structure Iterateur (T : Type) where
  e : EnsembleTableau T
  position : ℕ
  dernier : Option ℕ
  lu : ∀ d ∈ dernier, d < e.taille

variable {T : Type}

def EnsembleTableau.elements (e : EnsembleTableau T) : List (Option T) := e.contenu.take e.taille

/-- the assignments of a deletion at index `i`: the last element comes in its place -/
def EnsembleTableau.retire (e : EnsembleTableau T) (i : ℕ) : EnsembleTableau T where
  contenu := (e.contenu.set i (e.contenu.getD (e.taille - 1) none)).set (e.taille - 1) none
  taille := e.taille - 1
  borne := by
    rw [List.length_set, List.length_set]
    exact (Nat.sub_le _ 1).trans e.borne

def EnsembleTableau.iterateur (e : EnsembleTableau T) : Iterateur T := ⟨e, 0, none, by simp⟩

namespace Iterateur

def aProchain (it : Iterateur T) : Bool := it.position < it.e.taille

def prochain (it : Iterateur T) : Except JException (Option T × Iterateur T) :=
  if h : it.position < it.e.taille then
    .ok (it.e.contenu.getD it.position none,
      { it with position := it.position + 1, dernier := some it.position, lu := by simpa using h })
  else .error .exception

/-- the iterator after the call, and the exception if it throws -/
def supprime (it : Iterateur T) : Iterateur T × Option JException :=
  match it.dernier with
  | some dernier => ({ it with e := it.e.retire dernier, dernier := none, lu := by simp }, none)
  | none => (it, some .exception)

end Iterateur

/-! ## A traversal -/

/-- the iterator, the elements given and those deleted, in order -/
structure Etat (T : Type) where
  it : Iterateur T
  vus : List (Option T)
  retires : List (Option T)

def debut (e : EnsembleTableau T) : Etat T := ⟨e.iterateur, [], []⟩

/-- one turn; the number of turns is that of the elements given -/
def tour (choix : ℕ → Bool) (s : Etat T) : Except JException (Etat T) := do
  let (x, it) ← s.it.prochain
  if choix s.vus.length then
    match it.supprime with
    | (it', none) => .ok ⟨it', s.vus ++ [x], s.retires ++ [x]⟩
    | (_, some ex) => .error ex
  else .ok ⟨it, s.vus ++ [x], s.retires⟩

/-- the loop `while (it.aProchain())`, to its end -/
def Parcours (choix : ℕ → Bool) (e : EnsembleTableau T) (s : Etat T) : Prop :=
  Finit (fun s => s.it.aProchain) (tour choix) (debut e) s

variable {e : EnsembleTableau T} {it it' : Iterateur T} {s s' : Etat T} {choix : ℕ → Bool} {i : ℕ}

/-- before any `prochain` -/
theorem supprime_debut (e : EnsembleTableau T) : e.iterateur.supprime = (e.iterateur, some .exception) := rfl

theorem supprime_deux_fois (h : it.supprime = (it', none)) : it'.supprime = (it', some .exception) := by
  unfold Iterateur.supprime at h
  split at h
  · obtain rfl := (Prod.mk.inj h).1
    rfl
  · cases (Prod.mk.inj h).2

theorem perm_set (l : List (Option T)) (y : Option T) (hi : i < l.length) :
    (l.set i y ++ [l.getD i none]).Perm (l ++ [y]) := by
  have hl : l = l.take i ++ l.getD i none :: l.drop (i + 1) := by
    rw [List.getD_eq_getElem l none hi, List.getElem_cons_drop, List.take_append_drop]
  have hset : l.set i y = l.take i ++ y :: l.drop (i + 1) := by
    rw [List.set_eq_take_append_cons_drop, if_pos hi]
  have hswap : (y :: l.drop (i + 1) ++ [l.getD i none]).Perm (l.getD i none :: l.drop (i + 1) ++ [y]) :=
    List.perm_append_comm.trans ((List.perm_append_singleton y _).symm.cons _)
  rw [hset, List.append_assoc]
  conv_rhs => rw [hl, List.append_assoc]
  exact hswap.append_left _

/-- the element at `i` goes out, and the others stay -/
theorem retire_perm (hi : i < e.taille) : ((e.retire i).elements ++ [e.contenu.getD i none]).Perm e.elements := by
  obtain ⟨n, hn⟩ : ∃ n, e.taille = n + 1 := ⟨e.taille - 1, by omega⟩
  have hborne := e.borne
  have hfin : e.elements = e.contenu.take n ++ [e.contenu.getD n none] := by
    rw [EnsembleTableau.elements, hn, List.take_add_one, List.getElem?_eq_getElem (by omega),
      List.getD_eq_getElem _ none (by omega)]
    rfl
  have hretire : (e.retire i).elements = (e.contenu.take n).set i (e.contenu.getD n none) := by
    change ((e.contenu.set i (e.contenu.getD (e.taille - 1) none)).set (e.taille - 1) none).take (e.taille - 1) = _
    rw [hn, Nat.add_sub_cancel, List.take_set_of_le le_rfl, List.take_set]
  rw [hfin, hretire]
  by_cases hin : i = n
  · subst hin
    rw [List.set_eq_of_length_le (by simp)]
  · have hlt : i < (e.contenu.take n).length := by
      rw [List.length_take]
      omega
    have hget : (e.contenu.take n).getD i none = e.contenu.getD i none := by
      rw [List.getD_eq_getElem _ none hlt, List.getD_eq_getElem _ none (by omega), List.getElem_take]
    rw [← hget]
    exact perm_set _ _ hlt

/-- what one turn does -/
theorem tour_cases (choix : ℕ → Bool) (h : s.it.aProchain = true) : ∃ s', tour choix s = .ok s' ∧
    s'.it.position = s.it.position + 1 ∧ s'.vus = s.vus ++ [s.it.e.contenu.getD s.it.position none] ∧
    ((choix s.vus.length = true ∧ s'.it.e = s.it.e.retire s.it.position ∧
        s'.retires = s.retires ++ [s.it.e.contenu.getD s.it.position none]) ∨
      (choix s.vus.length = false ∧ s'.it.e = s.it.e ∧ s'.retires = s.retires)) := by
  have hlt : s.it.position < s.it.e.taille := by simpa [Iterateur.aProchain] using h
  unfold tour Iterateur.prochain
  rw [dif_pos hlt]
  by_cases hc : choix s.vus.length = true
  · refine ⟨_, if_pos hc, rfl, rfl, .inl ⟨hc, rfl, rfl⟩⟩
  · refine ⟨_, if_neg hc, rfl, rfl, .inr ⟨by simpa using hc, rfl, rfl⟩⟩

/-- what holds of every traversal: the elements left and those deleted are those of the set at the start, and a
deletion before the last element leaves less turns than elements -/
structure Compte (choix : ℕ → Bool) (e : EnsembleTableau T) (s : Etat T) : Prop where
  perm : (s.it.e.elements ++ s.retires).Perm e.elements
  vus : s.vus.length = s.it.position
  taille : s.it.e.taille ≤ e.taille
  position : s.it.position ≤ e.taille
  saut : ∀ i < s.it.position, i + 1 < e.taille → choix i = true → s.it.position < e.taille ∧ s.it.e.taille < e.taille

theorem Compte.debut (choix : ℕ → Bool) (e : EnsembleTableau T) : Compte choix e (debut e) where
  perm := by
    rw [IterateurTableau.debut, List.append_nil]
    exact List.Perm.refl _
  vus := rfl
  taille := le_rfl
  position := Nat.zero_le _
  saut := by
    intro i hi
    exact absurd hi (Nat.not_lt_zero i)

theorem Compte.tour (h : Compte choix e s) (hc : s.it.aProchain = true) :
    ∃ s', tour choix s = .ok s' ∧ Compte choix e s' ∧
      s'.it.e.taille - s'.it.position < s.it.e.taille - s.it.position := by
  have hlt : s.it.position < s.it.e.taille := by simpa [Iterateur.aProchain] using hc
  have htaille := h.taille
  obtain ⟨s', hs, hpos, hvus, hcas⟩ := tour_cases choix hc
  refine ⟨s', hs, ?_⟩
  have hlen : s'.vus.length = s'.it.position := by rw [hvus, hpos, List.length_append, h.vus]; rfl
  rcases hcas with ⟨hch, he, hret⟩ | ⟨hch, he, hret⟩
  · have hn : s'.it.e.taille = s.it.e.taille - 1 := by rw [he]; rfl
    refine ⟨⟨?_, hlen, by omega, by omega, ?_⟩, by omega⟩
    · rw [he, hret]
      have hretire := (retire_perm hlt).append_right s.retires
      rw [List.append_assoc] at hretire
      exact ((List.perm_append_comm.append_left _).trans hretire).trans h.perm
    · intro i hi hie hchi
      by_cases hip : i < s.it.position
      · have := h.saut i hip hie hchi
        omega
      · omega
  · refine ⟨⟨by rw [he, hret]; exact h.perm, hlen, by rw [he]; exact htaille, by omega, ?_⟩, by rw [he]; omega⟩
    intro i hi hie hchi
    rw [he]
    by_cases hip : i < s.it.position
    · have := h.saut i hip hie hchi
      omega
    · -- the turn itself does not delete
      have heq : i = s.vus.length := by rw [h.vus]; omega
      rw [heq, hch] at hchi
      cases hchi

theorem parcours_finit (choix : ℕ → Bool) (e : EnsembleTableau T) :
    ∃ s, Parcours choix e s ∧ Compte choix e s :=
  finit_of_mesure (Compte choix e) (fun s => s.it.e.taille - s.it.position) (fun _ h hc => h.tour hc)
    (Compte.debut choix e)

theorem Compte.of_parcours (h : Parcours choix e s) : Compte choix e s := by
  obtain ⟨k, hk, -⟩ := h
  refine tours_inv_of_ok (Compte choix e) ?_ (Compte.debut choix e) hk
  intro s s' hs hc hs'
  obtain ⟨s'', hs'', hcompte, -⟩ := hs.tour hc
  rw [hs''] at hs'
  exact Except.ok.inj hs' ▸ hcompte

/-- while nothing is deleted before the last element, the set is as at the start -/
structure Intact (e : EnsembleTableau T) (s : Etat T) : Prop where
  position : s.it.position ≤ e.taille
  taille : s.it.e.taille ≤ e.taille
  vus : s.vus = e.contenu.take s.it.position
  ensemble : s.it.position < e.taille → s.it.e = e

theorem Intact.tour (hchoix : ∀ i, i + 1 < e.taille → choix i = false) (h : Intact e s) (hc : s.it.aProchain = true)
    (hs : tour choix s = .ok s') : Intact e s' := by
  have hlt : s.it.position < s.it.e.taille := by simpa [Iterateur.aProchain] using hc
  have hborne := e.borne
  have htaille := h.taille
  have he := h.ensemble (by omega)
  obtain ⟨s'', hs'', hpos, hvus, hcas⟩ := tour_cases choix hc
  rw [hs''] at hs
  obtain rfl := Except.ok.inj hs
  have hlen : s.vus.length = s.it.position := by
    rw [h.vus, List.length_take]
    omega
  have hvus' : s''.vus = e.contenu.take s''.it.position := by
    rw [hvus, hpos, h.vus, he, List.take_add_one, List.getElem?_eq_getElem (by omega),
      List.getD_eq_getElem _ none (by omega)]
    rfl
  rcases hcas with ⟨hch, he', -⟩ | ⟨-, he', -⟩
  · have hfin : ¬ s.it.position + 1 < e.taille := by
      intro h
      rw [hlen, hchoix _ h] at hch
      cases hch
    exact ⟨by omega, by rw [he', he]; exact Nat.sub_le _ 1, hvus', fun h => absurd h (by omega)⟩
  · exact ⟨by omega, by rw [he']; exact htaille, hvus', fun _ => he'.trans he⟩

/-- the laws of the iterator, for the choices of a traversal: every element once, what was not deleted left in the set,
and the deletions that throw leave everything as it is -/
structure Fidele (choix : ℕ → Bool) (e : EnsembleTableau T) : Prop where
  parcours : ∃ s, Parcours choix e s ∧ s.vus.Perm e.elements ∧ (s.it.e.elements ++ s.retires).Perm e.elements
  debut : e.iterateur.supprime = (e.iterateur, some .exception)
  deux_fois : ∀ it it' : Iterateur T, it.supprime = (it', none) → it'.supprime = (it', some .exception)

/-- a faithful traversal meets every position, so that nothing moved behind the cursor -/
theorem Fidele.sans_saut {choix : ℕ → Bool} {e : EnsembleTableau T} (h : Fidele choix e) :
    ∀ i, i + 1 < e.taille → choix i = false := by
  intro i hi
  obtain ⟨s, hs, hvus, -⟩ := h.parcours
  have hcompte := Compte.of_parcours hs
  have hlen : s.it.position = e.taille := by
    have hborne := e.borne
    rw [← hcompte.vus, hvus.length_eq, EnsembleTableau.elements, List.length_take]
    omega
  by_contra hc
  have hsaut := hcompte.saut i (by omega) hi (by simpa using hc)
  omega

/-- **When a traversal is faithful**: exactly when `supprime` is called for the last element at most. -/
theorem parcours_fidele_iff (choix : ℕ → Bool) (e : EnsembleTableau T) :
    Fidele choix e ↔ ∀ i, i + 1 < e.taille → choix i = false := by
  apply Iff.intro
  · exact Fidele.sans_saut
  · intro hchoix
    obtain ⟨s, hs, hcompte⟩ := parcours_finit choix e
    refine ⟨⟨s, hs, ?_, hcompte.perm⟩, supprime_debut e, fun it it' => supprime_deux_fois⟩
    obtain ⟨k, hk, hfin⟩ := hs
    have hdebut : Intact e (debut e) := ⟨Nat.zero_le _, le_rfl, rfl, fun _ => rfl⟩
    have hintact := tours_inv_of_ok (Intact e) (fun _ _ h hc hs => h.tour hchoix hc hs) hdebut hk
    have hpos : s.it.position = e.taille := by
      by_contra hne
      have hlt : s.it.position < e.taille := lt_of_le_of_ne hintact.position hne
      have hend : ¬ s.it.position < s.it.e.taille := by simpa [Iterateur.aProchain] using hfin
      rw [hintact.ensemble hlt] at hend
      exact hend hlt
    rw [hintact.vus, hpos]
    exact List.Perm.refl _

/-- three elements -/
def trois : EnsembleTableau ℕ := ⟨[some 0, some 1, some 2, none], 3, by decide⟩

/-- **A skipped element**: 2 takes the place of 0, behind the cursor, and is never given. -/
theorem dernier_saute : ¬ Fidele (fun i => i == 0) trois := by
  intro h
  exact absurd (h.sans_saut 0 (by decide)) (by decide)

end Semestre6.Ensemble.IterateurTableau
