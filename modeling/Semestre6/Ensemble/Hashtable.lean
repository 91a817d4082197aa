/-
Hashtable.java, the chained table of eleven chains, as the multiset of the objects it holds.

- `inserer_conforme`, `rechercher_conforme`: these two calls are those of a multiset;
- `coupe_eq`: past the head, supprimer stops on the first match and unlinks the node after it;
- `supprimer_conforme_iff`: it takes out one match, or nothing when there is none, exactly when the chain holds no
  match, begins with one, or has a second one right after the first;
- `multiensemble_iff`: along any sequence of calls the table is a multiset exactly when every deletion meets this.
Witness that the condition is needed: `ancien_conserve`, the older of two objects in one chain is not deleted.
-/
import Mathlib.Tactic
import Semestre6.Lib.Transition

namespace Semestre6.Hachage

open Transition

/-- the objects of the table: a hashCode that is not negative, and an equals that is an equivalence it respects -/
class JObject (α : Type) where
  hashCode : α → ℕ
  equals : α → α → Bool
  equals_refl : ∀ x, equals x x = true
  equals_symm : ∀ x y, equals x y = equals y x
  equals_trans : ∀ x y z, equals x y = true → equals y z = true → equals x z = true
  hashCode_eq : ∀ x y, equals x y = true → hashCode x = hashCode y

open JObject (hashCode equals hashCode_eq)

def taille : ℕ := 11

variable {α : Type} [JObject α]

variable (α) in
/-- the chain of each index, from its head -/
abbrev Table := Fin taille → List α

def index (input : α) : Fin taille := ⟨hashCode input % taille, Nat.mod_lt _ (by decide)⟩

variable (α) in
inductive Appel where
  | inserer (input : α)
  | rechercher (input : α)
  | supprimer (input : α)

/-! ## The calls -/

def vide : Table α := fun _ => []

def inserer (table : Table α) (input : α) : Table α :=
  Function.update table (index input) (input :: table (index input))

/-- the walk of `rechercher` from a node, null at the end of the chain -/
def parcourt (input : α) : List α → Bool
  | [] => false
  | valeur :: suivants => if equals input valeur then true else parcourt input suivants

def rechercher (table : Table α) (input : α) : Bool := parcourt input (table (index input))

/-- the while loop of `supprimer` from a node, and the unlinking after it; `none` when it stops on the last node -/
def coupe (input : α) : List α → Option (List α)
  | [] => none
  | [_] => none
  | valeur :: suivant :: suite =>
    if equals input valeur then some (valeur :: suite) else (coupe input (suivant :: suite)).map (valeur :: ·)

def nonTrouve : String := "Element non trouvé"

/-- what `supprimer` does to a chain, and what it prints -/
def supprimeChaine (input : α) : List α → List α × Option String
  | [] => ([], some nonTrouve)
  | valeur :: suivants =>
    if equals input valeur then (suivants, none)
    else
      match coupe input (valeur :: suivants) with
      | some chaine => (chaine, none)
      | none => (valeur :: suivants, some nonTrouve)

def supprimer (table : Table α) (input : α) : Table α × Option String :=
  let r := supprimeChaine input (table (index input))
  (Function.update table (index input) r.1, r.2)

def appelle (table : Table α) : Appel α → Table α
  | .inserer x => inserer table x
  | .rechercher _ => table
  | .supprimer x => (supprimer table x).1

/-! ## The multiset -/

/-- what the table holds -/
def contenu (table : Table α) : Multiset α := ∑ i, (table i : Multiset α)

/-- one call on a multiset: the content after it, and the answer of `rechercher` -/
def Conforme (table : Table α) : Appel α → Prop
  | .inserer x => contenu (inserer table x) = x ::ₘ contenu table
  | .rechercher x => rechercher table x = true ↔ ∃ y ∈ contenu table, equals x y = true
  | .supprimer x =>
    (∃ y, equals x y = true ∧ contenu table = y ::ₘ contenu (supprimer table x).1) ∨
      ((∀ y ∈ contenu table, equals x y = false) ∧ contenu (supprimer table x).1 = contenu table)

/-- the chain holds no match, begins with one, or has another one right after the first -/
def Supprimable (x : α) (chaine : List α) : Prop :=
  (∀ y ∈ chaine, equals x y = false) ∨ (∃ y suite, chaine = y :: suite ∧ equals x y = true) ∨
    ∃ avant y z suite, chaine = avant ++ y :: z :: suite ∧ (∀ w ∈ avant, equals x w = false) ∧ equals x y = true ∧
      equals x z = true

def Condition (table : Table α) : Appel α → Prop
  | .supprimer x => Supprimable x (table (index x))
  | _ => True

/-- every object is in the chain of its index -/
def Range (table : Table α) : Prop := ∀ i, ∀ y ∈ table i, index y = i

variable {table : Table α} {x : α} {chaine : List α}

omit [JObject α] in
theorem contenu_update (table : Table α) (i : Fin taille) (chaine : List α) :
    contenu (Function.update table i chaine) + (table i : Multiset α) = contenu table + (chaine : Multiset α) := by
  have hupdate : contenu (Function.update table i chaine) =
      (chaine : Multiset α) + ∑ j ∈ Finset.univ.erase i, (table j : Multiset α) := by
    rw [contenu, ← Finset.add_sum_erase _ _ (Finset.mem_univ i), Function.update_self]
    congr 1
    apply Finset.sum_congr rfl
    intro j hj
    rw [Function.update_of_ne (Finset.ne_of_mem_erase hj)]
  rw [hupdate, contenu, ← Finset.add_sum_erase _ (fun j => (table j : Multiset α)) (Finset.mem_univ i)]
  abel

omit [JObject α] in
theorem mem_contenu {y : α} : y ∈ contenu table ↔ ∃ i, y ∈ table i := by
  simp [contenu, Multiset.mem_sum]

/-- matches are in one chain -/
theorem exists_equals_iff (h : Range table) (x : α) :
    (∃ y ∈ contenu table, equals x y = true) ↔ ∃ y ∈ table (index x), equals x y = true := by
  apply Iff.intro
  · intro hy
    obtain ⟨y, hy, heq⟩ := hy
    obtain ⟨i, hi⟩ := mem_contenu.1 hy
    have hindex : index x = index y := by simp only [index, hashCode_eq x y heq]
    rw [hindex, h i y hi]
    exact ⟨y, hi, heq⟩
  · intro hy
    obtain ⟨y, hy, heq⟩ := hy
    exact ⟨y, mem_contenu.2 ⟨_, hy⟩, heq⟩

theorem inserer_conforme (table : Table α) (x : α) : Conforme table (.inserer x) := by
  have h := contenu_update table (index x) (x :: table (index x))
  rw [← Multiset.cons_coe, Multiset.add_cons, ← Multiset.cons_add] at h
  exact add_right_cancel h

theorem parcourt_iff : parcourt x chaine = true ↔ ∃ y ∈ chaine, equals x y = true := by
  induction chaine with
  | nil => simp [parcourt]
  | cons v l ih =>
    rw [parcourt]
    split_ifs with hv
    · simp [hv]
    · simp [ih, hv]

theorem rechercher_conforme (h : Range table) (x : α) : Conforme table (.rechercher x) :=
  parcourt_iff.trans (exists_equals_iff h x).symm

/-! ## Deletion -/

/-- a chain without a match, or the first match with what stands before and after it -/
theorem premier_cases (x : α) (chaine : List α) :
    (∀ y ∈ chaine, equals x y = false) ∨
      ∃ avant y suite, chaine = avant ++ y :: suite ∧ (∀ w ∈ avant, equals x w = false) ∧ equals x y = true := by
  cases h : chaine.find? (equals x) with
  | none => exact .inl (by simpa [List.find?_eq_none] using h)
  | some y =>
    obtain ⟨hy, avant, suite, hl, havant⟩ := List.find?_eq_some_iff_append.1 h
    exact .inr ⟨avant, y, suite, hl, by simpa using havant, hy⟩

/-- the first match is the same in all the ways to split the chain -/
theorem premier_unique {avant avant' suite suite' : List α} {y y' : α}
    (havant : ∀ w ∈ avant, equals x w = false) (hy : equals x y = true)
    (havant' : ∀ w ∈ avant', equals x w = false) (hy' : equals x y' = true)
    (h : avant ++ y :: suite = avant' ++ y' :: suite') : avant = avant' ∧ y = y' ∧ suite = suite' := by
  induction avant generalizing avant' with
  | nil =>
    cases avant' with
    | nil => exact ⟨rfl, List.cons.inj h⟩
    | cons w l =>
      rw [(List.cons.inj h).1, havant' w List.mem_cons_self] at hy
      exact absurd hy Bool.false_ne_true
  | cons v l ih =>
    cases avant' with
    | nil =>
      rw [← (List.cons.inj h).1, havant v List.mem_cons_self] at hy'
      exact absurd hy' Bool.false_ne_true
    | cons w l' =>
      rw [List.forall_mem_cons] at havant havant'
      obtain ⟨hv, hl⟩ := List.cons.inj h
      obtain ⟨hl, hs⟩ := ih havant.2 havant'.2 hl
      exact ⟨by rw [hv, hl], hs⟩

theorem coupe_absent (h : ∀ y ∈ chaine, equals x y = false) : coupe x chaine = none := by
  induction chaine with
  | nil => rfl
  | cons v l ih =>
    rw [List.forall_mem_cons] at h
    match l with
    | [] => rfl
    | w :: r => rw [coupe, h.1, if_neg Bool.false_ne_true, ih h.2, Option.map_none]

/-- **The node after the first match** is the one that goes. -/
theorem coupe_eq {avant suite : List α} {y : α} (havant : ∀ w ∈ avant, equals x w = false) (hy : equals x y = true) :
    coupe x (avant ++ y :: suite) = if suite = [] then none else some (avant ++ y :: suite.tail) := by
  induction avant with
  | nil =>
    match suite with
    | [] => rfl
    | z :: r => rw [List.nil_append, coupe, if_pos hy, if_neg (List.cons_ne_nil z r)]; rfl
  | cons v l ih =>
    rw [List.forall_mem_cons] at havant
    obtain ⟨w, r, hr⟩ : ∃ w r, l ++ y :: suite = w :: r := by
      cases l with
      | nil => exact ⟨y, suite, rfl⟩
      | cons w l => exact ⟨w, l ++ y :: suite, rfl⟩
    have ih := ih havant.2
    rw [List.cons_append, hr, coupe, havant.1, if_neg Bool.false_ne_true, ← hr, ih]
    split_ifs <;> rfl

theorem supprimeChaine_absent (h : ∀ y ∈ chaine, equals x y = false) :
    supprimeChaine x chaine = (chaine, some nonTrouve) := by
  cases chaine with
  | nil => rfl
  | cons v l => rw [supprimeChaine, h v List.mem_cons_self, if_neg Bool.false_ne_true, coupe_absent h]

theorem supprimeChaine_tete {y : α} {suite : List α} (hy : equals x y = true) :
    supprimeChaine x (y :: suite) = (suite, none) := if_pos hy

/-- past the head, the chain loses what follows the first match, if anything does -/
theorem supprimeChaine_suite {avant suite : List α} {y : α} (hne : avant ≠ [])
    (havant : ∀ w ∈ avant, equals x w = false) (hy : equals x y = true) :
    (supprimeChaine x (avant ++ y :: suite)).1 = avant ++ y :: suite.tail := by
  obtain ⟨v, l, rfl⟩ := List.exists_cons_of_ne_nil hne
  have hcoupe : coupe x (v :: l ++ y :: suite) = if suite = [] then none else some (v :: l ++ y :: suite.tail) :=
    coupe_eq havant hy
  rw [List.cons_append] at hcoupe ⊢
  rw [supprimeChaine, havant v List.mem_cons_self, if_neg Bool.false_ne_true, hcoupe]
  by_cases hs : suite = []
  · rw [if_pos hs, hs]; rfl
  · rw [if_neg hs]

/-- a deletion takes one object out of the content exactly when it takes it out of the chain -/
theorem contenu_supprimer_cons {y : α} :
    contenu table = y ::ₘ contenu (supprimer table x).1 ↔
      (table (index x) : Multiset α) = y ::ₘ ((supprimeChaine x (table (index x))).1 : Multiset α) := by
  have h := contenu_update table (index x) (supprimeChaine x (table (index x))).1
  have hs : contenu (supprimer table x).1 =
    contenu (Function.update table (index x) (supprimeChaine x (table (index x))).1) := rfl
  rw [hs]
  apply Iff.intro
  · intro hc
    rw [hc, Multiset.cons_add, ← Multiset.add_cons] at h
    exact add_left_cancel h
  · intro hc
    rw [hc, Multiset.add_cons, ← Multiset.cons_add] at h
    exact (add_right_cancel h).symm

theorem contenu_supprimer_eq :
    contenu (supprimer table x).1 = contenu table ↔
      ((supprimeChaine x (table (index x))).1 : Multiset α) = (table (index x) : Multiset α) := by
  have h := contenu_update table (index x) (supprimeChaine x (table (index x))).1
  have hs : contenu (supprimer table x).1 =
    contenu (Function.update table (index x) (supprimeChaine x (table (index x))).1) := rfl
  rw [hs]
  apply Iff.intro
  · intro hc
    rw [hc] at h
    exact (add_left_cancel h).symm
  · intro hc
    rw [hc] at h
    exact add_right_cancel h

/-- the same call on the chain alone -/
def ConformeChaine (x : α) (chaine : List α) : Prop :=
  (∃ y, equals x y = true ∧ (chaine : Multiset α) = y ::ₘ ((supprimeChaine x chaine).1 : Multiset α)) ∨
    ((∀ y ∈ chaine, equals x y = false) ∧ ((supprimeChaine x chaine).1 : Multiset α) = (chaine : Multiset α))

theorem supprimer_conforme_chaine (h : Range table) (x : α) :
    Conforme table (.supprimer x) ↔ ConformeChaine x (table (index x)) := by
  have habsent : (∀ y ∈ contenu table, equals x y = false) ↔ ∀ y ∈ table (index x), equals x y = false := by
    have h := not_congr (exists_equals_iff h x)
    push Not at h
    simpa using h
  unfold Conforme ConformeChaine
  simp only [contenu_supprimer_cons, contenu_supprimer_eq, habsent]

theorem conformeChaine_iff (x : α) (chaine : List α) : ConformeChaine x chaine ↔ Supprimable x chaine := by
  obtain habsent | ⟨avant, y, suite, rfl, havant, hy⟩ := premier_cases x chaine
  · exact iff_of_true (.inr ⟨habsent, by rw [supprimeChaine_absent habsent]⟩) (.inl habsent)
  · by_cases hne : avant = []
    · subst hne
      rw [List.nil_append]
      refine iff_of_true (.inl ⟨y, hy, ?_⟩) (.inr (.inl ⟨y, suite, rfl, hy⟩))
      rw [supprimeChaine_tete hy]
      rfl
    · have hpresent : ¬ ∀ w ∈ avant ++ y :: suite, equals x w = false := by
        intro h
        rw [h y (by simp)] at hy
        exact Bool.false_ne_true hy
      have htete : ¬ ∃ w r, avant ++ y :: suite = w :: r ∧ equals x w = true := by
        intro h
        obtain ⟨w, r, hl, hw⟩ := h
        obtain ⟨v, l, rfl⟩ := List.exists_cons_of_ne_nil hne
        rw [List.cons_append, List.cons.injEq] at hl
        rw [← hl.1, havant v List.mem_cons_self] at hw
        exact Bool.false_ne_true hw
      unfold ConformeChaine Supprimable
      rw [supprimeChaine_suite hne havant hy, or_iff_left (fun h => hpresent h.1), or_iff_right hpresent,
        or_iff_right htete]
      match suite with
      | [] =>
        -- the first match is the last node: nothing goes
        apply iff_of_false
        · intro h
          obtain ⟨w, -, hw⟩ := h
          have hcard := congrArg Multiset.card hw
          simp at hcard
        · intro h
          obtain ⟨avant', y', z, suite', hl, havant', hy', -⟩ := h
          exact List.cons_ne_nil z suite' (premier_unique havant hy havant' hy' hl).2.2.symm
      | z :: suite =>
        have hz : ((avant ++ y :: z :: suite : List α) : Multiset α) =
            z ::ₘ ((avant ++ y :: suite : List α) : Multiset α) :=
          Multiset.coe_eq_coe.2 ((List.Perm.swap z y suite).append_left avant |>.trans List.perm_middle)
        rw [List.tail_cons, hz]
        apply Iff.intro
        · intro h
          obtain ⟨w, hw, heq⟩ := h
          rw [← (Multiset.cons_inj_left _).1 heq] at hw
          exact ⟨avant, y, z, suite, rfl, havant, hy, hw⟩
        · intro h
          obtain ⟨avant', y', z', suite', hl, havant', hy', hz'⟩ := h
          have hsuite := (premier_unique havant hy havant' hy' hl).2.2
          rw [← (List.cons.inj hsuite).1] at hz'
          exact ⟨z, hz', rfl⟩

/-- **One deletion.** -/
theorem supprimer_conforme_iff (h : Range table) (x : α) :
    Conforme table (.supprimer x) ↔ Supprimable x (table (index x)) :=
  (supprimer_conforme_chaine h x).trans (conformeChaine_iff x _)

/-! ## Sequences of calls -/

theorem mem_supprimeChaine {y : α} (h : y ∈ (supprimeChaine x chaine).1) : y ∈ chaine := by
  obtain habsent | ⟨avant, v, suite, rfl, havant, hv⟩ := premier_cases x chaine
  · rwa [supprimeChaine_absent habsent] at h
  · by_cases hne : avant = []
    · subst hne
      rw [List.nil_append, supprimeChaine_tete hv] at h
      exact List.mem_cons_of_mem v h
    · rw [supprimeChaine_suite hne havant hv] at h
      have hsub : (avant ++ v :: suite.tail).Sublist (avant ++ v :: suite) :=
        ((List.tail_sublist suite).cons_cons v).append_left avant
      exact hsub.subset h

theorem appelle_range (h : Range table) (a : Appel α) : Range (appelle table a) := by
  have hupdate : ∀ (x : α) (chaine : List α), (∀ y ∈ chaine, index y = index x) →
      Range (Function.update table (index x) chaine) := by
    intro x chaine hc i y hy
    by_cases hi : i = index x
    · subst hi
      rw [Function.update_self] at hy
      exact hc y hy
    · rw [Function.update_of_ne hi] at hy
      exact h i y hy
  cases a with
  | inserer x => exact hupdate x _ (List.forall_mem_cons.2 ⟨rfl, h (index x)⟩)
  | rechercher x => exact h
  | supprimer x => exact hupdate x _ fun y hy => h (index x) y (mem_supprimeChaine hy)

theorem vide_range : Range (vide : Table α) := by
  intro i y hy
  cases hy

theorem conforme_iff (h : Range table) (a : Appel α) : Conforme table a ↔ Condition table a := by
  cases a with
  | inserer x => exact iff_of_true (inserer_conforme table x) trivial
  | rechercher x => exact iff_of_true (rechercher_conforme h x) trivial
  | supprimer x => exact supprimer_conforme_iff h x

/-- **A multiset.** Along any sequence of calls on a new table, every call is that of a multiset exactly when every
deletion finds no match in the chain of its object, a match at its head, or two of them where the first stands. -/
theorem multiensemble_iff (appels : List (Appel α)) :
    Always appelle Conforme (vide : Table α) appels ↔ Always appelle Condition (vide : Table α) appels :=
  always_congr (fun _ a h _ => appelle_range h a) (fun _ a h => conforme_iff h a) vide appels vide_range

/-- a non-negative Integer -/
instance : JObject ℕ where
  hashCode x := x
  equals x y := x == y
  equals_refl := by simp
  equals_symm x y := Bool.beq_comm
  equals_trans := by simp
  hashCode_eq := by simp

/-- **The older of two in one chain.** 0 and 11 are in the first chain; the deletion of 0 finds it last and unlinks
nothing. -/
theorem ancien_conserve : ¬ ∀ (α : Type) [JObject α] (appels : List (Appel α)),
    Always appelle Conforme (vide : Table α) appels := by
  intro h
  have hconforme := (h ℕ [.inserer 0, .inserer 11, .supprimer 0]).2.2.1
  have hrange := appelle_range (appelle_range vide_range (.inserer (0 : ℕ))) (.inserer 11)
  have hcond : Supprimable (0 : ℕ) [11, 0] := (conforme_iff hrange _).1 hconforme
  obtain h | ⟨y, suite, hl, hy⟩ | ⟨avant, y, z, suite, hl, -, hy, -⟩ := hcond
  · exact absurd (h 0 (by simp)) (by decide)
  · rw [← (List.cons.inj hl).1] at hy
    exact absurd hy (by decide)
  · cases avant with
    | nil =>
      rw [← (List.cons.inj hl).1] at hy
      exact absurd hy (by decide)
    | cons v l =>
      have hlen := congrArg List.length hl
      simp at hlen
      omega

end Semestre6.Hachage
