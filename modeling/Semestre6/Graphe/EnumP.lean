/-
EnumP.java: the enumeration of the matchings of a graph, one vertex after the other, on a single array. The two
alternatives of choix are both run before it, and `couplage_bis` is the array `couplage` itself.

- `enum_contenu`: whatever the calls find, they leave in the array the last arc of every vertex from theirs on;
- `enum_couplage_iff`: a call returns the array exactly when some choice of arcs from its vertex on is a matching;
- `estCouplage_iff`: the test of the code is that every vertex is covered exactly once;
- `enum_correct_iff`: the call from the first vertex returns a perfect matching when there is one, and else the empty
  one, exactly when the last arcs of the vertices go to different vertices, or there is no perfect matching.
Witness that the condition is needed: `dernier_arc`, a matching found first and overwritten by the later branch.
-/
import Semestre6.Lib.Incidence

namespace Semestre6.Graphe.EnumP

open Multigraphe

structure Arc where
  numero : ℕ
  source : ℕ
  destination : ℕ
deriving DecidableEq, Repr

/-- an array of `Maillon` chains, read below its length only -/
abbrev Tableau := ℕ → List Arc

def couplageVide : Tableau := fun _ => []

def ajouteArc (numSommet : ℕ) (arc : Arc) (graphe : Tableau) : Tableau := Function.update graphe numSommet [arc]

/-! ## The tests -/

def nombreArcs (n : ℕ) (g : Tableau) : ℕ := ∑ i ∈ Finset.range n, (g i).length

/-- `degre_sommet[v]` after the loops of `degre`: the arcs that leave v and those that enter it -/
def degreSommet (n : ℕ) (g : Tableau) (v : ℕ) : ℕ :=
  (g v).length + ∑ i ∈ Finset.range n, (g i).countP fun a => a.destination = v

def degre (n : ℕ) (g : Tableau) : ℕ :=
  (List.range n).foldl (fun resultat i => if degreSommet n g i > resultat then degreSommet n g i else resultat) 0

def arcsIndependants (n : ℕ) (g : Tableau) : Bool := degre n g ≤ 1

def estCouplage (n : ℕ) (g : Tableau) : Bool := arcsIndependants n g && n == 2 * nombreArcs n g

/-! ## The enumeration -/

/-- what a call returns: the graph's array, the array `couplage` of the calls, or a new empty array -/
inductive Reference where
  | sommetsGraphe | couplage | vide
deriving DecidableEq, Repr

def Reference.lit (g couplage : Tableau) : Reference → Tableau
  | .sommetsGraphe => g
  | .couplage => couplage
  | .vide => couplageVide

/-- `choix`, called after both its arguments: `couplage` is the array as they leave it -/
def choix (n : ℕ) (g couplage : Tableau) (G1 G2 : Reference) : Reference :=
  if degre n (G1.lit g couplage) = 0 then G2 else G1

/-- the chain from `arc` on, or the whole chain of the vertex when `arc` is null -/
def depuis (g : Tableau) (numSommet : ℕ) (arc : List Arc) : List Arc := if arc = [] then g numSommet else arc

/-- `Enum`, on the chain that `arc` points into: what it returns, and what it leaves in `couplage` -/
def enum (n : ℕ) (g : Tableau) (numSommet : ℕ) (couplage : Tableau) (arc : List Arc) : Reference × Tableau :=
  if estCouplage n g then (.sommetsGraphe, couplage)
  else if n / 2 ≤ numSommet then (if estCouplage n couplage then .couplage else .vide, couplage)
  else if g numSommet = [] then enum n g (numSommet + 1) couplage arc
  else
    match _h : depuis g numSommet arc with
    | [] => (.vide, couplage)
    | a :: suivant =>
      let r1 := enum n g (numSommet + 1) (ajouteArc numSommet a couplage) (g (numSommet + 1))
      let r2 := if suivant = [] then enum n g (numSommet + 1) r1.2 (g (numSommet + 1))
        else enum n g numSommet r1.2 suivant
      (choix n g r2.2 r1.1 r2.1, r2.2)
termination_by (n / 2 - numSommet, (depuis g numSommet arc).length)
decreasing_by
  · exact Prod.Lex.left _ _ (by omega)
  · exact Prod.Lex.left _ _ (by omega)
  · exact Prod.Lex.left _ _ (by omega)
  · rename_i hne
    have hdep : depuis g numSommet suivant = suivant := if_neg hne
    rw [_h, hdep]
    exact Prod.Lex.right _ (by simp)

/-! ## One call -/

variable {n num : ℕ} {g c t : Tableau} {arc suivant : List Arc} {a : Arc}

theorem enum_feuille (hg : estCouplage n g = false) (hn : n / 2 ≤ num) :
    enum n g num c arc = (if estCouplage n c then .couplage else .vide, c) := by
  rw [enum, hg, if_neg Bool.false_ne_true, if_pos hn]

theorem enum_saute (hg : estCouplage n g = false) (hn : num < n / 2) (hvide : g num = []) :
    enum n g num c arc = enum n g (num + 1) c arc := by
  rw [enum, hg, if_neg Bool.false_ne_true, if_neg (by omega), if_pos hvide]

/-- the call of the first alternative, and that of the second -/
def alternative1 (n : ℕ) (g : Tableau) (num : ℕ) (c : Tableau) (a : Arc) : Reference × Tableau :=
  enum n g (num + 1) (ajouteArc num a c) (g (num + 1))

def alternative2 (n : ℕ) (g : Tableau) (num : ℕ) (c : Tableau) (suivant : List Arc) : Reference × Tableau :=
  if suivant = [] then enum n g (num + 1) c (g (num + 1)) else enum n g num c suivant

theorem enum_arc (hg : estCouplage n g = false) (hn : num < n / 2) (hne : g num ≠ [])
    (hd : depuis g num arc = a :: suivant) :
    enum n g num c arc =
      (choix n g (alternative2 n g num (alternative1 n g num c a).2 suivant).2 (alternative1 n g num c a).1
        (alternative2 n g num (alternative1 n g num c a).2 suivant).1,
      (alternative2 n g num (alternative1 n g num c a).2 suivant).2) := by
  rw [enum, hg, if_neg Bool.false_ne_true, if_neg (by omega), if_neg hne]
  split
  · rename_i h
    rw [hd] at h
    cases h
  · rename_i a' suivant' h
    rw [hd] at h
    obtain ⟨rfl, rfl⟩ := List.cons.inj h
    rfl

/-- the vertices that the calls from `num` on write in the array -/
def Ecrit (n : ℕ) (g : Tableau) (num i : ℕ) : Prop := num ≤ i ∧ i < n / 2 ∧ g i ≠ []

instance (n : ℕ) (g : Tableau) (num i : ℕ) : Decidable (Ecrit n g num i) := by unfold Ecrit; infer_instance

/-- the last arc of a vertex, alone -/
def dernier (g : Tableau) (i : ℕ) : List Arc := (g i).getLast?.toList

theorem depuis_suffix (h : arc <:+ g num) : depuis g num arc <:+ g num := by
  unfold depuis
  split_ifs
  · exact List.suffix_rfl
  · exact h

theorem depuis_ne_nil (hne : g num ≠ []) : depuis g num arc ≠ [] := by
  unfold depuis
  split_ifs with h
  · exact hne
  · exact h

theorem depuis_chaine (g : Tableau) (num : ℕ) : depuis g num (g num) = g num := by
  unfold depuis
  split_ifs <;> rfl

/-- the rule for a property of the calls: the leaves, the vertices without an arc, the last arc of a vertex, and the
arcs before it -/
theorem enum_induction {P : ℕ → Tableau → List Arc → Prop} (hg : estCouplage n g = false)
    (feuille : ∀ num c arc, n / 2 ≤ num → P num c arc)
    (saute : ∀ num c, num < n / 2 → g num = [] → P (num + 1) c [] → P num c [])
    (arc : ∀ num c arc a suivant, num < n / 2 → g num ≠ [] → arc <:+ g num → depuis g num arc = a :: suivant →
      P (num + 1) (ajouteArc num a c) (g (num + 1)) →
      (suivant = [] → P (num + 1) (alternative1 n g num c a).2 (g (num + 1))) →
      (suivant ≠ [] → P num (alternative1 n g num c a).2 suivant) → P num c arc)
    (num : ℕ) (c : Tableau) (l : List Arc) (hl : l <:+ g num) : P num c l := by
  by_cases hn : n / 2 ≤ num
  · exact feuille num c l hn
  · by_cases hvide : g num = []
    · have hl' : l = [] := by rwa [hvide, List.suffix_nil] at hl
      subst hl'
      exact saute num c (by omega) hvide (enum_induction hg feuille saute arc (num + 1) c [] List.nil_suffix)
    · have hne : depuis g num l ≠ [] := depuis_ne_nil hvide
      obtain ⟨a, suivant, hd⟩ := List.exists_cons_of_ne_nil hne
      have hs : suivant <:+ g num := (List.suffix_cons a suivant).trans (hd ▸ depuis_suffix hl)
      refine arc num c l a suivant (by omega) hvide hl hd ?_ ?_ ?_
      · exact enum_induction hg feuille saute arc (num + 1) _ _ List.suffix_rfl
      · intro _
        exact enum_induction hg feuille saute arc (num + 1) _ _ List.suffix_rfl
      · intro hne
        exact enum_induction hg feuille saute arc num _ suivant hs
termination_by (n / 2 - num, (depuis g num l).length)
decreasing_by
  · exact Prod.Lex.left _ _ (by omega)
  · exact Prod.Lex.left _ _ (by omega)
  · exact Prod.Lex.left _ _ (by omega)
  · have hdep : depuis g num suivant = suivant := if_neg hne
    rw [hd, hdep]
    exact Prod.Lex.right _ (by simp)

theorem not_ecrit {i : ℕ} (hn : n / 2 ≤ num) : ¬ Ecrit n g num i := by
  intro h
  have := h.1
  have := h.2.1
  omega

theorem ecrit_saute {i : ℕ} (hvide : g num = []) : Ecrit n g num i ↔ Ecrit n g (num + 1) i := by
  apply Iff.intro
  · intro h
    have hne : num ≠ i := fun heq => h.2.2 (heq ▸ hvide)
    exact ⟨lt_of_le_of_ne h.1 hne, h.2⟩
  · intro h
    exact ⟨(Nat.le_succ num).trans h.1, h.2⟩

theorem ecrit_arc {i : ℕ} (hn : num < n / 2) (hne : g num ≠ []) :
    Ecrit n g num i ↔ i = num ∨ Ecrit n g (num + 1) i := by
  apply Iff.intro
  · intro h
    exact (Nat.eq_or_lt_of_le h.1).imp Eq.symm fun hlt => ⟨hlt, h.2⟩
  · intro h
    apply h.elim
    · intro heq
      rw [heq]
      exact ⟨le_rfl, hn, hne⟩
    · intro h
      exact ⟨(Nat.le_succ num).trans h.1, h.2⟩

theorem not_ecrit_succ {i : ℕ} (h : i ≤ num) : ¬ Ecrit n g (num + 1) i := fun hi => absurd hi.1 (by omega)

/-- the content of the array after the calls from `num` on -/
def apres (n : ℕ) (g : Tableau) (num : ℕ) (c : Tableau) : Tableau :=
  fun i => if Ecrit n g num i then dernier g i else c i

theorem apres_of_ecrit {i : ℕ} (h : Ecrit n g num i) : apres n g num c i = dernier g i := if_pos h

theorem apres_of_not {i : ℕ} (h : ¬ Ecrit n g num i) : apres n g num c i = c i := if_neg h

theorem dernier_of_suffix (h : [a] <:+ g num) : dernier g num = [a] := by
  obtain ⟨l, hl⟩ := h
  rw [dernier, ← hl, List.getLast?_concat, Option.toList_some]

/-- **What the calls leave** in the array: the last arcs. -/
theorem enum_contenu (hg : estCouplage n g = false) (num : ℕ) (c : Tableau) (arc : List Arc) (harc : arc <:+ g num) :
    (enum n g num c arc).2 = apres n g num c := by
  refine enum_induction (P := fun num c arc => (enum n g num c arc).2 = apres n g num c) hg ?_ ?_ ?_ num c arc harc
  · intro num c arc hn
    rw [enum_feuille hg hn]
    exact funext fun i => (if_neg (not_ecrit hn)).symm
  · intro num c hn hvide ih
    rw [enum_saute hg hn hvide, ih]
    unfold apres
    simp only [ecrit_saute hvide]
  · intro num c arc a suivant hn hne harc hd ih1 ih2 ih3
    have h1 : (alternative1 n g num c a).2 = apres n g (num + 1) (ajouteArc num a c) := ih1
    rw [enum_arc hg hn hne hd]
    by_cases hs : suivant = []
    · -- the last arc: the second alternative runs the same calls again
      subst hs
      have hlast : dernier g num = [a] := dernier_of_suffix (hd ▸ depuis_suffix harc)
      rw [alternative2, if_pos rfl, ih2 rfl, h1]
      funext i
      by_cases hi : Ecrit n g (num + 1) i
      · rw [apres_of_ecrit hi, apres_of_ecrit ((ecrit_arc hn hne).2 (.inr hi))]
      · rw [apres_of_not hi, apres_of_not hi]
        by_cases hin : i = num
        · rw [hin, apres_of_ecrit ((ecrit_arc hn hne).2 (.inl rfl)), hlast, ajouteArc, Function.update_self]
        · rw [apres_of_not fun h => ((ecrit_arc hn hne).1 h).elim hin hi, ajouteArc, Function.update_of_ne hin]
    · rw [alternative2, if_neg hs, ih3 hs, h1]
      funext i
      by_cases hi : Ecrit n g num i
      · rw [apres_of_ecrit hi, apres_of_ecrit hi]
      · rw [ecrit_arc hn hne, not_or] at hi
        have hi' : ¬ Ecrit n g num i := fun h => ((ecrit_arc hn hne).1 h).elim hi.1 hi.2
        rw [apres_of_not hi', apres_of_not hi', apres_of_not hi.2, ajouteArc, Function.update_of_ne hi.1]

/-! ## The degree -/

theorem foldl_max_le_iff (f : ℕ → ℕ) (l : List ℕ) (r m : ℕ) :
    l.foldl (fun resultat i => if f i > resultat then f i else resultat) r ≤ m ↔ r ≤ m ∧ ∀ i ∈ l, f i ≤ m := by
  induction l generalizing r with
  | nil => simp
  | cons i l ih =>
    rw [List.foldl_cons, ih, List.forall_mem_cons, ← and_assoc]
    apply and_congr_left'
    split_ifs with h <;> omega

theorem degre_le_iff {m : ℕ} : degre n g ≤ m ↔ ∀ v, v < n → degreSommet n g v ≤ m := by
  rw [degre, foldl_max_le_iff, and_iff_right m.zero_le]
  simp only [List.mem_range]

theorem degre_vide (n : ℕ) : degre n couplageVide = 0 := by
  rw [← Nat.le_zero, degre_le_iff]
  intro v _
  simp [degreSommet, couplageVide]

theorem degre_ne_zero (hn : num < n) (h : g num ≠ []) : degre n g ≠ 0 := by
  intro h0
  have hle := degre_le_iff.1 h0.le num hn
  have hpos := List.length_pos_of_ne_nil h
  unfold degreSommet at hle
  omega

theorem choix_ne {G1 G2 : Reference} (h1 : G1 ≠ .sommetsGraphe) (h2 : G2 ≠ .sommetsGraphe) :
    choix n g c G1 G2 ≠ .sommetsGraphe := by
  unfold choix
  split_ifs
  · exact h2
  · exact h1

/-- an array that is not empty is kept, whatever the second alternative returns -/
theorem choix_eq_couplage_iff {G1 G2 : Reference} (h1 : G1 ≠ .sommetsGraphe) (hd : degre n c ≠ 0) :
    choix n g c G1 G2 = .couplage ↔ G1 = .couplage ∨ G2 = .couplage := by
  unfold choix
  match G1 with
  | .sommetsGraphe => exact absurd rfl h1
  | .couplage => rw [Reference.lit, if_neg hd]; exact iff_of_true rfl (.inl rfl)
  | .vide => rw [Reference.lit, degre_vide, if_pos rfl]; simp

/-! ## What the calls return -/

/-- `t` is `c` with one arc for each vertex from `num` on, that of `num` from `arc` on -/
def Essai (n : ℕ) (g : Tableau) (num : ℕ) (arc : List Arc) (c t : Tableau) : Prop :=
  ∀ i, (Ecrit n g num i → ∃ a ∈ (if i = num then depuis g num arc else g i), t i = [a]) ∧
    (¬ Ecrit n g num i → t i = c i)

/-- only what the calls do not write matters -/
theorem essai_congr {c' : Tableau} (h : ∀ i, ¬ Ecrit n g num i → c i = c' i) :
    Essai n g num arc c t ↔ Essai n g num arc c' t := by
  unfold Essai
  apply forall_congr'
  intro i
  apply and_congr_right'
  apply forall_congr'
  intro hi
  rw [h i hi]

theorem essai_feuille (hn : n / 2 ≤ num) : Essai n g num arc c t ↔ t = c := by
  apply Iff.intro
  · intro h
    exact funext fun i => (h i).2 (not_ecrit hn)
  · intro h i
    exact ⟨fun hi => absurd hi (not_ecrit hn), fun _ => by rw [h]⟩

/-- from the first arc of `num` on there is nothing special about `num` -/
theorem essai_chaine (h : depuis g num arc = g num) :
    Essai n g num arc c t ↔
      ∀ i, (Ecrit n g num i → ∃ a ∈ g i, t i = [a]) ∧ (¬ Ecrit n g num i → t i = c i) := by
  have hif : ∀ i, (if i = num then depuis g num arc else g i) = g i := by
    intro i
    split_ifs with hi
    · rw [hi, h]
    · rfl
  unfold Essai
  simp only [hif]

theorem essai_saute (hvide : g num = []) : Essai n g num [] c t ↔ Essai n g (num + 1) [] c t := by
  rw [essai_chaine (if_pos rfl), essai_chaine (if_pos rfl)]
  simp only [ecrit_saute hvide]

theorem essai_arc (hn : num < n / 2) (hne : g num ≠ []) (hd : depuis g num arc = a :: suivant) :
    Essai n g num arc c t ↔
      Essai n g (num + 1) (g (num + 1)) (ajouteArc num a c) t ∨ (suivant ≠ [] ∧ Essai n g num suivant c t) := by
  have hnum : Ecrit n g num num := (ecrit_arc hn hne).2 (.inl rfl)
  rw [essai_chaine (depuis_chaine g (num + 1))]
  apply Iff.intro
  · intro h
    obtain ⟨b, hb, htb⟩ := (h num).1 hnum
    rw [if_pos rfl, hd, List.mem_cons] at hb
    by_cases hba : b = a
    · refine .inl fun i => ⟨fun hi => ?_, fun hi => ?_⟩
      · have hin : i ≠ num := fun heq => not_ecrit_succ heq.le hi
        have h := (h i).1 ((ecrit_arc hn hne).2 (.inr hi))
        rwa [if_neg hin] at h
      · by_cases hin : i = num
        · rw [hin, ajouteArc, Function.update_self, htb, hba]
        · rw [ajouteArc, Function.update_of_ne hin]
          exact (h i).2 fun h => ((ecrit_arc hn hne).1 h).elim hin hi
    · have hb := hb.resolve_left hba
      have hs : suivant ≠ [] := List.ne_nil_of_mem hb
      have hdep : depuis g num suivant = suivant := if_neg hs
      refine .inr ⟨hs, fun i => ⟨fun hi => ?_, (h i).2⟩⟩
      by_cases hin : i = num
      · rw [if_pos hin, hdep, hin]
        exact ⟨b, hb, htb⟩
      · have h := (h i).1 hi
        rwa [if_neg hin] at h ⊢
  · intro h
    apply h.elim
    · intro h i
      refine ⟨fun hi => ?_, fun hi => ?_⟩
      · by_cases hin : i = num
        · rw [if_pos hin, hd, (h i).2 (not_ecrit_succ hin.le), hin, ajouteArc, Function.update_self]
          exact ⟨a, List.mem_cons_self, rfl⟩
        · rw [if_neg hin]
          exact (h i).1 (((ecrit_arc hn hne).1 hi).resolve_left hin)
      · rw [ecrit_arc hn hne, not_or] at hi
        rw [(h i).2 hi.2, ajouteArc, Function.update_of_ne hi.1]
    · intro h i
      refine ⟨fun hi => ?_, (h.2 i).2⟩
      have hdep : depuis g num suivant = suivant := if_neg h.1
      obtain ⟨b, hb, htb⟩ := (h.2 i).1 hi
      refine ⟨b, ?_, htb⟩
      split_ifs at hb ⊢ with hin
      · rw [hdep] at hb
        rw [hd]
        exact List.mem_cons_of_mem a hb
      · exact hb

/-- **What a call returns**: never the graph, and the array exactly when some choice of arcs is a matching. -/
theorem enum_couplage_iff (hg : estCouplage n g = false) (num : ℕ) (c : Tableau) (arc : List Arc)
    (harc : arc <:+ g num) :
    (enum n g num c arc).1 ≠ .sommetsGraphe ∧
      ((enum n g num c arc).1 = .couplage ↔ ∃ t, Essai n g num arc c t ∧ estCouplage n t = true) := by
  refine enum_induction (P := fun num c arc => (enum n g num c arc).1 ≠ .sommetsGraphe ∧
    ((enum n g num c arc).1 = .couplage ↔ ∃ t, Essai n g num arc c t ∧ estCouplage n t = true))
    hg ?_ ?_ ?_ num c arc harc
  · intro num c arc hn
    rw [enum_feuille hg hn]
    simp only [essai_feuille hn, exists_eq_left]
    cases estCouplage n c <;> simp
  · intro num c hn hvide ih
    rw [enum_saute hg hn hvide]
    simpa only [essai_saute hvide] using ih
  · intro num c arc a suivant hn hne harc hd ih1 ih2 ih3
    have h1 : (alternative1 n g num c a).2 = apres n g (num + 1) (ajouteArc num a c) :=
      enum_contenu hg (num + 1) _ _ List.suffix_rfl
    have hcontenu := enum_contenu hg num c arc harc
    rw [enum_arc hg hn hne hd] at hcontenu ⊢
    have hdegre : degre n (alternative2 n g num (alternative1 n g num c a).2 suivant).2 ≠ 0 := by
      have hnum : Ecrit n g num num := (ecrit_arc hn hne).2 (.inl rfl)
      have hlt : num < n := by omega
      apply degre_ne_zero hlt
      have hval := (congrFun hcontenu num).trans (apres_of_ecrit hnum)
      rw [hval, dernier]
      simpa using hne
    have hih1 : (alternative1 n g num c a).1 = .couplage ↔
        ∃ t, Essai n g (num + 1) (g (num + 1)) (ajouteArc num a c) t ∧ estCouplage n t = true := ih1.2
    have hih2 : (alternative2 n g num (alternative1 n g num c a).2 suivant).1 ≠ .sommetsGraphe ∧
        ((alternative2 n g num (alternative1 n g num c a).2 suivant).1 = .couplage ↔
          (suivant = [] ∧ (alternative1 n g num c a).1 = .couplage) ∨
            (suivant ≠ [] ∧ ∃ t, Essai n g num suivant c t ∧ estCouplage n t = true)) := by
      by_cases hs : suivant = []
      · have hcongr : ∀ i, ¬ Ecrit n g (num + 1) i → (alternative1 n g num c a).2 i = ajouteArc num a c i := by
          intro i hi
          rw [h1, apres_of_not hi]
        have ih2 := ih2 hs
        simp only [essai_congr hcongr, ← hih1] at ih2
        rw [alternative2, if_pos hs]
        simpa [hs] using ih2
      · have hcongr : ∀ i, ¬ Ecrit n g num i → (alternative1 n g num c a).2 i = c i := by
          intro i hi
          rw [ecrit_arc hn hne, not_or] at hi
          rw [h1, apres_of_not hi.2, ajouteArc, Function.update_of_ne hi.1]
        have ih3 := ih3 hs
        simp only [essai_congr hcongr] at ih3
        rw [alternative2, if_neg hs]
        simpa [hs] using ih3
    refine ⟨choix_ne ih1.1 hih2.1, ?_⟩
    calc choix n g (alternative2 n g num (alternative1 n g num c a).2 suivant).2 (alternative1 n g num c a).1
          (alternative2 n g num (alternative1 n g num c a).2 suivant).1 = .couplage
        ↔ (alternative1 n g num c a).1 = .couplage ∨
            (alternative2 n g num (alternative1 n g num c a).2 suivant).1 = .couplage :=
          choix_eq_couplage_iff ih1.1 hdegre
      _ ↔ (alternative1 n g num c a).1 = .couplage ∨
            (suivant ≠ [] ∧ ∃ t, Essai n g num suivant c t ∧ estCouplage n t = true) := by
          rw [hih2.2, ← or_assoc, or_iff_left_of_imp And.right]
      _ ↔ ∃ t, Essai n g num arc c t ∧ estCouplage n t = true := by
          rw [hih1]
          simp only [essai_arc hn hne hd, or_and_right, exists_or, and_assoc, exists_and_left]

/-! ## Perfect matchings -/

/-- the arcs of an array of `n` chains -/
def arcs (n : ℕ) (t : Tableau) : List Arc := (List.range n).flatMap t

/-- every arc goes from one of the first `k` vertices, whose chain it is in, to one of the last `k` -/
def Biparti (k : ℕ) (t : Tableau) : Prop :=
  ∀ i, i < 2 * k → ∀ a ∈ t i, a.source = i ∧ i < k ∧ k ≤ a.destination ∧ a.destination < 2 * k

/-- every vertex is an end of exactly one of the arcs -/
def Couvre (k : ℕ) (l : List Arc) : Prop := ∀ v, v < 2 * k → incidence Arc.source Arc.destination l v = 1

/-- the graph has a perfect matching -/
def Couplable (k : ℕ) (g : Tableau) : Prop := ∃ l, (∀ a ∈ l, a ∈ arcs (2 * k) g) ∧ Couvre k l

variable {k v : ℕ}

theorem mem_arcs : a ∈ arcs n t ↔ ∃ i, i < n ∧ a ∈ t i := by
  simp [arcs, List.mem_flatMap]

theorem countP_arcs (p : Arc → Bool) (n : ℕ) (t : Tableau) :
    (arcs n t).countP p = ∑ i ∈ Finset.range n, (t i).countP p := by
  induction n with
  | zero => rfl
  | succ n ih => rw [arcs, List.range_succ, List.flatMap_append, List.countP_append, ← arcs, ih, Finset.sum_range_succ,
      List.flatMap_singleton]

theorem length_arcs (n : ℕ) (t : Tableau) : (arcs n t).length = nombreArcs n t := by
  have h := countP_arcs (fun _ => true) n t
  simpa [nombreArcs] using h

theorem Biparti.entre (h : Biparti k t) : Entre Arc.source Arc.destination (Finset.range (2 * k)) (arcs (2 * k) t) := by
  intro a ha
  obtain ⟨i, hi, ha⟩ := mem_arcs.1 ha
  obtain ⟨hs, hik, hd, hd'⟩ := h i hi a ha
  rw [Finset.mem_range, Finset.mem_range]
  omega

/-- the degree of the code counts the arcs that touch a vertex -/
theorem degreSommet_eq (h : Biparti k t) (hv : v < 2 * k) :
    degreSommet (2 * k) t v = incidence Arc.source Arc.destination (arcs (2 * k) t) v := by
  have hterme : ∀ i ∈ Finset.range (2 * k), (t i).countP (fun a => a.source = v ∨ a.destination = v) =
      (if v = i then (t i).length else 0) + (t i).countP fun a => a.destination = v := by
    intro i hi
    have hi := h i (Finset.mem_range.1 hi)
    split_ifs with hvi
    · subst hvi
      have hall : (t v).countP (fun a => a.source = v ∨ a.destination = v) = (t v).length :=
        List.countP_eq_length.2 fun a ha => by simp [(hi a ha).1]
      have hnone : (t v).countP (fun a => a.destination = v) = 0 :=
        List.countP_eq_zero.2 fun a ha => by have := hi a ha; simp; omega
      rw [hall, hnone, Nat.add_zero]
    · rw [zero_add]
      apply List.countP_congr
      intro a ha
      simp [(hi a ha).1, Ne.symm hvi]
  calc degreSommet (2 * k) t v
      = ∑ i ∈ Finset.range (2 * k), (if v = i then (t i).length else 0) +
          ∑ i ∈ Finset.range (2 * k), (t i).countP fun a => a.destination = v := by
        rw [degreSommet, Finset.sum_ite_eq, if_pos (Finset.mem_range.2 hv)]
    _ = ∑ i ∈ Finset.range (2 * k), (t i).countP (fun a => a.source = v ∨ a.destination = v) := by
        rw [← Finset.sum_add_distrib]
        exact (Finset.sum_congr rfl hterme).symm
    _ = incidence Arc.source Arc.destination (arcs (2 * k) t) v := (countP_arcs _ _ _).symm

/-- **The test of the code** is that the array covers every vertex once. -/
theorem estCouplage_iff (h : Biparti k t) : estCouplage (2 * k) t = true ↔ Couvre k (arcs (2 * k) t) := by
  have hone := incidence_eq_one_iff h.entre
  simp only [Finset.mem_range, Finset.card_range, length_arcs] at hone
  unfold estCouplage arcsIndependants Couvre
  rw [hone, Bool.and_eq_true, decide_eq_true_iff, beq_iff_eq, degre_le_iff]
  apply and_congr_left'
  apply forall_congr'
  intro v
  apply forall_congr'
  intro hv
  rw [degreSommet_eq h hv]

/-- arcs sorted by their source -/
theorem countP_par_source (p : Arc → Bool) {l : List Arc} (h : ∀ a ∈ l, a.source < n) :
    (arcs n fun i => l.filter fun a => a.source = i).countP p = l.countP p := by
  rw [countP_arcs]
  induction l with
  | nil => simp
  | cons a l ih =>
    obtain ⟨ha, hl⟩ := List.forall_mem_cons.1 h
    have hterme : ∀ i ∈ Finset.range n, ((a :: l).filter fun a => a.source = i).countP p =
        (l.filter fun a => a.source = i).countP p + if a.source = i then (if p a then 1 else 0) else 0 := by
      intro i _
      by_cases hi : a.source = i
      · rw [List.filter_cons_of_pos (by simpa using hi), List.countP_cons, if_pos hi]
      · rw [List.filter_cons_of_neg (by simpa using hi), if_neg hi, Nat.add_zero]
    rw [Finset.sum_congr rfl hterme, Finset.sum_add_distrib, ih hl, Finset.sum_ite_eq, if_pos (Finset.mem_range.2 ha),
      List.countP_cons]

/-- the choices that the calls from the first vertex try -/
theorem essai_debut : Essai (2 * k) g 0 [] couplageVide t ↔
    ∀ i, (i < k ∧ g i ≠ [] → ∃ a ∈ g i, t i = [a]) ∧ (¬ (i < k ∧ g i ≠ []) → t i = []) := by
  have hecrit : ∀ i, Ecrit (2 * k) g 0 i ↔ i < k ∧ g i ≠ [] := by
    intro i
    unfold Ecrit
    rw [Nat.mul_div_cancel_left k two_pos]
    exact and_iff_right i.zero_le
  rw [essai_chaine (if_pos rfl)]
  simp only [hecrit, couplageVide]

theorem essai_biparti (hg : Biparti k g) (h : Essai (2 * k) g 0 [] couplageVide t) :
    Biparti k t ∧ ∀ a ∈ arcs (2 * k) t, a ∈ arcs (2 * k) g := by
  rw [essai_debut] at h
  have hmem : ∀ i, ∀ a ∈ t i, a ∈ g i := by
    intro i a ha
    by_cases hi : i < k ∧ g i ≠ []
    · obtain ⟨b, hb, htb⟩ := (h i).1 hi
      rw [htb, List.mem_singleton] at ha
      exact ha ▸ hb
    · rw [(h i).2 hi] at ha
      cases ha
  refine ⟨fun i hi a ha => hg i hi a (hmem i a ha), fun a ha => ?_⟩
  obtain ⟨i, hi, ha⟩ := mem_arcs.1 ha
  exact mem_arcs.2 ⟨i, hi, hmem i a ha⟩

/-- **A perfect matching** is one of the choices. -/
theorem couplable_iff (hg : Biparti k g) :
    Couplable k g ↔ ∃ t, Essai (2 * k) g 0 [] couplageVide t ∧ estCouplage (2 * k) t = true := by
  apply Iff.intro
  · intro h
    obtain ⟨l, hl, hcouvre⟩ := h
    have hsource : ∀ a ∈ l, a ∈ g a.source ∧ a.source < k ∧ k ≤ a.destination := by
      intro a ha
      obtain ⟨i, hi, hai⟩ := mem_arcs.1 (hl a ha)
      obtain ⟨hs, hik, hd, -⟩ := hg i hi a hai
      rw [hs]
      exact ⟨hai, hik, hd⟩
    have hessai : Essai (2 * k) g 0 [] couplageVide fun i => l.filter fun a => a.source = i := by
      rw [essai_debut]
      intro i
      refine ⟨fun hi => ?_, fun hi => ?_⟩
      · -- the arcs of `l` that touch `i` leave it
        have hone := hcouvre i (by omega)
        have hcount : l.countP (fun a => a.source = i) = 1 := by
          rw [← hone, incidence]
          apply List.countP_congr
          intro a ha
          have := hsource a ha
          simp
          omega
        rw [List.countP_eq_length_filter, List.length_eq_one_iff] at hcount
        obtain ⟨a, ha⟩ := hcount
        have hmem : a ∈ l.filter fun a => a.source = i := by rw [ha]; exact List.mem_cons_self
        obtain ⟨hal, hai⟩ := List.mem_filter.1 hmem
        have hai : a.source = i := by simpa using hai
        exact ⟨a, hai ▸ (hsource a hal).1, ha⟩
      · rw [List.filter_eq_nil_iff]
        intro a ha hai
        have hai : a.source = i := by simpa using hai
        exact hi ⟨hai ▸ (hsource a ha).2.1, hai ▸ List.ne_nil_of_mem (hsource a ha).1⟩
    refine ⟨_, hessai, ?_⟩
    rw [estCouplage_iff (essai_biparti hg hessai).1]
    intro v hv
    rw [← hcouvre v hv]
    exact countP_par_source _ fun a ha => by have := hsource a ha; omega
  · intro h
    obtain ⟨t, ht, hcouplage⟩ := h
    obtain ⟨hbi, hsub⟩ := essai_biparti hg ht
    exact ⟨arcs (2 * k) t, hsub, (estCouplage_iff hbi).1 hcouplage⟩

/-! ## The last arcs -/

/-- the last arc of every vertex that has one -/
def derniers (k : ℕ) (g : Tableau) : List Arc := arcs (2 * k) (dernier g)

theorem Biparti.vide (hg : Biparti k g) {i : ℕ} (hki : k ≤ i) (hi : i < 2 * k) : g i = [] := by
  apply List.eq_nil_iff_forall_not_mem.2
  intro a ha
  have := (hg i hi a ha).2.1
  omega

theorem mem_of_mem_dernier {i : ℕ} (h : a ∈ dernier g i) : a ∈ g i := by
  unfold dernier at h
  rw [Option.mem_toList] at h
  exact List.mem_of_getLast? h

theorem Biparti.dernier (hg : Biparti k g) : Biparti k (dernier g) := fun i hi a ha => hg i hi a (mem_of_mem_dernier ha)

theorem length_dernier (g : Tableau) (i : ℕ) : (dernier g i).length = if g i = [] then 0 else 1 := by
  unfold EnumP.dernier
  split_ifs with h
  · rw [h]; rfl
  · rw [List.getLast?_eq_some_getLast h]; rfl

theorem incidence_derniers (hg : Biparti k g) (hv : v < 2 * k) :
    incidence Arc.source Arc.destination (derniers k g) v =
      (dernier g v).length + ((derniers k g).map Arc.destination).count v := by
  have hcount : ((derniers k g).map Arc.destination).count v = (derniers k g).countP fun a => a.destination = v := by
    rw [List.count, List.countP_map]
    apply List.countP_congr
    simp
  rw [hcount, derniers, ← degreSommet_eq hg.dernier hv, degreSommet, countP_arcs]

theorem destination_derniers (hg : Biparti k g) (h : v ∈ (derniers k g).map Arc.destination) : k ≤ v ∧ v < 2 * k := by
  obtain ⟨a, ha, hav⟩ := List.mem_map.1 h
  obtain ⟨i, hi, ha⟩ := mem_arcs.1 ha
  rw [← hav]
  exact (hg i hi a (mem_of_mem_dernier ha)).2.2

/-- **The last arcs cover every vertex** exactly when they go to different ones. -/
theorem couvre_derniers_iff (hg : Biparti k g) (hne : ∀ i, i < k → g i ≠ []) :
    Couvre k (derniers k g) ↔ ((derniers k g).map Arc.destination).Nodup := by
  have hlen : (derniers k g).length = k := by
    rw [derniers, length_arcs, nombreArcs]
    have hterme : ∀ i ∈ Finset.range (2 * k), (dernier g i).length = if i ∈ Finset.range k then 1 else 0 := by
      intro i hi
      rw [length_dernier]
      by_cases hik : i < k
      · rw [if_neg (hne i hik), if_pos (Finset.mem_range.2 hik)]
      · rw [if_pos (hg.vide (by omega) (Finset.mem_range.1 hi)), if_neg (by simpa using hik)]
    have hinter : Finset.range (2 * k) ∩ Finset.range k = Finset.range k :=
      Finset.inter_eq_right.2 (Finset.range_subset_range.2 (by omega))
    rw [Finset.sum_congr rfl hterme, Finset.sum_ite_mem, hinter, Finset.sum_const, Finset.card_range, smul_eq_mul,
      mul_one]
  have hone := incidence_eq_one_iff hg.dernier.entre
  simp only [Finset.mem_range, Finset.card_range] at hone
  rw [← derniers, hlen, and_iff_left rfl] at hone
  rw [Couvre, hone, List.nodup_iff_count_le_one]
  apply Iff.intro
  · intro h v
    by_cases hv : v ∈ (derniers k g).map Arc.destination
    · have hlt := (destination_derniers hg hv).2
      have hle := h v hlt
      rw [incidence_derniers hg hlt] at hle
      omega
    · rw [List.count_eq_zero_of_not_mem hv]
      omega
  · intro h v hv
    rw [incidence_derniers hg hv, length_dernier]
    by_cases hvk : v < k
    · have hout : v ∉ (derniers k g).map Arc.destination := fun hmem => by
        have := (destination_derniers hg hmem).1
        omega
      rw [List.count_eq_zero_of_not_mem hout]
      split_ifs <;> omega
    · rw [if_pos (hg.vide (by omega) hv), Nat.zero_add]
      exact h v

/-- a graph with a perfect matching has an arc at each of its first vertices -/
theorem Couplable.ne_nil (hg : Biparti k g) (h : Couplable k g) {i : ℕ} (hi : i < k) : g i ≠ [] := by
  intro hvide
  obtain ⟨l, hl, hcouvre⟩ := h
  have hpos : 0 < incidence Arc.source Arc.destination l i := by
    rw [hcouvre i (by omega)]
    exact one_pos
  obtain ⟨a, ha, htouche⟩ := List.countP_pos_iff.1 hpos
  obtain ⟨j, hj, haj⟩ := mem_arcs.1 (hl a ha)
  have hbi := hg j hj a haj
  have htouche : a.source = i ∨ a.destination = i := by simpa using htouche
  have hji : j = i := by omega
  rw [hji, hvide] at haj
  cases haj

/-- a graph that is itself a matching has one arc a vertex, its last -/
theorem derniers_of_couvre (hg : Biparti k g) (h : Couvre k (arcs (2 * k) g)) : derniers k g = arcs (2 * k) g := by
  unfold derniers arcs
  apply List.flatMap_congr
  intro i hi
  have hi : i < 2 * k := List.mem_range.1 hi
  have hlen : (g i).length ≤ 1 := by
    have hone := h i hi
    rw [← degreSommet_eq hg hi, degreSommet] at hone
    omega
  unfold dernier
  match hgi : g i with
  | [] => rfl
  | [a] => rfl
  | a :: b :: l => simp [hgi] at hlen

/-! ## The call from the first vertex -/

/-- the arcs of the array that `Enum(0, couplage_vide(2k), null)` returns, as it is after the call -/
def resultat (k : ℕ) (g : Tableau) : List Arc :=
  arcs (2 * k) ((enum (2 * k) g 0 couplageVide []).1.lit g (enum (2 * k) g 0 couplageVide []).2)

/-- a perfect matching of the graph when there is one, and else no arc -/
def Correct (k : ℕ) (g : Tableau) : Prop :=
  (Couplable k g → (∀ a ∈ resultat k g, a ∈ arcs (2 * k) g) ∧ Couvre k (resultat k g)) ∧
    (¬ Couplable k g → resultat k g = [])

theorem arcs_vide (n : ℕ) : arcs n couplageVide = [] := by
  apply List.flatMap_eq_nil_iff.2
  intro i _
  rfl

/-- what the calls leave, from the first vertex on -/
theorem arcs_apres (hg : Biparti k g) : arcs (2 * k) (apres (2 * k) g 0 couplageVide) = derniers k g := by
  unfold derniers arcs
  apply List.flatMap_congr
  intro i hi
  have hi : i < 2 * k := List.mem_range.1 hi
  by_cases hecrit : Ecrit (2 * k) g 0 i
  · rw [apres_of_ecrit hecrit]
  · have hvide : g i = [] := by
      by_contra hne
      have hik : k ≤ i := by
        by_contra hik
        exact hecrit ⟨i.zero_le, by omega, hne⟩
      exact hne (hg.vide hik hi)
    rw [apres_of_not hecrit, dernier, hvide]
    rfl

theorem resultat_graphe (hc : estCouplage (2 * k) g = true) : resultat k g = arcs (2 * k) g := by
  unfold resultat
  rw [enum, if_pos hc]
  rfl

theorem resultat_couplable (hg : Biparti k g) (hc : estCouplage (2 * k) g = false) (h : Couplable k g) :
    resultat k g = derniers k g := by
  have hr := (enum_couplage_iff hc 0 couplageVide [] List.nil_suffix).2.2 ((couplable_iff hg).1 h)
  unfold resultat
  rw [hr, enum_contenu hc 0 couplageVide [] List.nil_suffix]
  exact arcs_apres hg

theorem resultat_non_couplable (hg : Biparti k g) (hc : estCouplage (2 * k) g = false) (h : ¬ Couplable k g) :
    resultat k g = [] := by
  obtain ⟨hne, hiff⟩ := enum_couplage_iff hc 0 couplageVide [] List.nil_suffix
  have hr : (enum (2 * k) g 0 couplageVide []).1 = .vide := by
    match hcase : (enum (2 * k) g 0 couplageVide []).1 with
    | .sommetsGraphe => exact absurd hcase hne
    | .couplage => exact absurd ((couplable_iff hg).2 (hiff.1 hcase)) h
    | .vide => rfl
  unfold resultat
  rw [hr]
  exact arcs_vide (2 * k)

/-- **The enumeration is right** exactly on the graphs without a perfect matching, and on those where the last arcs of
the vertices go to different vertices. -/
theorem enum_correct_iff (k : ℕ) (g : Tableau) (hg : Biparti k g) :
    Correct k g ↔ (Couplable k g → ((derniers k g).map Arc.destination).Nodup) := by
  by_cases h : Couplable k g
  · rw [Correct, forall_prop_of_true h, forall_prop_of_false (not_not.2 h), and_true, forall_prop_of_true h,
      ← couvre_derniers_iff hg fun i hi => h.ne_nil hg hi]
    cases hc : estCouplage (2 * k) g with
    | true =>
      have hcouvre := (estCouplage_iff hg).1 hc
      rw [resultat_graphe hc, derniers_of_couvre hg hcouvre]
      exact and_iff_right fun a ha => ha
    | false =>
      rw [resultat_couplable hg hc h]
      apply and_iff_right
      intro a ha
      obtain ⟨i, hi, ha⟩ := mem_arcs.1 ha
      exact mem_arcs.2 ⟨i, hi, mem_of_mem_dernier ha⟩
  · have hc : estCouplage (2 * k) g = false := by
      by_contra hc
      rw [Bool.not_eq_false] at hc
      exact h ⟨_, fun a ha => ha, (estCouplage_iff hg).1 hc⟩
    exact iff_of_true ⟨fun hn => absurd hn h, fun _ => resultat_non_couplable hg hc h⟩ fun hn => absurd hn h

/-- one arc from 0 to 1 -/
def unArc : Tableau := fun i => if i = 0 then [⟨1, 0, 1⟩] else []

theorem unArc_biparti : Biparti 1 unArc := by
  intro i hi
  interval_cases i <;> decide

theorem enum_correct_iff_unArc :
    Correct 1 unArc ↔ (Couplable 1 unArc → ((derniers 1 unArc).map Arc.destination).Nodup) :=
  enum_correct_iff 1 unArc unArc_biparti

/-- arcs 0-2, 0-3 and 1-3, in this order -/
def deuxPuisUn : Tableau := fun i => if i = 0 then [⟨1, 0, 2⟩, ⟨2, 0, 3⟩] else if i = 1 then [⟨3, 1, 3⟩] else []

theorem deuxPuisUn_biparti : Biparti 2 deuxPuisUn := by
  intro i hi
  interval_cases i <;> decide

/-- **The matching is found, then overwritten.** 0-2 and 1-3 is found first; the second alternative at 0 writes 0-3 over
0-2 in the same array, which is the one returned. -/
theorem dernier_arc : ¬ ∀ (k : ℕ) (g : Tableau), 1 ≤ k → Biparti k g → Correct k g := by
  intro h
  have hcorrect := h 2 deuxPuisUn (by omega) deuxPuisUn_biparti
  have hcouplable : Couplable 2 deuxPuisUn := by
    refine ⟨[⟨1, 0, 2⟩, ⟨3, 1, 3⟩], by decide, ?_⟩
    intro v hv
    interval_cases v <;> decide
  have hgraphe : estCouplage (2 * 2) deuxPuisUn = false := by decide
  have hcouvre := (hcorrect.1 hcouplable).2
  rw [resultat_couplable deuxPuisUn_biparti hgraphe hcouplable] at hcouvre
  exact absurd (hcouvre 2 (by omega)) (by decide)

end Semestre6.Graphe.EnumP
