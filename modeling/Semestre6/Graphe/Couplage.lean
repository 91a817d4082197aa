/-
The matching test of Graphe.java, and of EnumP.java on an array of chains, with the arrays that it fills.

- `successeurs_eq`: the two walks of a chain give the destinations of its arcs;
- `degre_eq`: with destinations in range the loops end without an exception, the cell of a vertex holds the number of
  ends of arcs on it, and the result is their maximum;
- `estCouplage_parfait`: the test is that the arcs are a perfect matching, loops and parallel arcs included.
-/
import Semestre6.Lib.Boucle
import Semestre6.Graphe.EnumP
import Semestre6.Graphe.LireGraphe

namespace Semestre6.Graphe.Couplage

open Boucle Multigraphe
open LireGraphe (Arc JException)
open EnumP (degreSommet)

variable {α : Type}

/-- an array of `Maillon` chains -/
abbrev Tableau := List (List Arc)

/-- `t[i]` -/
def lit (t : List α) (i : ℤ) : Except JException α :=
  if i < 0 then .error .arrayIndexOutOfBounds
  else
    match t[i.toNat]? with
    | some x => .ok x
    | none => .error .arrayIndexOutOfBounds

/-- `t[i] = x` -/
def ecrit (t : List α) (i : ℤ) (x : α) : Except JException (List α) :=
  if 0 ≤ i ∧ i < t.length then .ok (t.set i.toNat x) else .error .arrayIndexOutOfBounds

/-- `t[i] += x` -/
def ajoute (t : List ℕ) (i : ℤ) (x : ℕ) : Except JException (List ℕ) := do
  let y ← lit t i
  ecrit t i (y + x)

def nombreSommets (g : Tableau) : ℕ := g.length

def nombreArcs (g : Tableau) : ℕ :=
  g.foldl (fun resultat courant => courant.foldl (fun resultat _ => resultat + 1) resultat) 0

/-- the second walk, that writes the destinations from `indice` on -/
def remplit : List Arc → ℕ → List ℤ → Except JException (List ℤ)
  | [], _, resultat => .ok resultat
  | courant :: suivant, indice, resultat => do
    let resultat ← ecrit resultat indice courant.destination
    remplit suivant (indice + 1) resultat

def successeurs (source : ℤ) (g : Tableau) : Except JException (List ℤ) := do
  let courant ← lit g source
  let nombre := courant.foldl (fun nombre _ => nombre + 1) 0
  let courant ← lit g source
  remplit courant 0 (List.replicate nombre 0)

/-- the loop of `degre` for the vertex `i` -/
def compte (g : Tableau) (i : ℕ) (degre_sommet : List ℕ) : Except JException (List ℕ) := do
  let succ ← successeurs i g
  let degre_sommet ← ajoute degre_sommet i succ.length
  pour 0 succ.length (fun j degre_sommet => do
    let s ← lit succ j
    ajoute degre_sommet s 1) degre_sommet

def degre (g : Tableau) : Except JException ℕ := do
  let n := nombreSommets g
  let degre_sommet ← pour 0 n (fun i degre_sommet => ecrit degre_sommet i 0) (List.replicate n 0)
  let degre_sommet ← pour 0 n (compte g) degre_sommet
  pour 0 n (fun i resultat => do
    let d ← lit degre_sommet i
    .ok (if d > resultat then d else resultat)) 0

def arcsIndependants (g : Tableau) : Except JException Bool := do
  let d ← degre g
  .ok (d ≤ 1)

def estCouplage (g : Tableau) : Except JException Bool := do
  let b ← arcsIndependants g
  .ok (b && nombreSommets g == 2 * nombreArcs g)

/-! ## What is tested -/

/-- an arc of `EnumP`, when no field is negative -/
def versNat (arc : Arc) : EnumP.Arc := ⟨arc.numero.toNat, arc.source.toNat, arc.destination.toNat⟩

/-- the chains as an array of `EnumP` -/
def tableau (g : Tableau) : EnumP.Tableau := fun i => (g.getD i []).map versNat

/-- the arcs of `n` chains, each as the vertex whose chain it is in and its destination -/
def extremites (n : ℕ) (g : EnumP.Tableau) : List (ℕ × ℕ) :=
  (List.range n).flatMap fun i => (g i).map fun a => (i, a.destination)

/-- every vertex is an end of exactly one arc, and no arc is a loop -/
def CouplageParfait (g : Tableau) : Prop :=
  let arcs := extremites g.length (tableau g)
  (∀ v, v < g.length → (arcs.countP fun e => e.1 = v ∨ e.2 = v) = 1) ∧ ∀ e ∈ arcs, e.1 ≠ e.2

/-- every destination is one of `n` vertices -/
def DestinationsDedans (n : ℕ) (g : Tableau) : Prop :=
  ∀ courant ∈ g, ∀ arc ∈ courant, 0 ≤ arc.destination ∧ arc.destination < n

instance (n : ℕ) (g : Tableau) : Decidable (DestinationsDedans n g) := by
  unfold DestinationsDedans
  infer_instance

variable {g : Tableau} {t : List ℕ} {courant : List Arc} {i v n : ℕ}

/-! ## Arrays -/

theorem lit_ok {t : List α} (hi : i < t.length) : lit t (i : ℤ) = .ok t[i] := by
  rw [lit, if_neg (by omega), Int.toNat_natCast, List.getElem?_eq_getElem hi]

theorem ecrit_ok {t : List α} (hi : i < t.length) (x : α) : ecrit t (i : ℤ) x = .ok (t.set i x) := by
  rw [ecrit, if_pos (by omega), Int.toNat_natCast]

theorem lit_chaine (hi : i < g.length) : lit g (i : ℤ) = .ok (g.getD i []) := by
  rw [lit_ok hi, List.getD, List.getElem?_eq_getElem hi, Option.getD_some]

theorem mem_of_getD (hi : i < g.length) : g.getD i [] ∈ g := by
  rw [List.getD, List.getElem?_eq_getElem hi, Option.getD_some]
  exact List.getElem_mem hi

/-- a cell of an array of `n` -/
structure Contient (n : ℕ) (t : List ℕ) (f : ℕ → ℕ) : Prop where
  taille : t.length = n
  cellule : ∀ v, v < n → t[v]? = some (f v)

variable {f : ℕ → ℕ}

theorem Contient.lit (h : Contient n t f) (hv : v < n) : lit t (v : ℤ) = .ok (f v) := by
  have hlt : v < t.length := h.taille ▸ hv
  have hcell := h.cellule v hv
  rw [List.getElem?_eq_getElem hlt] at hcell
  rw [lit_ok hlt, Option.some.inj hcell]

theorem Contient.ecrit (h : Contient n t f) (hv : v < n) (x : ℕ) :
    ∃ t', ecrit t (v : ℤ) x = .ok t' ∧ Contient n t' (Function.update f v x) := by
  have hlt : v < t.length := h.taille ▸ hv
  refine ⟨t.set v x, ecrit_ok hlt x, by rw [List.length_set, h.taille], ?_⟩
  intro w hw
  by_cases hwv : w = v
  · rw [hwv, List.getElem?_set_self hlt, Function.update_self]
  · rw [List.getElem?_set_ne (Ne.symm hwv), Function.update_of_ne hwv, h.cellule w hw]

theorem Contient.ajoute (h : Contient n t f) (hv : v < n) (x : ℕ) :
    ∃ t', ajoute t (v : ℤ) x = .ok t' ∧ Contient n t' (Function.update f v (f v + x)) := by
  rw [Couplage.ajoute, h.lit hv]
  exact h.ecrit hv (f v + x)

theorem remplit_eq (faits : List ℤ) (courant : List Arc) :
    remplit courant faits.length (faits ++ List.replicate courant.length 0) =
      .ok (faits ++ courant.map Arc.destination) := by
  induction courant generalizing faits with
  | nil => rw [remplit]; rfl
  | cons a courant ih =>
    have hset : ecrit (faits ++ List.replicate (a :: courant).length 0) (faits.length : ℤ) a.destination =
        .ok ((faits ++ [a.destination]) ++ List.replicate courant.length 0) := by
      rw [ecrit_ok (by simp), List.length_cons, List.replicate_succ, List.set_append_right _ _ le_rfl]
      simp
    have ih := ih (faits ++ [a.destination])
    rw [List.length_append, List.length_singleton] at ih
    rw [remplit, hset]
    refine ih.trans ?_
    rw [List.append_assoc, List.map_cons, List.singleton_append]

theorem successeurs_eq (hi : i < g.length) : successeurs i g = .ok ((g.getD i []).map Arc.destination) := by
  have h := remplit_eq [] (g.getD i [])
  rw [List.nil_append, List.nil_append] at h
  rw [successeurs, lit_chaine hi]
  change remplit _ 0 (List.replicate ((g.getD i []).foldl (fun nombre _ => nombre + 1) 0) 0) = _
  rw [List.foldl_add_const, Nat.zero_add, Nat.one_mul]
  exact h

/-! ## The array of the degrees -/

/-- the ends on `v` of the arcs of the first `k` chains -/
def degrePartiel (g : EnumP.Tableau) (k v : ℕ) : ℕ :=
  ∑ i ∈ Finset.range k, ((if v = i then (g i).length else 0) + (g i).countP fun a => a.destination = v)

theorem degrePartiel_succ (g : EnumP.Tableau) (k v : ℕ) : degrePartiel g (k + 1) v =
    degrePartiel g k v + ((if v = k then (g k).length else 0) + (g k).countP fun a => a.destination = v) :=
  Finset.sum_range_succ _ k

theorem degrePartiel_eq (g : EnumP.Tableau) (hv : v < n) : degrePartiel g n v = degreSommet n g v := by
  rw [degrePartiel, Finset.sum_add_distrib, Finset.sum_ite_eq, if_pos (Finset.mem_range.2 hv)]
  rfl

/-- one entry of `succ` is one end more on a vertex -/
theorem destinations_eq (succ : List ℤ) (h : Contient n t f) (hs : ∀ s ∈ succ, 0 ≤ s ∧ s < n) :
    ∃ t', pour 0 succ.length (fun j t => do
        let s ← Couplage.lit succ j
        ajoute t s 1) t = .ok t' ∧ Contient n t' fun v => f v + succ.count (v : ℤ) := by
  have hfin : ∀ v : ℕ, succ.count (v : ℤ) = (succ.take succ.length).count (v : ℤ) := fun v => by rw [List.take_length]
  simp only [hfin]
  apply pour_inv (fun j t => Contient n t fun v => f v + (succ.take j).count (v : ℤ)) (Nat.zero_le _) _
    (by simpa using h)
  intro j t _ hj ht
  obtain ⟨s, hsj⟩ := Int.eq_ofNat_of_zero_le (hs _ (List.getElem_mem hj)).1
  have hsn : s < n := by
    have hlt := (hs _ (List.getElem_mem hj)).2
    omega
  obtain ⟨t', ht', hc⟩ := ht.ajoute hsn 1
  refine ⟨t', by rw [lit_ok hj, hsj]; exact ht', hc.taille, ?_⟩
  intro v hv
  rw [hc.cellule v hv, List.take_add_one, List.getElem?_eq_getElem hj, Option.toList_some, List.count_append, hsj]
  by_cases hvs : v = s
  · rw [hvs, Function.update_self, List.count_singleton_self, Nat.add_assoc]
  · rw [Function.update_of_ne hvs, List.count_singleton, if_neg (by simpa using Ne.symm hvs), Nat.add_zero]

/-- the destinations of a chain on `v`, counted on ints and on naturals -/
theorem count_destination (h : ∀ arc ∈ courant, 0 ≤ arc.destination) (v : ℕ) :
    (courant.map Arc.destination).count (v : ℤ) = (courant.map versNat).countP fun a => a.destination = v := by
  rw [List.count_eq_countP, List.countP_map, List.countP_map]
  apply List.countP_congr
  intro arc harc
  have hpos := h arc harc
  change decide (arc.destination = (v : ℤ)) = true ↔ decide (arc.destination.toNat = v) = true
  rw [decide_eq_true_iff, decide_eq_true_iff]
  omega

theorem compte_eq (hd : DestinationsDedans n g) (hn : g.length = n) (hi : i < n)
    (h : Contient n t (degrePartiel (tableau g) i)) :
    ∃ t', compte g i t = .ok t' ∧ Contient n t' (degrePartiel (tableau g) (i + 1)) := by
  have hlt : i < g.length := by rwa [hn]
  have hchaine := hd _ (mem_of_getD hlt)
  rw [compte, successeurs_eq hlt]
  obtain ⟨t₁, h₁, hc₁⟩ := h.ajoute hi ((g.getD i []).map Arc.destination).length
  obtain ⟨t₂, h₂, hc₂⟩ := destinations_eq ((g.getD i []).map Arc.destination) hc₁ (by
    intro s hs
    obtain ⟨a, ha, rfl⟩ := List.mem_map.1 hs
    exact hchaine a ha)
  refine ⟨t₂, ?_, hc₂.taille, ?_⟩
  · change (ajoute t i _ >>= _) = _
    rw [h₁]
    exact h₂
  · intro v hv
    rw [hc₂.cellule v hv, degrePartiel_succ, List.length_map, count_destination fun a ha => (hchaine a ha).1,
      ← Nat.add_assoc]
    by_cases hvi : v = i
    · rw [hvi, Function.update_self, if_pos rfl, tableau, List.length_map]
    · rw [Function.update_of_ne hvi, if_neg hvi, Nat.add_zero]
      rfl

theorem comptes_eq (hd : DestinationsDedans n g) (hn : g.length = n) (h : Contient n t fun _ => 0) :
    ∃ t', pour 0 n (compte g) t = .ok t' ∧ Contient n t' (degrePartiel (tableau g) n) := by
  apply pour_inv (fun i t => Contient n t (degrePartiel (tableau g) i)) (Nat.zero_le _) _ h
  intro i t _ hi ht
  exact compte_eq hd hn hi ht

/-- the loop that writes 0 in every cell -/
theorem zeros_eq (h : Contient n t fun _ => 0) :
    ∃ t', pour 0 n (fun i degre_sommet => ecrit degre_sommet i 0) t = .ok t' ∧ Contient n t' fun _ => 0 := by
  apply pour_inv (fun _ t => Contient n t fun _ => 0) (Nat.zero_le _) _ h
  intro i t _ hi ht
  obtain ⟨t', ht', hc⟩ := ht.ecrit hi 0
  exact ⟨t', ht', by rwa [Function.update_eq_self] at hc⟩

/-- the loop that keeps the greatest cell -/
theorem maximum_eq (h : Contient n t f) :
    ∃ d, pour 0 n (fun i resultat => do
        let d ← Couplage.lit t i
        .ok (if d > resultat then d else resultat)) 0 = .ok d ∧ ∀ m, d ≤ m ↔ ∀ v, v < n → f v ≤ m := by
  apply pour_inv (fun i d => ∀ m, d ≤ m ↔ ∀ v, v < i → f v ≤ m) (Nat.zero_le _) _ (by simp)
  intro i r _ hi hr
  refine ⟨_, by rw [h.lit hi]; rfl, ?_⟩
  intro m
  rw [Nat.forall_lt_succ_right, ← hr]
  split_ifs with h <;> omega

/-- **The loops of degre** end, and give the greatest of the degrees, which is the one of `EnumP`. -/
theorem degre_eq (hd : DestinationsDedans g.length g) : degre g = .ok (EnumP.degre g.length (tableau g)) := by
  have hvide : Contient g.length (List.replicate g.length 0) fun _ => 0 := by
    refine ⟨List.length_replicate, ?_⟩
    intro v hv
    rw [List.getElem?_replicate, if_pos hv]
  obtain ⟨t₀, h₀, hc₀⟩ := zeros_eq hvide
  obtain ⟨t₁, h₁, hc₁⟩ := comptes_eq hd rfl hc₀
  obtain ⟨d, h₂, hmax⟩ := maximum_eq hc₁
  have hdegres (m : ℕ) : d ≤ m ↔ ∀ v, v < g.length → degreSommet g.length (tableau g) v ≤ m :=
    (hmax m).trans (forall₂_congr fun v hv => by rw [degrePartiel_eq _ hv])
  have heq : d = EnumP.degre g.length (tableau g) :=
    eq_of_forall_ge_iff fun m => (hdegres m).trans EnumP.degre_le_iff.symm
  rw [degre, ← heq]
  simp only [nombreSommets, h₀, h₁, bind, Except.bind]
  exact h₂

/-! ## The ends of the arcs -/

section Extremites

variable {g : EnumP.Tableau}

theorem countP_extremites (p : ℕ × ℕ → Bool) (n : ℕ) (g : EnumP.Tableau) :
    (extremites n g).countP p = ∑ i ∈ Finset.range n, (g i).countP fun a => p (i, a.destination) := by
  induction n with
  | zero => rfl
  | succ n ih =>
    rw [extremites, List.range_succ, List.flatMap_append, List.countP_append, ← extremites, ih, Finset.sum_range_succ,
      List.flatMap_singleton, List.countP_map]
    rfl

theorem length_extremites (n : ℕ) (g : EnumP.Tableau) : (extremites n g).length = EnumP.nombreArcs n g := by
  have h := countP_extremites (fun _ => true) n g
  simpa [EnumP.nombreArcs] using h

theorem mem_extremites {e : ℕ × ℕ} : e ∈ extremites n g ↔ e.1 < n ∧ ∃ a ∈ g e.1, a.destination = e.2 := by
  rw [extremites, List.mem_flatMap]
  apply Iff.intro
  · intro h
    obtain ⟨i, hi, he⟩ := h
    obtain ⟨a, ha, rfl⟩ := List.mem_map.1 he
    exact ⟨List.mem_range.1 hi, a, ha, rfl⟩
  · intro h
    obtain ⟨hn, a, ha, hd⟩ := h
    exact ⟨e.1, List.mem_range.2 hn, List.mem_map.2 ⟨a, ha, by rw [hd]⟩⟩

/-- the degree of the code counts the ends of the arcs: a loop has two on its vertex -/
theorem degreSommet_eq (g : EnumP.Tableau) (hv : v < n) : degreSommet n g v =
    (extremites n g).countP (fun e => e.1 = v) + (extremites n g).countP fun e => e.2 = v := by
  rw [countP_extremites, countP_extremites, degreSommet]
  congr 1
  have hterme : ∀ i, (g i).countP (fun _ => decide (i = v)) = if v = i then (g i).length else 0 := by
    intro i
    by_cases hi : v = i
    · simp [hi]
    · simp [hi, Ne.symm hi]
  simp only [hterme]
  rw [Finset.sum_ite_eq, if_pos (Finset.mem_range.2 hv)]

theorem countP_add_countP (p q : ℕ × ℕ → Prop) [DecidablePred p] [DecidablePred q] (l : List (ℕ × ℕ)) :
    l.countP (fun e => p e) + l.countP (fun e => q e) =
      l.countP (fun e => p e ∨ q e) + l.countP fun e => p e ∧ q e := by
  induction l with
  | nil => rfl
  | cons e l ih =>
    simp only [List.countP_cons, decide_eq_true_eq]
    split_ifs <;> first | omega | tauto

/-- the arcs that touch a vertex, and its loops once more -/
theorem degreSommet_eq_incidence (g : EnumP.Tableau) (hv : v < n) : degreSommet n g v =
    incidence Prod.fst Prod.snd (extremites n g) v + (extremites n g).countP fun e => e.1 = v ∧ e.2 = v := by
  rw [degreSommet_eq g hv, countP_add_countP]
  rfl

/-- degrees of 1 at most leave no loop -/
theorem ne_of_degreSommet_le (h : ∀ v, v < n → degreSommet n g v ≤ 1) : ∀ e ∈ extremites n g, e.1 ≠ e.2 := by
  intro e he heq
  have hv : e.1 < n := (mem_extremites.1 he).1
  have hle := h e.1 hv
  rw [degreSommet_eq_incidence g hv] at hle
  have htouche : 0 < incidence Prod.fst Prod.snd (extremites n g) e.1 :=
    List.countP_pos_iff.2 ⟨e, he, by simp⟩
  have hboucle : 0 < (extremites n g).countP fun e' => e'.1 = e.1 ∧ e'.2 = e.1 :=
    List.countP_pos_iff.2 ⟨e, he, by simp [heq]⟩
  omega

theorem degreSommet_of_ne (h : ∀ e ∈ extremites n g, e.1 ≠ e.2) (hv : v < n) :
    degreSommet n g v = incidence Prod.fst Prod.snd (extremites n g) v := by
  rw [degreSommet_eq_incidence g hv, Nat.add_eq_left, List.countP_eq_zero]
  intro e he
  have hne := h e he
  simp only [decide_eq_true_eq, not_and]
  intro h1 h2
  exact hne (h1.trans h2.symm)

end Extremites

theorem nombreArcs_eq (g : Tableau) : nombreArcs g = EnumP.nombreArcs g.length (tableau g) := by
  have hrun : ∀ (l : Tableau) (r : ℕ),
      l.foldl (fun resultat courant => courant.foldl (fun resultat _ => resultat + 1) resultat) r =
        r + ∑ i ∈ Finset.range l.length, (l.getD i []).length := by
    intro l
    induction l with
    | nil => intro r; rfl
    | cons courant l ih =>
      intro r
      rw [List.foldl_cons, List.foldl_add_const, Nat.one_mul, ih, List.length_cons, Finset.sum_range_succ']
      simp only [List.getD_cons_succ, List.getD_cons_zero]
      omega
  rw [nombreArcs, hrun, Nat.zero_add, EnumP.nombreArcs]
  simp only [tableau, List.length_map]

/-- the test on the arrays is the one of `EnumP` -/
theorem estCouplage_eq (hd : DestinationsDedans g.length g) :
    estCouplage g = .ok (EnumP.estCouplage g.length (tableau g)) := by
  rw [estCouplage, arcsIndependants, degre_eq hd, nombreArcs_eq]
  rfl

/-- **The test of the code is that the arcs are a perfect matching.** -/
theorem estCouplage_parfait (hd : DestinationsDedans g.length g) :
    ∃ b, estCouplage g = .ok b ∧ (b = true ↔ CouplageParfait g) := by
  refine ⟨_, estCouplage_eq hd, ?_⟩
  rw [EnumP.estCouplage, EnumP.arcsIndependants, Bool.and_eq_true, decide_eq_true_eq, beq_iff_eq, EnumP.degre_le_iff,
    ← length_extremites]
  have hrange : ∀ e ∈ extremites g.length (tableau g), e.1 < g.length ∧ e.2 < g.length := by
    intro e he
    obtain ⟨hn, a, ha, hae⟩ := mem_extremites.1 he
    obtain ⟨arc, harc, rfl⟩ := List.mem_map.1 ha
    have hborne := hd _ (mem_of_getD hn) arc harc
    refine ⟨hn, ?_⟩
    rw [← hae]
    change arc.destination.toNat < g.length
    omega
  -- without a loop, degrees and numbers of arcs touched are the same
  have hsansBoucle : ∀ hne : ∀ e ∈ extremites g.length (tableau g), e.1 ≠ e.2,
      (∀ v, v < g.length → incidence Prod.fst Prod.snd (extremites g.length (tableau g)) v = 1) ↔
        (∀ v, v < g.length → degreSommet g.length (tableau g) v ≤ 1) ∧
          g.length = 2 * (extremites g.length (tableau g)).length := by
    intro hne
    have hentre : Entre Prod.fst Prod.snd (Finset.range g.length) (extremites g.length (tableau g)) :=
      fun e he => ⟨Finset.mem_range.2 (hrange e he).1, Finset.mem_range.2 (hrange e he).2, hne e he⟩
    have hone := incidence_eq_one_iff hentre
    simp only [Finset.mem_range, Finset.card_range] at hone
    rw [hone]
    apply and_congr_left'
    apply forall₂_congr
    intro v hv
    rw [degreSommet_of_ne hne hv]
  apply Iff.intro
  · intro h
    have hne := ne_of_degreSommet_le h.1
    exact ⟨(hsansBoucle hne).2 h, hne⟩
  · intro h
    exact (hsansBoucle h.2).1 h.1

theorem estCouplage_parfait_deux :
    ∃ b, estCouplage [[⟨1, 0, 1⟩], []] = .ok b ∧ (b = true ↔ CouplageParfait [[⟨1, 0, 1⟩], []]) :=
  estCouplage_parfait (by decide)

end Semestre6.Graphe.Couplage
