/-
Arete.java and GraphePondere.java: undirected weighted graphs as lists of incident edges. Weights are exact numbers.

- `ajouteArete`: an edge goes at the end of the lists of its two ends, twice in one list for a loop;
- `construit`, `construit_iff`: the graph that `ajouteArete` builds from a list of edges; the list of vertex i holds the
  edges at i in the order of addition (`incidentes`);
- `arete_poids_min`, `suppression_arete`, `sommet_couvert`: the three auxiliary loops of `kruskal`, each with what it
  computes on the lists of a graph.
-/
import Semestre6.Lib.Minimum
import Semestre6.Lib.Multigraphe

namespace Semestre6.Graphe

open Minimum Multigraphe

/-- `ref` tells apart the objects, which `equals` compares -/
structure Arete where
  ref : ℕ
  v : ℕ
  w : ℕ
  poids : ℚ
deriving DecidableEq

namespace Arete

def unSommet (a : Arete) : ℕ := a.v

def autreSommet (a : Arete) (i : ℕ) : Except String ℕ :=
  if a.v = i then .ok a.w else if a.w = i then .ok a.v else .error (toString i ++ "n'est pas une extremité de l'arête")

/-- `autreSommet(unSommet())`, the only call of `autreSommet` -/
def autre (a : Arete) : ℕ := a.w

theorem autreSommet_unSommet (a : Arete) : a.autreSommet a.unSommet = .ok a.autre := if_pos rfl

end Arete

structure GraphePondere where
  n : ℕ
  m : ℕ
  /-- the edges incident to each vertex below `n` -/
  adjacence : ℕ → List Arete

namespace GraphePondere

def nouveau (n : ℕ) : Except String GraphePondere :=
  if n < 1 then .error "le nombre de sommets doit etre strictement positif" else .ok ⟨n, 0, fun _ => []⟩

def verifieSommet (g : GraphePondere) (v : ℕ) : Except String Unit :=
  if v ≥ g.n then .error ("Le sommet " ++ toString v ++ " n'est pas valide") else .ok ()

def ajouteArete (g : GraphePondere) (e : Arete) : Except String GraphePondere := do
  g.verifieSommet e.unSommet
  g.verifieSommet e.autre
  let adjacence := Function.update g.adjacence e.unSommet (g.adjacence e.unSommet ++ [e])
  let adjacence := Function.update adjacence e.autre (adjacence e.autre ++ [e])
  return { g with adjacence := adjacence, m := g.m + 1 }

/-- a new graph, then `ajouteArete` for each edge -/
def construit (n : ℕ) (L : List Arete) : Except String GraphePondere := do
  let g ← nouveau n
  L.foldlM ajouteArete g

/-! ## The lists of a graph -/

/-- where the list of vertex `i` holds the edge, once for each end -/
def Arete.places (i : ℕ) (e : Arete) : List Arete :=
  (if e.unSommet = i then [e] else []) ++ if e.autre = i then [e] else []

def incidentes (L : List Arete) (i : ℕ) : List Arete := L.flatMap (Arete.places i)

variable {n i : ℕ} {L : List Arete} {a e : Arete} {g : GraphePondere}

theorem Arete.mem_places : a ∈ Arete.places i e ↔ a = e ∧ (e.unSommet = i ∨ e.autre = i) := by
  unfold Arete.places
  by_cases hv : e.unSommet = i <;> by_cases hw : e.autre = i <;> simp [hv, hw]

theorem mem_incidentes : a ∈ incidentes L i ↔ a ∈ L ∧ (a.unSommet = i ∨ a.autre = i) := by
  simp only [incidentes, List.mem_flatMap, Arete.mem_places]
  constructor
  · rintro ⟨e, he, rfl, h⟩
    exact ⟨he, h⟩
  · rintro ⟨ha, h⟩
    exact ⟨a, ha, rfl, h⟩

theorem ajouteArete_iff {g' : GraphePondere} : g.ajouteArete e = .ok g' ↔
    (e.unSommet < g.n ∧ e.autre < g.n) ∧ g' = ⟨g.n, g.m + 1, fun i => g.adjacence i ++ Arete.places i e⟩ := by
  have hadj : Function.update (Function.update g.adjacence e.unSommet (g.adjacence e.unSommet ++ [e])) e.autre
      (Function.update g.adjacence e.unSommet (g.adjacence e.unSommet ++ [e]) e.autre ++ [e]) =
      fun i => g.adjacence i ++ Arete.places i e := update_deux _ _ _ _ _
  unfold ajouteArete verifieSommet
  by_cases hv : g.n ≤ e.unSommet
  · simp [hv, bind, Except.bind, Nat.not_lt.2 hv]
  · by_cases hw : g.n ≤ e.autre
    · simp [hv, hw, bind, Except.bind, Nat.not_lt.2 hw]
    · simp [hv, hw, bind, Except.bind, hadj, pure, Except.pure, eq_comm, Nat.lt_of_not_le]

theorem foldlM_ajouteArete_iff {g' : GraphePondere} : L.foldlM ajouteArete g = .ok g' ↔
    (∀ e ∈ L, e.unSommet < g.n ∧ e.autre < g.n) ∧
      g' = ⟨g.n, g.m + L.length, fun i => g.adjacence i ++ incidentes L i⟩ := by
  induction L generalizing g with
  | nil => simp [incidentes, pure, Except.pure, eq_comm]
  | cons e L ih =>
    rw [List.foldlM_cons]
    cases hg : g.ajouteArete e with
    | error m =>
      have hn : ¬ (e.unSommet < g.n ∧ e.autre < g.n) := by
        intro h
        simp [ajouteArete_iff.2 ⟨h, rfl⟩] at hg
      simp [bind, Except.bind, hn]
    | ok g₁ =>
      obtain ⟨h, rfl⟩ := ajouteArete_iff.1 hg
      simp [bind, Except.bind, ih, h, incidentes, Nat.add_comm, Nat.add_left_comm]

/-- the graph built from a list of edges, and when there is one -/
theorem construit_iff : construit n L = .ok g ↔
    0 < n ∧ (∀ e ∈ L, e.unSommet < n ∧ e.autre < n) ∧ g = ⟨n, L.length, incidentes L⟩ := by
  unfold construit nouveau
  by_cases hn : n < 1
  · simp [bind, Except.bind, Nat.lt_one_iff.1 hn]
  · have hpos : 0 < n := Nat.pos_of_ne_zero (fun h => hn (Nat.lt_one_iff.2 h))
    simp [hn, hpos, bind, Except.bind, foldlM_ajouteArete_iff]

/-! ## Scanning and removing -/

/-- the least edge found, from the one of weight 1000000000 on; `n` is the size of the list -/
def arete_poids_min (n : ℕ) (list : ℕ → List Arete) : Arete :=
  (List.range n).foldl (fun min i => (list i).foldl (fun min e => if e.poids < min.poids then e else min) min)
    ⟨0, 0, 0, 1000000000⟩

/-- the loop `while(i < size && !a.equals(get(i)))` and the removal at the index it stops at -/
def retire (a : Arete) : List Arete → List Arete
  | [] => []
  | e :: l => if a ≠ e then e :: retire a l else l

def suppression_arete (list : ℕ → List Arete) (a : Arete) : ℕ → List Arete :=
  let renvoi := Function.update list a.unSommet (retire a (list a.unSommet))
  Function.update renvoi a.autre (retire a (renvoi a.autre))

def sommet_couvert (g : GraphePondere) : Bool :=
  let tab := (List.range g.n).foldl
    (fun tab i => (g.adjacence i).foldl
      (fun tab a => Function.update (Function.update tab a.unSommet true) a.autre true) tab)
    fun _ => false
  (List.range g.n).all tab

theorem retire_eq (a : Arete) (l : List Arete) : retire a l = l.erase a := by
  induction l with
  | nil => rfl
  | cons e l ih =>
    rw [retire, ih, List.erase_cons]
    by_cases h : a = e
    · simp [h]
    · simp [h, Ne.symm h]

theorem incidentes_append (L L' : List Arete) (i : ℕ) :
    incidentes (L ++ L') i = incidentes L i ++ incidentes L' i := List.flatMap_append

theorem incidentes_cons (e : Arete) (L : List Arete) (i : ℕ) :
    incidentes (e :: L) i = Arete.places i e ++ incidentes L i := List.flatMap_cons

/-- an edge of the graph leaves the two lists where it stands -/
theorem suppression_incidentes (ha : a ∈ L) :
    suppression_arete (incidentes L) a = incidentes (L.erase a) := by
  obtain ⟨L₁, L₂, hn, rfl, he⟩ := List.exists_erase_eq ha
  have herase : ∀ i (r : List Arete), (incidentes L₁ i ++ (a :: r)).erase a = incidentes L₁ i ++ r := by
    intro i r
    rw [List.erase_append_right _ (fun h => hn (mem_incidentes.1 h).1), List.erase_cons_head]
  funext i
  rw [he, incidentes_append]
  simp only [suppression_arete, retire_eq]
  by_cases hw : i = a.autre <;> by_cases hv : i = a.unSommet
  · subst hw
    simp [← hv, incidentes_append, incidentes_cons, Arete.places, herase]
  · subst hw
    simp [hv, Ne.symm hv, incidentes_append, incidentes_cons, Arete.places, herase]
  · subst hv
    simp [hw, Ne.symm hw, incidentes_append, incidentes_cons, Arete.places, herase]
  · simp [hv, hw, Ne.symm hv, Ne.symm hw, incidentes_append, incidentes_cons, Arete.places]

theorem foldl_tab (tab : ℕ → Bool) (l : List Arete) :
    l.foldl (fun tab a => Function.update (Function.update tab a.unSommet true) a.autre true) tab i = true ↔
      tab i = true ∨ ∃ a ∈ l, a.unSommet = i ∨ a.autre = i := by
  induction l generalizing tab with
  | nil => simp
  | cons a l ih =>
    rw [List.foldl_cons, ih]
    by_cases hw : i = a.autre
    · subst hw
      simp
    · by_cases hv : i = a.unSommet
      · subst hv
        simp [Function.update_of_ne hw]
      · simp [Function.update_of_ne hw, Function.update_of_ne hv, Ne.symm hv, Ne.symm hw]

/-- every vertex is an end of some edge -/
theorem sommet_couvert_iff :
    (⟨n, L.length, incidentes L⟩ : GraphePondere).sommet_couvert = true ↔
      ∀ i < n, ∃ a ∈ L, a.unSommet = i ∨ a.autre = i := by
  unfold sommet_couvert
  simp only [← List.foldl_flatMap, List.all_eq_true, List.mem_range, foldl_tab, List.mem_flatMap, mem_incidentes,
    Bool.false_eq_true, false_or]
  constructor
  · intro h i hi
    obtain ⟨a, ⟨_, _, ha, _⟩, hai⟩ := h i hi
    exact ⟨a, ha, hai⟩
  · intro h i hi
    obtain ⟨a, ha, hai⟩ := h i hi
    exact ⟨a, ⟨i, hi, ha, hai⟩, hai⟩

/-! ## The order in which the edges are chosen -/

/-- the weight, then the first list that holds the edge -/
def Arete.cle (a : Arete) : ℚ ×ₗ ℕ := toLex (a.poids, min a.unSommet a.autre)

/-- by weight, then by the smaller end, then in the order of addition -/
def tri (L : List Arete) : List Arete := L.insertionSort (fun x y => Arete.cle x ≤ Arete.cle y)

/-- the head of the sorted list -/
abbrev Premiere (a : Arete) (L : List Arete) : Prop := Premier (fun x y => Arete.cle x ≤ Arete.cle y) a L

theorem tri_perm (L : List Arete) : (tri L).Perm L := List.perm_insertionSort _ L

@[simp] theorem tri_length (L : List Arete) : (tri L).length = L.length := List.length_insertionSort _ L

theorem tri_premiere (ha : Premiere a L) : tri L = a :: tri (L.erase a) := Premier.insertionSort ha le_rfl

/-- nothing weighs less than the head -/
theorem Premiere.poids_le (ha : Premiere a L) (he : e ∈ L) : a.poids ≤ e.poids := by
  have hle : Arete.cle a ≤ Arete.cle e := ha.le he
  rcases Prod.Lex.le_iff.1 hle with h | h
  · exact h.le
  · exact h.1.le

theorem tri_pairwise (L : List Arete) : (tri L).Pairwise (fun x y => x.poids ≤ y.poids) := by
  have hsorted := List.pairwise_insertionSort (fun x y => Arete.cle x ≤ Arete.cle y) L
  refine hsorted.imp ?_
  intro x y hxy
  rcases Prod.Lex.le_iff.1 hxy with h | h
  · exact h.le
  · exact h.1.le

/-- the list of the smaller end holds the edge -/
theorem Arete.places_min (a : Arete) : ∃ r, Arete.places (min a.unSommet a.autre) a = a :: r ∧ ∀ x ∈ r, x = a := by
  unfold Arete.places
  rcases min_choice a.unSommet a.autre with h | h <;> rw [h]
  · refine ⟨_, by rw [if_pos rfl]; rfl, ?_⟩
    intro x hx
    split_ifs at hx
    · exact List.mem_singleton.1 hx
    · exact absurd hx List.not_mem_nil
  · rw [if_pos (rfl : a.autre = a.autre)]
    split_ifs
    · exact ⟨[a], rfl, fun x hx => List.mem_singleton.1 hx⟩
    · exact ⟨[], rfl, fun x hx => absurd hx List.not_mem_nil⟩

/-- the edge that stands first among the lightest ones of the lists -/
theorem premier_incidentes (hL : ∀ e ∈ L, e.unSommet < n ∧ e.autre < n)
    (ha : Premiere a L) :
    Premier (fun x y : Arete => x.poids ≤ y.poids) a ((List.range n).flatMap (incidentes L)) := by
  have hpoids : ∀ x ∈ L, a.poids ≤ x.poids := fun x hx => Premiere.poids_le ha hx
  -- an edge with a smaller end is strictly heavier
  have hmin : ∀ x ∈ L, min x.unSommet x.autre < min a.unSommet a.autre → a.poids < x.poids := by
    intro x hx hlt
    rcases Prod.Lex.le_iff.1 (ha.le hx) with h | h
    · exact h
    · exact absurd h.2 (not_le.2 hlt)
  obtain ⟨L₁, L₂, rfl, h₁, h₂⟩ := ha
  have haL : a ∈ L₁ ++ a :: L₂ := by simp
  have hj : min a.unSommet a.autre ∈ List.range n :=
    List.mem_range.2 (lt_of_le_of_lt (min_le_left ..) (hL a haL).1)
  obtain ⟨s, t, hst⟩ := List.append_of_mem hj
  have hs : ∀ i ∈ s, i < min a.unSommet a.autre := by
    have hlt := hst ▸ List.pairwise_lt_range (n := n)
    exact fun i hi => (List.pairwise_append.1 hlt).2.2 i hi _ (List.mem_cons_self ..)
  obtain ⟨r, hr, hra⟩ := Arete.places_min a
  refine ⟨s.flatMap (incidentes (L₁ ++ a :: L₂)) ++ incidentes L₁ (min a.unSommet a.autre),
    r ++ incidentes L₂ (min a.unSommet a.autre) ++ t.flatMap (incidentes (L₁ ++ a :: L₂)), ?_, ?_, ?_⟩
  · rw [hst, List.flatMap_append, List.flatMap_cons, incidentes_append, incidentes_cons, hr]
    simp
  · intro x hx
    rcases List.mem_append.1 hx with hx | hx
    · obtain ⟨i, hi, hx⟩ := List.mem_flatMap.1 hx
      obtain ⟨hxL, hxi⟩ := mem_incidentes.1 hx
      have := hs i hi
      exact not_le.2 (hmin x hxL (by rcases hxi with h | h <;> simp only [h] <;> omega))
    · obtain ⟨hxL, hxi⟩ := mem_incidentes.1 hx
      have hlt := not_le.1 (h₁ x hxL)
      rcases Prod.Lex.lt_iff.1 hlt with h | h
      · exact not_le.2 h
      · have h' : min a.unSommet a.autre < min x.unSommet x.autre := h.2
        rcases hxi with hxi | hxi <;> rw [hxi] at h' <;> omega
  · intro x hx
    apply hpoids
    rcases List.mem_append.1 hx with hx | hx
    · rcases List.mem_append.1 hx with hx | hx
      · rw [hra x hx]
        exact haL
      · exact List.mem_append_right _ (List.mem_cons_of_mem _ (mem_incidentes.1 hx).1)
    · obtain ⟨i, _, hx⟩ := List.mem_flatMap.1 hx
      exact (mem_incidentes.1 hx).1

/-- below the weight of the sentinel, the edge found is the head of the sorted list -/
theorem arete_poids_min_premier (hL : ∀ e ∈ L, e.unSommet < n ∧ e.autre < n)
    (ha : Premiere a L) :
    arete_poids_min n (incidentes L) = if a.poids < 1000000000 then a else ⟨0, 0, 0, 1000000000⟩ := by
  unfold arete_poids_min
  rw [← List.foldl_flatMap]
  have hscan := foldl_premier Arete.poids ⟨0, 0, 0, 1000000000⟩ ((List.range n).flatMap (incidentes L))
  have hp := premier_incidentes hL ha
  apply hscan.unique
  split_ifs with h
  · exact hp.cons_of_not (not_le.2 h)
  · exact premier_cons (not_lt.1 h) hp

end GraphePondere

end Semestre6.Graphe
