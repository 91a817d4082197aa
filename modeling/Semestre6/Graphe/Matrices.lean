/-
Graphe.java (RO, APNEE1): the incidence matrix, the complement and the complete graph, which loop on a triangle of the
adjacency matrix.

- `paires_perm`: the pairs that the loops find are the distinct edges, each once;
- `matriceInc_iff`: `matriceInc` returns an incidence matrix exactly when the graph has no parallel edges: one column is
  filled for each pair of vertices;
- `complementaire_reste`: what the complement has in common with its definition;
- `complementaire_boucles`: its loops run to the diagonal, so that every vertex gets one.
Witnesses: `arete_double`, a column of zeros; `trois_boucles`.
-/
import Semestre6.Graphe.NonOriente

namespace Semestre6.NonOriente

open Boucle

/-- the pairs `(i, j)` of the double loops to `j <= i` -/
def triangle (n : ℕ) : List (ℕ × ℕ) := (List.range n).flatMap fun i => (List.range (i + 1)).map fun j => (i, j)

/-- those of the loops to `j < i` -/
def triangleStrict (n : ℕ) : List (ℕ × ℕ) := (List.range n).flatMap fun i => (List.range i).map fun j => (i, j)

namespace Graphe

/-- the body of the loops of `matriceInc`: the matrix and `num_arrete` -/
def remplitColonne (g : Graphe) (mat_adj : Matrice) (s : Matrice × ℕ) (p : ℕ × ℕ) :
    Except JException (Matrice × ℕ) :=
  if mat_adj p.1 p.2 = 1 then do
    let mat_inc ← ecrit g.n g.nbAretes s.1 p.1 s.2 1
    let mat_inc ← ecrit g.n g.nbAretes mat_inc p.2 s.2 1
    return (mat_inc, s.2 + 1)
  else return s

/-- a matrix of `n` rows and `nbAretes` columns -/
def matriceInc (g : Graphe) : Except JException Matrice := do
  let mat_adj ← g.matriceAdj
  let s ← (triangle g.n).foldlM (g.remplitColonne mat_adj) (fun _ _ => 0, 0)
  return s.1

def complementaire (g : Graphe) : Except JException Graphe := do
  let mat ← g.matriceAdj
  let compl ← nouveau g.n
  (triangle g.n).foldlM (fun compl p => if mat p.1 p.2 = 0 then compl.ajouteArete p.1 p.2 else .ok compl) compl

def grapheComplet (k : ℤ) : Except JException Graphe := do
  let complet ← nouveau k
  (triangleStrict k.toNat).foldlM
    (fun complet p => if p.1 ≠ p.2 then complet.ajouteArete p.1 p.2 else .ok complet) complet

end Graphe

/-! ## The pairs of the loops -/

open NonOriente.Graphe

variable {g : Graphe} {n i j : ℕ} {p q : ℕ × ℕ} {L : List (ℕ × ℕ)} {a : ℤ} {M : List (ℤ × ℤ)} {mat : Matrice}

theorem mem_triangle : p ∈ triangle n ↔ p.2 ≤ p.1 ∧ p.1 < n := by
  obtain ⟨i, j⟩ := p
  simp only [triangle, List.mem_flatMap, List.mem_map, List.mem_range, Prod.mk.injEq]
  apply Iff.intro
  · rintro ⟨i', hi, j', hj, rfl, rfl⟩
    exact ⟨by omega, hi⟩
  · rintro ⟨hj, hi⟩
    exact ⟨i, hi, j, by omega, rfl, rfl⟩

theorem nodup_triangle (n : ℕ) : (triangle n).Nodup := by
  refine List.nodup_flatMap.2 ⟨fun i _ => List.Nodup.map (fun a b h => (Prod.mk.inj h).2) List.nodup_range, ?_⟩
  refine List.nodup_range.imp ?_
  intro i i' hne p hp hp'
  obtain ⟨j, -, rfl⟩ := List.mem_map.1 hp
  obtain ⟨j', -, h⟩ := List.mem_map.1 hp'
  exact hne (Prod.mk.inj h).1.symm

/-- each pair of vertices is met once -/
theorem paire_injOn (hp : p ∈ triangle n) (hq : q ∈ triangle n) (h : paire p = paire q) : p = q := by
  rw [mem_triangle] at hp hq
  rcases Sym2.eq_iff.1 h with ⟨h₁, h₂⟩ | ⟨h₁, h₂⟩ <;> exact Prod.ext (by omega) (by omega)

theorem exists_triangle (hi : i < n) (hj : j < n) : ∃ p ∈ triangle n, paire p = s(i, j) := by
  by_cases h : j ≤ i
  · exact ⟨(i, j), mem_triangle.2 ⟨h, hi⟩, rfl⟩
  · exact ⟨(j, i), mem_triangle.2 ⟨by simpa using (Nat.lt_of_not_le h).le, hj⟩, Sym2.eq_swap⟩

/-- the pairs that some edge of `L` joins -/
def paires (n : ℕ) (L : List (ℕ × ℕ)) : List (ℕ × ℕ) := (triangle n).filter fun p => paire p ∈ L.map paire

theorem nodup_map_paire (n : ℕ) (P : ℕ × ℕ → Bool) : (((triangle n).filter P).map paire).Nodup := by
  refine List.Nodup.map_on ?_ ((nodup_triangle n).filter P)
  intro p hp q hq h
  exact paire_injOn (List.mem_filter.1 hp).1 (List.mem_filter.1 hq).1 h

/-- the pairs found are the distinct edges -/
theorem paires_perm (hL : ∀ e ∈ L, e.1 < n ∧ e.2 < n) : ((paires n L).map paire).Perm (L.map paire).dedup := by
  refine (List.perm_ext_iff_of_nodup (nodup_map_paire n _) (List.nodup_dedup _)).2 ?_
  intro x
  rw [List.mem_dedup]
  apply Iff.intro
  · intro h
    obtain ⟨p, hp, rfl⟩ := List.mem_map.1 h
    simpa using (List.mem_filter.1 hp).2
  · intro h
    obtain ⟨e, he, rfl⟩ := List.mem_map.1 h
    obtain ⟨p, hp, hpe⟩ := exists_triangle (hL e he).1 (hL e he).2
    exact List.mem_map.2 ⟨p, List.mem_filter.2 ⟨hp, decide_eq_true (by rw [hpe]; exact h)⟩, hpe⟩

theorem length_paires_le (hL : ∀ e ∈ L, e.1 < n ∧ e.2 < n) : (paires n L).length ≤ L.length := by
  have hlen := (paires_perm hL).length_eq
  have hle := (List.dedup_sublist (L.map paire)).length_le
  rw [List.length_map] at hlen hle
  omega

/-! ## The incidence matrix -/

/-- `C` lists the edges in the order of the columns: each column has its ones in the rows of the ends of its edge -/
def EstIncidence (g : Graphe) (L : List (ℕ × ℕ)) (mat : Matrice) : Prop :=
  ∃ C : List (ℕ × ℕ), C.Perm L ∧ C.length = g.nbAretes ∧
    ∀ c e, C[c]? = some e → ∀ i < g.n, mat i c = if i = e.1 ∨ i = e.2 then 1 else 0

/-- no two edges between the same vertices -/
def SansParalleles (L : List (ℕ × ℕ)) : Prop := (L.map paire).Nodup

instance (L : List (ℕ × ℕ)) : Decidable (SansParalleles L) := by unfold SansParalleles; infer_instance

/-- the columns filled so far, for the pairs of `l` -/
structure Colonnes (l : List (ℕ × ℕ)) (s : Matrice × ℕ) : Prop where
  num : s.2 = l.length
  uns : Uns s.1 fun a c => ∃ p, l[c]? = some p ∧ a ∈ paire p

theorem Colonnes.ecrit {l : List (ℕ × ℕ)} {s : Matrice × ℕ} {h m : ℕ} (hs : Colonnes l s) (h₁ : p.1 < h)
    (h₂ : p.2 < h) (hm : l.length < m) : ∃ mat₁ mat₂, ecrit h m s.1 p.1 s.2 1 = .ok mat₁ ∧
      ecrit h m mat₁ p.2 s.2 1 = .ok mat₂ ∧ Colonnes (l ++ [p]) (mat₂, s.2 + 1) := by
  obtain ⟨mat₁, hmat₁, huns₁⟩ := ecrit_uns hs.uns h₁ (hs.num.trans_lt hm)
  obtain ⟨mat₂, hmat₂, huns₂⟩ := ecrit_uns huns₁ h₂ (hs.num.trans_lt hm)
  refine ⟨mat₁, mat₂, hmat₁, hmat₂, by simp [hs.num], huns₂.congr ?_⟩
  intro a c
  rw [hs.num]
  rcases lt_trichotomy c l.length with hc | rfl | hc
  · simp [List.getElem?_append_left hc, hc.ne]
  · simp [paire]
  · have hnil : l[c]? = none := List.getElem?_eq_none hc.le
    have hnil' : (l ++ [p])[c]? = none := List.getElem?_eq_none (by simpa using hc)
    simp [hnil, hnil', hc.ne']

/-- the columns filled are those of the pairs, in the order of the loops -/
theorem matriceInc_uns (hL : ∀ e ∈ L, e.1 < n ∧ e.2 < n) : ∃ mat, (⟨n, voisinsDe L⟩ : Graphe).matriceInc = .ok mat ∧
    Uns mat fun a c => ∃ p, (paires n L)[c]? = some p ∧ a ∈ paire p := by
  obtain ⟨mat_adj, hadj, huns⟩ := matriceAdj_voisinsDe hL
  obtain ⟨s, hs, hcol⟩ : ∃ s, (triangle n).foldlM ((⟨n, voisinsDe L⟩ : Graphe).remplitColonne mat_adj)
      (fun _ _ => 0, 0) = .ok s ∧ Colonnes (paires n L) s := by
    refine foldlM_inv (fun l => Colonnes (l.filter fun p => paire p ∈ L.map paire)) _ ?_
      ⟨rfl, fun _ _ => ⟨by simp, fun _ => rfl⟩⟩
    intro l p l' s hl hs
    have hp := mem_triangle.1 (by simp [← hl] : p ∈ triangle n)
    unfold remplitColonne
    rw [List.filter_append]
    by_cases hmem : paire p ∈ L.map paire
    · -- the column exists: there are no more pairs than edges
      have hlt : (l.filter fun p => paire p ∈ L.map paire).length < (⟨n, voisinsDe L⟩ : Graphe).nbAretes := by
        have hle := length_paires_le hL
        rw [paires, ← hl, List.filter_append, List.filter_cons_of_pos (by simpa using hmem)] at hle
        rw [nbAretes_voisinsDe hL]
        simp only [List.length_append, List.length_cons] at hle
        omega
      obtain ⟨mat₁, mat₂, h₁, h₂, hs'⟩ := hs.ecrit hp.2 (hp.1.trans_lt hp.2) hlt
      rw [if_pos ((huns p.1 p.2).1 hmem), List.filter_cons_of_pos (by simpa using hmem), List.filter_nil, h₁]
      refine ⟨(mat₂, s.2 + 1), ?_, hs'⟩
      change (Graphe.ecrit n _ mat₁ p.2 s.2 1 >>= fun mat_inc => pure (mat_inc, s.2 + 1)) = _
      rw [h₂]
      rfl
    · have h0 : mat_adj p.1 p.2 = 0 := (huns p.1 p.2).2 hmem
      rw [if_neg (by omega), List.filter_cons_of_neg (by simpa using hmem), List.filter_nil, List.append_nil]
      exact ⟨s, rfl, hs⟩
  refine ⟨s.1, ?_, hcol.uns⟩
  rw [matriceInc, hadj]
  exact congrArg (· >>= fun s => pure s.1) hs

/-- the list of the edges of a graph that was built -/
theorem construit_dedans (h : construit a M = .ok g) : (0 < g.n ∧ g = ⟨g.n, voisinsDe (M.map arete)⟩) ∧
    ∀ e ∈ M.map arete, e.1 < g.n ∧ e.2 < g.n := by
  obtain ⟨ha, hM, rfl⟩ := construit_iff.1 h
  refine ⟨⟨by simp only; omega, rfl⟩, ?_⟩
  intro e he
  obtain ⟨f, hf, rfl⟩ := List.mem_map.1 he
  have := hM f hf
  simp only [arete]
  omega

theorem estIncidence_iff (hL : ∀ e ∈ L, e.1 < n ∧ e.2 < n) :
    (∃ mat, (⟨n, voisinsDe L⟩ : Graphe).matriceInc = .ok mat ∧ EstIncidence ⟨n, voisinsDe L⟩ L mat) ↔
      SansParalleles L := by
  obtain ⟨mat, hmat, huns⟩ := matriceInc_uns hL
  have hperm := paires_perm hL
  rw [hmat]
  apply Iff.intro
  · rintro ⟨mat', hmat', C, hC, -, hcol⟩
    obtain rfl := Except.ok.inj hmat'
    -- every column has a one, and only those of the pairs do
    have hlen : L.length ≤ (paires n L).length := by
      by_contra hlt
      have hc : (paires n L).length < C.length := by rw [hC.length_eq]; omega
      have hone := hcol _ _ (List.getElem?_eq_getElem hc) _ (hL _ (hC.subset (List.getElem_mem hc))).1
      rw [if_pos (.inl rfl), (huns _ _).2 (by simp)] at hone
      cases hone
    have hdedup : L.map paire = (L.map paire).dedup := by
      refine ((List.dedup_sublist _).eq_of_length_le ?_).symm
      rw [← hperm.length_eq, List.length_map, List.length_map]
      exact hlen
    rw [SansParalleles, hdedup]
    exact List.nodup_dedup _
  · intro hnodup
    rw [List.dedup_eq_self.2 hnodup] at hperm
    have hforall : List.Forall₂ (fun x e => x = paire e) (L.map paire) L :=
      List.forall₂_map_left_iff.2 (List.forall₂_same.2 fun _ _ => rfl)
    obtain ⟨C, hC, hCL⟩ := List.perm_comp_forall₂ hperm hforall
    refine ⟨mat, rfl, C, hCL, by rw [nbAretes_voisinsDe hL, hCL.length_eq], ?_⟩
    intro c e hc i _
    obtain ⟨hlt, rfl⟩ := List.getElem?_eq_some_iff.1 hc
    obtain ⟨hlen, hget⟩ := List.forall₂_iff_get.1 (List.forall₂_map_left_iff.1 hC)
    have hlt' : c < (paires n L).length := hlen ▸ hlt
    have hp : paire (paires n L)[c] = paire C[c] := hget c hlt' hlt
    have hends : i = C[c].1 ∨ i = C[c].2 ↔ ∃ p, (paires n L)[c]? = some p ∧ i ∈ paire p := by
      rw [List.getElem?_eq_getElem hlt']
      simp only [Option.some.injEq, exists_eq_left', hp]
      exact Sym2.mem_iff.symm
    split_ifs with hi
    · exact (huns i c).1 (hends.1 hi)
    · exact (huns i c).2 (hends.not.1 hi)

/-- **When the matrix is an incidence matrix**: exactly when no two edges are parallel. -/
theorem matriceInc_iff (h : construit a M = .ok g) :
    (∃ mat, g.matriceInc = .ok mat ∧ EstIncidence g (M.map arete) mat) ↔ SansParalleles (M.map arete) := by
  obtain ⟨⟨-, hg⟩, hL⟩ := construit_dedans h
  rw [hg]
  exact estIncidence_iff hL

theorem construit_segment (a : ℤ) (ha : 2 ≤ a) (k : ℕ) :
    construit a (List.replicate k (0, 1)) = .ok ⟨a.toNat, voisinsDe (List.replicate k (0, 1))⟩ := by
  refine construit_iff.2 ⟨by omega, ?_, by simp [arete]⟩
  intro e he
  rw [List.eq_of_mem_replicate he]
  simp only
  omega

theorem matriceInc_segment :
    (∃ mat, (⟨2, voisinsDe [(0, 1)]⟩ : Graphe).matriceInc = .ok mat ∧
      EstIncidence ⟨2, voisinsDe [(0, 1)]⟩ [(0, 1)] mat) ↔ SansParalleles [(0, 1)] :=
  matriceInc_iff (construit_segment 2 le_rfl 1)

/-- **A column of zeros**: the second of two parallel edges. -/
theorem arete_double : construit 2 [(0, 1), (0, 1)] = .ok ⟨2, voisinsDe [(0, 1), (0, 1)]⟩ ∧
    ¬ ∃ mat, (⟨2, voisinsDe [(0, 1), (0, 1)]⟩ : Graphe).matriceInc = .ok mat ∧
      EstIncidence ⟨2, voisinsDe [(0, 1), (0, 1)]⟩ [(0, 1), (0, 1)] mat := by
  refine ⟨construit_segment 2 le_rfl 2, ?_⟩
  intro hinc
  exact absurd ((estIncidence_iff (by decide)).1 hinc) (by decide)

/-! ## The complement -/

/-- the edges that a condition on the pairs adds -/
theorem foldlM_ajoute (P : ℕ × ℕ → Prop) [DecidablePred P] (l : List (ℕ × ℕ)) (hl : ∀ p ∈ l, p.1 < n ∧ p.2 < n) :
    l.foldlM (fun (g : Graphe) p => if P p then g.ajouteArete p.1 p.2 else .ok g) ⟨n, fun _ => []⟩ =
      .ok ⟨n, voisinsDe (l.filter fun p => P p)⟩ := by
  obtain ⟨g, hg, rfl⟩ : ∃ g, l.foldlM (fun (g : Graphe) p => if P p then g.ajouteArete p.1 p.2 else .ok g)
      ⟨n, fun _ => []⟩ = .ok g ∧ g = ⟨n, voisinsDe (l.filter fun p => P p)⟩ := by
    refine foldlM_inv (fun l (g : Graphe) => g = ⟨n, voisinsDe (l.filter fun p => P p)⟩) l ?_ rfl
    rintro l₀ p l₁ g hlp rfl
    have hp := hl p (by simp [← hlp])
    by_cases hP : P p
    · refine ⟨_, (if_pos hP).trans (ajouteArete_iff.2 ⟨⟨?_, ?_⟩, rfl⟩), ?_⟩
      · simpa using hp.1
      · simpa using hp.2
      · congr 1
        funext v
        simp [List.filter_append, hP, voisinsDe, arete]
    · exact ⟨_, if_neg hP, by simp [List.filter_append, hP]⟩
  exact hg

/-- the pairs that no edge of `L` joins, those of a vertex with itself included -/
def libres (n : ℕ) (L : List (ℕ × ℕ)) : List (ℕ × ℕ) := (triangle n).filter fun p => paire p ∉ L.map paire

theorem libres_dedans {L : List (ℕ × ℕ)} : ∀ e ∈ libres n L, e.1 < n ∧ e.2 < n := by
  intro e he
  have := mem_triangle.1 (List.mem_filter.1 he).1
  omega

theorem nouveau_natCast (hn : 0 < n) : nouveau n = .ok ⟨n, fun _ => []⟩ := by
  rw [nouveau, if_neg (by omega), Int.toNat_natCast]

theorem voisin_dedans (hL : ∀ e ∈ L, e.1 < n ∧ e.2 < n) (h : j ∈ voisinsDe L i) : i < n ∧ j < n := by
  obtain ⟨e, he, hp⟩ := List.mem_map.1 (mem_voisinsDe.1 h)
  rcases Sym2.eq_iff.1 hp with ⟨rfl, rfl⟩ | ⟨rfl, rfl⟩
  · exact hL e he
  · exact (hL e he).symm

theorem complementaire_voisinsDe (hn : 0 < n) (hL : ∀ e ∈ L, e.1 < n ∧ e.2 < n) :
    (⟨n, voisinsDe L⟩ : Graphe).complementaire = .ok ⟨n, voisinsDe (libres n L)⟩ := by
  obtain ⟨mat, hmat, huns⟩ := matriceAdj_voisinsDe hL
  have hzero : ∀ p : ℕ × ℕ, mat p.1 p.2 = 0 ↔ paire p ∉ L.map paire := by
    intro p
    refine ⟨fun h0 hmem => ?_, (huns p.1 p.2).2⟩
    rw [(huns p.1 p.2).1 hmem] at h0
    cases h0
  have hboucle := foldlM_ajoute (n := n) (fun p => mat p.1 p.2 = 0) (triangle n) fun p hp => by
    have := mem_triangle.1 hp
    omega
  rw [complementaire, hmat]
  simp only [hzero] at hboucle
  change (nouveau n >>= _) = _
  rw [nouveau_natCast hn]
  simp only [hzero]
  exact hboucle

theorem mem_triangleStrict : p ∈ triangleStrict n ↔ p.2 < p.1 ∧ p.1 < n := by
  obtain ⟨i, j⟩ := p
  simp only [triangleStrict, List.mem_flatMap, List.mem_map, List.mem_range, Prod.mk.injEq]
  apply Iff.intro
  · rintro ⟨i', hi, j', hj, rfl, rfl⟩
    exact ⟨hj, hi⟩
  · rintro ⟨hj, hi⟩
    exact ⟨i, hi, j, hj, rfl, rfl⟩

theorem grapheComplet_voisinsDe (hn : 0 < n) : grapheComplet n = .ok ⟨n, voisinsDe (triangleStrict n)⟩ := by
  have hboucle := foldlM_ajoute (n := n) (fun p => p.1 ≠ p.2) (triangleStrict n) fun p hp => by
    have := mem_triangleStrict.1 hp
    omega
  have hfilter : (triangleStrict n).filter (fun p => p.1 ≠ p.2) = triangleStrict n := by
    refine List.filter_eq_self.2 fun p hp => ?_
    have := mem_triangleStrict.1 hp
    simp only [ne_eq, decide_not, Bool.not_eq_eq_eq_not, Bool.not_true, decide_eq_false_iff_not]
    omega
  rw [grapheComplet, nouveau_natCast hn, Int.toNat_natCast]
  rw [hfilter] at hboucle
  exact hboucle

theorem length_triangle (n : ℕ) : (triangle n).length = (triangleStrict n).length + n := by
  induction n with
  | zero => rfl
  | succ n ih =>
    rw [triangle, triangleStrict, List.range_succ, List.flatMap_append, List.flatMap_append, List.length_append,
      List.length_append]
    change (triangle n).length + _ = (triangleStrict n).length + _ + _
    simp only [List.flatMap_singleton, List.length_map, List.length_range]
    omega

theorem mem_voisinsDe_libres (hi : i < n) (hj : j < n) : j ∈ voisinsDe (libres n L) i ↔ j ∉ voisinsDe L i := by
  rw [mem_voisinsDe, mem_voisinsDe]
  obtain ⟨p, hp, hpe⟩ := exists_triangle hi hj
  apply Iff.intro
  · intro h
    obtain ⟨q, hq, hqe⟩ := List.mem_map.1 h
    rw [← hqe]
    simpa using (List.mem_filter.1 hq).2
  · intro h
    exact List.mem_map.2 ⟨p, List.mem_filter.2 ⟨hp, by simpa [hpe] using h⟩, hpe⟩

/-- the pairs of the triangle are those of an edge and the others -/
theorem length_libres (hL : ∀ e ∈ L, e.1 < n ∧ e.2 < n) (hs : SansParalleles L) :
    L.length + (libres n L).length = (triangle n).length := by
  have hpaires : (paires n L).length = L.length := by
    have h := (paires_perm hL).length_eq
    rwa [List.dedup_eq_self.2 hs, List.length_map, List.length_map] at h
  calc L.length + (libres n L).length = (paires n L).length + (libres n L).length := by rw [hpaires]
    _ = (triangle n).length := by
      rw [List.length_eq_length_filter_add (l := triangle n) fun p => decide (paire p ∈ L.map paire)]
      simp [paires, libres]

/-- the matrix depends on the neighbours only -/
theorem matriceAdj_congr {L' : List (ℕ × ℕ)} (hL : ∀ e ∈ L, e.1 < n ∧ e.2 < n) (hL' : ∀ e ∈ L', e.1 < n ∧ e.2 < n)
    (h : ∀ i < n, ∀ j < n, j ∈ voisinsDe L i ↔ j ∈ voisinsDe L' i) :
    (⟨n, voisinsDe L⟩ : Graphe).matriceAdj = (⟨n, voisinsDe L'⟩ : Graphe).matriceAdj := by
  obtain ⟨mat, hmat, huns⟩ := matriceAdj_voisinsDe hL
  obtain ⟨mat', hmat', huns'⟩ := matriceAdj_voisinsDe hL'
  rw [hmat, hmat', huns.ext (huns'.congr ?_)]
  intro a b
  rw [← mem_voisinsDe, ← mem_voisinsDe]
  by_cases hab : a < n ∧ b < n
  · exact (h a hab.1 b hab.2).symm
  · exact iff_of_false (fun hb => hab (voisin_dedans hL' hb)) fun hb => hab (voisin_dedans hL hb)

/-- **What the complement keeps**: two distinct vertices are joined in exactly one of the two graphs, both together have
the edges of the complete graph and one for each vertex, and complementing twice gives the matrix back. -/
theorem complementaire_reste (hn : 0 < n) (hL : ∀ e ∈ L, e.1 < n ∧ e.2 < n) (hs : SansParalleles L) :
    ∃ c k cc : Graphe, (⟨n, voisinsDe L⟩ : Graphe).complementaire = .ok c ∧ grapheComplet n = .ok k ∧
      c.complementaire = .ok cc ∧ (∀ i < n, ∀ j < n, j ∈ c.adjacence i ↔ j ∉ voisinsDe L i) ∧
      (⟨n, voisinsDe L⟩ : Graphe).nbAretes + c.nbAretes = k.nbAretes + n ∧
      cc.matriceAdj = (⟨n, voisinsDe L⟩ : Graphe).matriceAdj := by
  refine ⟨_, _, _, complementaire_voisinsDe hn hL, grapheComplet_voisinsDe hn,
    complementaire_voisinsDe hn libres_dedans, fun i hi j hj => mem_voisinsDe_libres hi hj, ?_, ?_⟩
  · have hstrict : ∀ e ∈ triangleStrict n, e.1 < n ∧ e.2 < n := by
      intro e he
      have := mem_triangleStrict.1 he
      omega
    calc (⟨n, voisinsDe L⟩ : Graphe).nbAretes + (⟨n, voisinsDe (libres n L)⟩ : Graphe).nbAretes
        = L.length + (libres n L).length := by rw [nbAretes_voisinsDe hL, nbAretes_voisinsDe libres_dedans]
      _ = (triangle n).length := length_libres hL hs
      _ = (triangleStrict n).length + n := length_triangle n
      _ = (⟨n, voisinsDe (triangleStrict n)⟩ : Graphe).nbAretes + n := by rw [nbAretes_voisinsDe hstrict]
  · refine matriceAdj_congr libres_dedans hL fun i hi j hj => ?_
    rw [mem_voisinsDe_libres hi hj, mem_voisinsDe_libres hi hj, not_not]

/-- the edges of `g` and of its complement partition those of the complete graph -/
def Partage (g : Graphe) : Prop := ∃ c k cc : Graphe, g.complementaire = .ok c ∧ grapheComplet g.n = .ok k ∧
  c.complementaire = .ok cc ∧ (∀ i < g.n, i ∉ c.adjacence i) ∧
  (∀ i < g.n, ∀ j < g.n, i ≠ j → (j ∈ g.adjacence i ↔ j ∉ c.adjacence i)) ∧
  g.nbAretes + c.nbAretes = k.nbAretes ∧ cc.matriceAdj = g.matriceAdj

def SansBoucles (g : Graphe) : Prop := ∀ i < g.n, i ∉ g.adjacence i

instance (g : Graphe) : Decidable (SansBoucles g) := by unfold SansBoucles; infer_instance

theorem not_partage (hn : 0 < n) (hL : ∀ e ∈ L, e.1 < n ∧ e.2 < n) (hb : 0 ∉ voisinsDe L 0) :
    ¬ Partage ⟨n, voisinsDe L⟩ := by
  rintro ⟨c, -, -, hc, -, -, hboucle, -⟩
  rw [complementaire_voisinsDe hn hL] at hc
  obtain rfl := Except.ok.inj hc
  exact hboucle 0 hn ((mem_voisinsDe_libres hn hn).2 hb)

/-- **The complement has loops**: `complementaire` reads the diagonal too, where the matrix of a graph without loops is
zero; every vertex gets one. -/
theorem complementaire_boucles (h : construit a M = .ok g) (hb : SansBoucles g) : ¬ Partage g := by
  obtain ⟨⟨hn, hg⟩, hL⟩ := construit_dedans h
  have h0 := hb 0 hn
  rw [hg] at h0 ⊢
  exact not_partage hn hL h0

theorem complementaire_boucles_deux : ¬ Partage ⟨2, voisinsDe [(0, 1)]⟩ :=
  complementaire_boucles (construit_segment 2 le_rfl 1) (by decide)

/-- **A loop on each vertex**: the complement of three vertices without edges. -/
theorem trois_boucles : construit 3 [] = .ok ⟨3, voisinsDe []⟩ ∧ SansBoucles ⟨3, voisinsDe []⟩ ∧
    SansParalleles [] ∧ ¬ Partage ⟨3, voisinsDe []⟩ :=
  ⟨construit_segment 3 (by decide) 0, by decide, by decide, not_partage (by decide) (by decide) (by decide)⟩

end Semestre6.NonOriente
