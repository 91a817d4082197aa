/-
GraphePondere.kruskal: the edges are taken from the lists of the graph itself, which the loop empties, lightest first;
one whose ends are in two classes is accepted, any other leaves the state as it is. The loop stops when the accepted
edges touch every vertex.

- `Suivi`: the invariant of the loop; the accepted edges `l` and those left `r` are the head and the tail of the sorted
  list of edges;
- `passe_suivi`: what one iteration does;
- `kruskal_invariant`: the edges of G, the classes of P and the edges left, after any number of iterations;
- `kruskal_iff`: on a connected graph the loop stops on a minimal spanning tree exactly when the n - 1 first edges have
  no cycle and the n - 2 first leave a vertex untouched.
Witnesses: `kruskal_invariant_triangle`, `kruskal_iff_triangle`, and `deux_aretes_disjointes`, where two cheap edges
touch every vertex.
-/
import Semestre6.Graphe.GraphePondere
import Semestre6.Graphe.Partition
import Semestre6.Lib.Boucle

namespace Semestre6.Graphe

open Boucle Minimum Multigraphe GraphePondere

/-- the locals of `kruskal`; `listeArete` is also the `adjacence` of the graph, changed in place -/
structure Etat where
  G : GraphePondere
  P : Partition
  listeArete : ℕ → List Arete
  poids : ℤ

/-- `(int)` of a double: towards zero, at most the extreme ints -/
def versInt (x : ℚ) : ℤ := max (-2147483648) (min 2147483647 (x.num.tdiv x.den))

def debut (g : GraphePondere) : Except String Etat := do
  let G ← nouveau g.n
  return { G, P := .nouvelle g.n, listeArete := g.adjacence, poids := 0 }

/-- the body of the while loop -/
def passe (g : GraphePondere) (s : Etat) : Except String Etat := do
  let a := arete_poids_min g.n s.listeArete
  if !s.P.sontConnectes a.unSommet a.autre then
    let G ← s.G.ajouteArete a
    return {
      G
      P := s.P.unir a.unSommet a.autre
      listeArete := suppression_arete s.listeArete a
      poids := versInt (s.poids + a.poids) }
  else
    return s

/-- after at most `k` iterations -/
def apres (g : GraphePondere) (k : ℕ) : Except String Etat := do
  let s ← debut g
  tours (fun s => !s.G.sommet_couvert) (passe g) k s

/-- the loop stops and `kruskal` returns `t` -/
def Renvoie (g t : GraphePondere) : Prop :=
  ∃ s s', debut g = .ok s ∧ Finit (fun s => !s.G.sommet_couvert) (passe g) s s' ∧ s'.G = t

/-! ## The invariant -/

abbrev Relies (l : List Arete) : ℕ → ℕ → Prop := Joint Arete.unSommet Arete.autre l

abbrev SansCycle (l : List Arete) : Prop := Foret Arete.unSommet Arete.autre l

/-- every vertex is an end of an edge of `l` -/
def Couvre (n : ℕ) (l : List Arete) : Prop := ∀ i < n, ∃ a ∈ l, a.unSommet = i ∨ a.autre = i

/-- `l` is accepted, in this order, and `r` is left -/
structure Suivi (n : ℕ) (L l r : List Arete) (s : Etat) : Prop where
  construite : construit n l = .ok s.G
  liste : s.listeArete = incidentes r
  ordre : tri L = l ++ tri r
  etiquete : Etiquete Arete.unSommet Arete.autre s.P.trouver l
  taille : s.P.n = n
  foret : SansCycle l
  /-- the condition of the loop held before the last acceptance -/
  decouvert : ∀ l' a, l = l' ++ [a] → ¬ Couvre n l'

variable {n k : ℕ} {L l r : List Arete} {g : GraphePondere} {s : Etat}

namespace Suivi

theorem perm (h : Suivi n L l r s) : L.Perm (l ++ r) :=
  (tri_perm L).symm.trans (h.ordre ▸ (tri_perm r).append_left l)

theorem mem (h : Suivi n L l r s) {e : Arete} (he : e ∈ r) : e ∈ L := h.perm.symm.subset (List.mem_append_right l he)

theorem sontConnectes_iff (h : Suivi n L l r s) (u v : ℕ) : s.P.sontConnectes u v = true ↔ Relies l u v := by
  rw [Partition.sontConnectes, decide_eq_true_iff]
  exact h.etiquete u v

theorem sommet_couvert_iff (h : Suivi n L l r s) : s.G.sommet_couvert = true ↔ Couvre n l := by
  obtain ⟨_, _, hG⟩ := construit_iff.1 h.construite
  rw [hG, GraphePondere.sommet_couvert_iff]
  rfl

theorem compte (h : Suivi n L l r s) : s.G.m + s.P.classes = n := by
  obtain ⟨_, hl, hG⟩ := construit_iff.1 h.construite
  have hcard := h.foret.card (V := Finset.range n) (by simpa using hl) h.etiquete
  rw [Finset.card_range, Nat.add_comm] at hcard
  rw [hG, Partition.classes, h.taille]
  exact hcard

end Suivi

theorem debut_suivi (hg : construit n L = .ok g) : ∃ s, debut g = .ok s ∧ Suivi n L [] L s := by
  obtain ⟨hn, hL, rfl⟩ := construit_iff.1 hg
  refine ⟨⟨⟨n, 0, fun _ => []⟩, .nouvelle n, incidentes L, 0⟩, ?_, ?_⟩
  · simp [debut, nouveau, Nat.not_lt.2 hn, bind, Except.bind, pure, Except.pure]
  · exact {
      construite := construit_iff.2 ⟨hn, by simp, rfl⟩
      liste := rfl
      ordre := rfl
      etiquete := etiquete_nil _ fun x y h => by simpa [Partition.trouver_nouvelle] using h
      taille := rfl
      foret := Foret.nil
      decouvert := fun l' a h => absurd h (by simp) }

/-- an edge left is the first of the lightest ones -/
theorem arete_poids_min_suivi (hL : ∀ e ∈ L, e.unSommet < n ∧ e.autre < n) (h : Suivi n L l r s) :
    arete_poids_min n s.listeArete = ⟨0, 0, 0, 1000000000⟩ ∨
      Premiere (arete_poids_min n s.listeArete) r := by
  rw [h.liste]
  by_cases hr : r = []
  · subst hr
    left
    have hnil : (List.range n).flatMap (incidentes []) = [] := List.flatMap_eq_nil_iff.2 fun _ _ => rfl
    rw [arete_poids_min, ← List.foldl_flatMap, hnil]
    rfl
  · obtain ⟨a, ha⟩ := exists_premier (r := fun x y => Arete.cle x ≤ Arete.cle y) hr
    rw [arete_poids_min_premier (fun e he => hL e (h.mem he)) ha]
    split_ifs
    · exact .inr ha
    · exact .inl rfl

/-- the state once the first of the lightest edges left is accepted; `w` is the weight -/
theorem Suivi.accepte {a : Arete} (hL : ∀ e ∈ L, e.unSommet < n ∧ e.autre < n) (h : Suivi n L l r s)
    (hp : Premiere a r) (hs : s.P.sontConnectes a.unSommet a.autre = false) (hc : s.G.sommet_couvert = false) :
    ∃ G, s.G.ajouteArete a = .ok G ∧ ∀ w, Suivi n L (l ++ [a]) (r.erase a)
      ⟨G, s.P.unir a.unSommet a.autre, suppression_arete s.listeArete a, w⟩ := by
  obtain ⟨hn, hl, hG⟩ := construit_iff.1 h.construite
  have ha := hL a (h.mem hp.mem)
  have hfor : ¬ Relies l a.unSommet a.autre := by
    intro hj
    rw [← h.sontConnectes_iff, hs] at hj
    exact Bool.false_ne_true hj
  have hajoute : s.G.ajouteArete a = .ok ⟨n, (l ++ [a]).length, incidentes (l ++ [a])⟩ := by
    rw [ajouteArete_iff, hG]
    refine ⟨ha, ?_⟩
    have hinc : incidentes (l ++ [a]) = fun i => incidentes l i ++ Arete.places i a := by
      funext i
      rw [incidentes_append, incidentes_cons]
      exact congrArg (incidentes l i ++ ·) (List.append_nil _)
    rw [hinc, List.length_append, List.length_singleton]
  have hperm : (a :: l).Perm (l ++ [a]) := (List.perm_append_singleton a l).symm
  refine ⟨_, hajoute, fun w => ⟨?_, ?_, ?_, ?_, h.taille, ?_, ?_⟩⟩
  · refine construit_iff.2 ⟨hn, ?_, rfl⟩
    intro e he
    rcases List.mem_append.1 he with he | he
    · exact hl e he
    · rw [List.mem_singleton.1 he]
      exact ha
  · rw [h.liste, suppression_incidentes hp.mem]
  · rw [h.ordre, tri_premiere hp, List.append_assoc, List.singleton_append]
  · intro x y
    rw [Partition.trouver_unir, Partition.trouver_unir]
    exact (h.etiquete.fusionne a).perm hperm x y
  · exact (foret_cons_iff.2 ⟨h.foret, hfor⟩).perm hperm
  · intro l' b hb
    rw [← (List.append_inj' hb rfl).1, ← h.sommet_couvert_iff, hc]
    exact Bool.false_ne_true

/-- an iteration accepts the least edge left, or changes nothing -/
theorem passe_suivi (hg : construit n L = .ok g) (h : Suivi n L l r s) (hc : s.G.sommet_couvert = false) :
    (s.P.sontConnectes (arete_poids_min n s.listeArete).unSommet (arete_poids_min n s.listeArete).autre = true ∧
        passe g s = .ok s) ∨
      ∃ s' a, a = arete_poids_min n s.listeArete ∧ s.P.sontConnectes a.unSommet a.autre = false ∧
        Premiere a r ∧ passe g s = .ok s' ∧
        Suivi n L (l ++ [a]) (r.erase a) s' := by
  obtain ⟨_, hL, rfl⟩ := construit_iff.1 hg
  cases hs : s.P.sontConnectes (arete_poids_min n s.listeArete).unSommet (arete_poids_min n s.listeArete).autre with
  | true => exact .inl ⟨rfl, by simp [passe, hs, pure, Except.pure]⟩
  | false =>
    right
    have hp : Premiere (arete_poids_min n s.listeArete) r := by
      rcases arete_poids_min_suivi hL h with he | hp
      · -- the sentinel is a loop
        rw [he, Partition.sontConnectes] at hs
        simp [Arete.unSommet, Arete.autre] at hs
      · exact hp
    generalize ha : arete_poids_min n s.listeArete = a at hs hp
    obtain ⟨G, hajoute, h'⟩ := h.accepte hL hp hs hc
    have hpasse : passe ⟨n, L.length, incidentes L⟩ s = .ok ⟨G, s.P.unir a.unSommet a.autre,
        suppression_arete s.listeArete a, versInt (s.poids + a.poids)⟩ := by
      simp [passe, ha, hs, hajoute, bind, Except.bind, pure, Except.pure]
    exact ⟨_, a, rfl, hs, hp, hpasse, h' _⟩

theorem tours_suivi (hg : construit n L = .ok g) (h : Suivi n L [] L s) (k : ℕ) :
    ∃ t, tours (fun s => !s.G.sommet_couvert) (passe g) k s = .ok t ∧ ∃ l r, Suivi n L l r t := by
  have hstep : ∀ s, (∃ l r, Suivi n L l r s) → (!s.G.sommet_couvert) = true →
      ∃ s', passe g s = .ok s' ∧ ∃ l r, Suivi n L l r s' := by
    rintro s ⟨l, r, h⟩ hc
    rcases passe_suivi hg h (by simpa using hc) with ⟨_, hp⟩ | ⟨s', a, _, _, _, hp, h'⟩
    · exact ⟨s, hp, l, r, h⟩
    · exact ⟨s', hp, _, _, h'⟩
  exact tours_inv hstep ⟨_, _, h⟩ k

/-- the edge that the next iteration accepts, if any -/
def acceptee (g : GraphePondere) (s : Etat) : Option Arete :=
  let a := arete_poids_min g.n s.listeArete
  if !s.G.sommet_couvert && !s.P.sontConnectes a.unSommet a.autre then some a else none

/-- what holds between two iterations; `l` are the edges of G -/
structure Invariant (n : ℕ) (L l : List Arete) (g : GraphePondere) (s : Etat) : Prop where
  construite : construit n l = .ok s.G
  incluses : l.Subperm L
  foret : SansCycle l
  classes : ∀ u < n, ∀ v < n, s.P.sontConnectes u v = true ↔ Relies l u v
  compte : s.G.m + s.P.classes = n
  /-- an accepted edge goes to G, and none of those not yet accepted weighs less -/
  moindre : ∀ a, acceptee g s = some a → a ∈ L.diff l ∧ (∀ b ∈ L.diff l, a.poids ≤ b.poids) ∧
    ∃ s', passe g s = .ok s' ∧ construit n (l ++ [a]) = .ok s'.G

theorem Suivi.invariant (hg : construit n L = .ok g) (h : Suivi n L l r s) : Invariant n L l g s where
  construite := h.construite
  incluses := (List.sublist_append_left l r).subperm.trans h.perm.symm.subperm
  foret := h.foret
  classes u _ v _ := h.sontConnectes_iff u v
  compte := h.compte
  moindre := by
    intro a ha
    have hdiff : (L.diff l).Perm r := by
      have hl : l.Subperm L := (List.sublist_append_left l r).subperm.trans h.perm.symm.subperm
      have hsub := List.subperm_append_diff_self_of_count_le fun x _ => hl.count_le x
      exact (List.perm_append_left_iff l).1 (hsub.trans h.perm)
    have hgn : g.n = n := by
      obtain ⟨_, _, rfl⟩ := construit_iff.1 hg
      rfl
    simp only [acceptee, hgn] at ha
    split_ifs at ha with hc
    obtain ⟨hc, hs⟩ := Bool.and_eq_true _ _ ▸ hc
    rw [Option.some.injEq] at ha
    rcases passe_suivi hg h (by simpa using hc) with ⟨hs', _⟩ | ⟨s', b, hb, _, hp, hpasse, h'⟩
    · simp [hs'] at hs
    · obtain rfl : b = a := hb.trans ha
      refine ⟨hdiff.symm.subset (Premier.mem hp), ?_, s', hpasse, h'.construite⟩
      exact fun c hc => Premiere.poids_le hp (hdiff.subset hc)

theorem kruskal_invariant (hg : construit n L = .ok g) (k : ℕ) :
    ∃ s l, apres g k = .ok s ∧ Invariant n L l g s := by
  obtain ⟨s₀, hs₀, h₀⟩ := debut_suivi hg
  obtain ⟨s, hs, l, r, h⟩ := tours_suivi hg h₀ k
  refine ⟨s, l, ?_, h.invariant hg⟩
  rw [apres, hs₀]
  exact hs

/-- a triangle with a loop -/
theorem kruskal_invariant_triangle : ∃ g, ∃ s l,
    apres g 2 = .ok s ∧ Invariant 3 [⟨1, 0, 1, 2⟩, ⟨2, 1, 1, -1⟩, ⟨3, 1, 2, 1⟩, ⟨4, 2, 0, 1⟩] l g s :=
  ⟨_, kruskal_invariant (construit_iff.2 ⟨by decide, by decide, rfl⟩) 2⟩

/-! ## Spanning trees -/

structure ArbreCouvrant (n : ℕ) (L l : List Arete) : Prop where
  incluses : l.Subperm L
  foret : SansCycle l
  couvrant : ∀ u < n, ∀ v < n, Relies l u v

def total (l : List Arete) : ℚ := (l.map Arete.poids).sum

structure ArbreMinimal (n : ℕ) (L l : List Arete) : Prop extends ArbreCouvrant n L l where
  minimal : ∀ l', ArbreCouvrant n L l' → total l ≤ total l'

/-- `kruskal` terminates and returns a minimal spanning tree of the graph built from `L` -/
def Correct (n : ℕ) (L : List Arete) (g : GraphePondere) : Prop :=
  ∃ t l, Renvoie g t ∧ construit n l = .ok t ∧ ArbreMinimal n L l

/-- the n - 1 first edges have no cycle and the n - 2 first leave a vertex untouched -/
def Favorable (n : ℕ) (L : List Arete) : Prop :=
  SansCycle ((tri L).take (n - 1)) ∧ ¬ Couvre n ((tri L).take (n - 2))

theorem ArbreCouvrant.length (hL : ∀ e ∈ L, e.unSommet < n ∧ e.autre < n) (hn : 0 < n) (h : ArbreCouvrant n L l) :
    l.length + 1 = n := by
  have hl : ∀ e ∈ l, e.unSommet ∈ Finset.range n ∧ e.autre ∈ Finset.range n := by
    intro e he
    simpa using hL e (h.incluses.subset he)
  have hj := (h.foret.joints_iff hl ⟨0, Finset.mem_range.2 hn⟩).1 (by simpa using h.couvrant)
  rwa [Finset.card_range] at hj

theorem favorable_of_correct (hn : 2 ≤ n) (hg : construit n L = .ok g) (h : Correct n L g) : Favorable n L := by
  obtain ⟨t, lt, ⟨s, s', hs, hfin, rfl⟩, ht, harbre⟩ := h
  obtain ⟨_, hL, _⟩ := construit_iff.1 hg
  obtain ⟨s₀, hs₀, h₀⟩ := debut_suivi hg
  rw [hs₀, Except.ok.injEq] at hs
  subst hs
  obtain ⟨k, hk, _⟩ := hfin
  obtain ⟨s₁, hs₁, l, r, h⟩ := tours_suivi hg h₀ k
  rw [hk, Except.ok.injEq] at hs₁
  subst hs₁
  -- G has as many edges as any spanning tree, so the accepted edges are the n - 1 first
  have hlen : l.length = n - 1 := by
    obtain ⟨_, _, hG⟩ := construit_iff.1 h.construite
    obtain ⟨_, _, hG'⟩ := construit_iff.1 ht
    have hm : l.length = lt.length := by
      rw [hG, GraphePondere.mk.injEq] at hG'
      exact hG'.2.1
    have := harbre.toArbreCouvrant.length hL (by omega)
    omega
  have htake : (tri L).take (n - 1) = l := by rw [h.ordre, ← hlen, List.take_left]
  refine ⟨htake ▸ h.foret, ?_⟩
  obtain ⟨l', a, hla⟩ : ∃ l' a, l = l' ++ [a] := by
    have hne : l ≠ [] := List.length_pos_iff.1 (by omega)
    exact ⟨_, _, (List.dropLast_append_getLast hne).symm⟩
  have htake' : (tri L).take (n - 2) = l' := by
    have hlen' : l'.length = n - 2 := by
      rw [hla, List.length_append, List.length_singleton] at hlen
      omega
    rw [h.ordre, hla, ← hlen', List.append_assoc, List.take_left]
  rw [htake']
  exact h.decouvert l' a hla

/-- as long as the head of the sorted list has no cycle and leaves a vertex untouched, it is what G holds -/
theorem tours_favorable (hg : construit n L = .ok g) (hp : ∀ e ∈ L, e.poids < 1000000000) (hlen : n ≤ L.length + 1)
    (hfav : Favorable n L) (h : Suivi n L [] L s) (hk : k ≤ n - 1) :
    ∃ t r, tours (fun s => !s.G.sommet_couvert) (passe g) k s = .ok t ∧ Suivi n L ((tri L).take k) r t := by
  obtain ⟨_, hL, hgn⟩ := construit_iff.1 hg
  induction k with
  | zero => exact ⟨s, L, rfl, h⟩
  | succ k ih =>
    obtain ⟨t, r, ht, h'⟩ := ih (by omega)
    have hsub : (tri L).take k ⊆ (tri L).take (n - 2) := (List.take_prefix_take_left (by omega)).subset
    have hc : t.G.sommet_couvert = false := by
      rw [← Bool.not_eq_true, h'.sommet_couvert_iff]
      intro hcouvre
      apply hfav.2
      intro i hi
      obtain ⟨a, ha, hai⟩ := hcouvre i hi
      exact ⟨a, hsub ha, hai⟩
    have hr : r ≠ [] := by
      rintro rfl
      have hlen' := congrArg List.length h'.ordre
      simp only [List.length_append, List.length_take, tri_length, List.length_nil] at hlen'
      omega
    obtain ⟨a, ha⟩ := exists_premier (r := fun x y => Arete.cle x ≤ Arete.cle y) hr
    have htri : tri L = (tri L).take k ++ a :: tri (r.erase a) := by
      rw [← tri_premiere ha]
      exact h'.ordre
    have htake : (tri L).take (k + 1) = (tri L).take k ++ [a] := by
      have hk : ((tri L).take k).length = k := by
        rw [List.length_take, tri_length]
        omega
      conv_lhs => rw [htri]
      rw [List.take_append, hk]
      simp
    have hmin : arete_poids_min n t.listeArete = a := by
      rw [h'.liste, arete_poids_min_premier (fun e he => hL e (h'.mem he)) ha, if_pos (hp a (h'.mem ha.mem))]
    have hfor : SansCycle (a :: (tri L).take k) := by
      have hsp : ((tri L).take (k + 1)).Subperm ((tri L).take (n - 1)) :=
        (List.take_prefix_take_left hk).sublist.subperm
      exact (hfav.1.of_subperm (htake ▸ hsp)).perm (List.perm_append_singleton a _)
    rcases passe_suivi hg h' hc with ⟨hs, _⟩ | ⟨s', b, hb, _, _, hpasse, h''⟩
    · -- a rejected edge would close a cycle
      rw [hmin, h'.sontConnectes_iff] at hs
      exact absurd hs (foret_cons_iff.1 hfor).2
    · obtain rfl : b = a := hb.trans hmin
      refine ⟨s', r.erase b, ?_, htake ▸ h''⟩
      rw [tours_add ht, tours_of_cond (by simp [hc]) hpasse]
      rfl

theorem correct_of_favorable (hn : 2 ≤ n) (hg : construit n L = .ok g) (hconn : ∀ u < n, ∀ v < n, Relies L u v)
    (hp : ∀ e ∈ L, e.poids < 1000000000) (hfav : Favorable n L) : Correct n L g := by
  obtain ⟨_, hL, _⟩ := construit_iff.1 hg
  have hrange : ∀ e ∈ L, e.unSommet ∈ Finset.range n ∧ e.autre ∈ Finset.range n := by simpa using hL
  have hlen : n ≤ L.length + 1 := by
    have hle := length_of_joints hrange ⟨0, Finset.mem_range.2 (by omega)⟩ (by simpa using hconn)
    rwa [Finset.card_range] at hle
  obtain ⟨s₀, hs₀, h₀⟩ := debut_suivi hg
  obtain ⟨s, r, hs, h⟩ := tours_favorable hg hp hlen hfav h₀ (le_refl (n - 1))
  have hl : ((tri L).take (n - 1)).length = n - 1 := by
    rw [List.length_take, tri_length]
    omega
  have hsub : ((tri L).take (n - 1)).Subperm L := (List.take_sublist _ _).subperm.trans (tri_perm L).subperm
  have harbre : ArbreCouvrant n L ((tri L).take (n - 1)) := by
    refine ⟨hsub, hfav.1, ?_⟩
    have hmem : ∀ e ∈ (tri L).take (n - 1), e.unSommet ∈ Finset.range n ∧ e.autre ∈ Finset.range n :=
      fun e he => hrange e (hsub.subset he)
    have hj := (hfav.1.joints_iff hmem ⟨0, Finset.mem_range.2 (by omega)⟩).2
    rw [hl, Finset.card_range] at hj
    simpa using hj (by omega)
  -- every vertex is joined to another, so it is an end of some edge: the loop stops
  have hcouvre : s.G.sommet_couvert = true := by
    rw [h.sommet_couvert_iff]
    intro i hi
    obtain ⟨j, hj, hij⟩ : ∃ j < n, i ≠ j := by
      by_cases h0 : i = 0
      · exact ⟨1, by omega, by omega⟩
      · exact ⟨0, by omega, h0⟩
    exact (harbre.couvrant i hi j hj).exists_mem hij
  refine ⟨s.G, _, ⟨s₀, s, hs₀, ⟨n - 1, hs, by simp [hcouvre]⟩, rfl⟩, h.construite, harbre, ?_⟩
  intro l' h'
  have hlen' : l'.length = n - 1 := by
    have := h'.length hL (by omega)
    omega
  have hsum := sum_take_le (tri_pairwise L) (h'.incluses.trans (tri_perm L).symm.subperm)
  rwa [hlen'] at hsum

theorem kruskal_iff (hn : 2 ≤ n) (hg : construit n L = .ok g) (hconn : ∀ u < n, ∀ v < n, Relies L u v)
    (hp : ∀ e ∈ L, e.poids < 1000000000) : Correct n L g ↔ Favorable n L :=
  ⟨favorable_of_correct hn hg, correct_of_favorable hn hg hconn hp⟩

/-- a vertex joined to all the others -/
theorem relies_of_zero (h : ∀ u < n, Relies L 0 u) : ∀ u < n, ∀ v < n, Relies L u v :=
  fun u hu v hv => (h u hu).symm.trans _ _ _ (h v hv)

theorem relies_of_mem (a : Arete) (ha : a ∈ L) : Relies L a.v a.w := joint_of_mem ha

theorem kruskal_iff_triangle : ∃ g, Correct 3 [⟨1, 0, 1, 1⟩, ⟨2, 1, 2, 1⟩, ⟨3, 2, 0, 3⟩] g := by
  have hfor : SansCycle [⟨1, 0, 1, 1⟩, ⟨2, 1, 2, 1⟩] := by
    refine foret_cons_iff.2 ⟨foret_cons_iff.2 ⟨Foret.nil, fun h => ?_⟩, fun h => ?_⟩
    · exact absurd (h.congr id (by simp)) (by decide)
    · exact absurd (h.congr (fun u => decide (u = 0)) (by decide)) (by decide)
  have hconn : ∀ u < 3, Relies [⟨1, 0, 1, 1⟩, ⟨2, 1, 2, 1⟩, ⟨3, 2, 0, 3⟩] 0 u := by
    intro u hu
    interval_cases u
    · exact .refl 0
    · exact relies_of_mem ⟨1, 0, 1, 1⟩ (by decide)
    · exact (relies_of_mem ⟨3, 2, 0, 3⟩ (by decide)).symm
  refine ⟨_, (kruskal_iff (by decide) (construit_iff.2 ⟨by decide, by decide, rfl⟩) (relies_of_zero hconn)
    (by decide)).2 ⟨?_, ?_⟩⟩
  · rwa [show (tri [⟨1, 0, 1, 1⟩, ⟨2, 1, 2, 1⟩, ⟨3, 2, 0, 3⟩]).take 2 = [⟨1, 0, 1, 1⟩, ⟨2, 1, 2, 1⟩] by decide]
  · unfold Couvre
    decide

/-- 0-1 and 2-3 weigh 1 and touch every vertex: 1-2 is never taken -/
theorem deux_aretes_disjointes : ∃ g, construit 4 [⟨1, 0, 1, 1⟩, ⟨2, 2, 3, 1⟩, ⟨3, 1, 2, 2⟩] = .ok g ∧
    (∀ u < 4, ∀ v < 4, Relies [⟨1, 0, 1, 1⟩, ⟨2, 2, 3, 1⟩, ⟨3, 1, 2, 2⟩] u v) ∧
    (∀ e ∈ [(⟨1, 0, 1, 1⟩ : Arete), ⟨2, 2, 3, 1⟩, ⟨3, 1, 2, 2⟩], e.poids < 1000000000) ∧
    ¬ Correct 4 [⟨1, 0, 1, 1⟩, ⟨2, 2, 3, 1⟩, ⟨3, 1, 2, 2⟩] g := by
  have hg : construit 4 [⟨1, 0, 1, 1⟩, ⟨2, 2, 3, 1⟩, ⟨3, 1, 2, 2⟩] = .ok ⟨4, 3, _⟩ :=
    construit_iff.2 ⟨by decide, by decide, rfl⟩
  refine ⟨_, hg, relies_of_zero ?_, by decide, fun h => (favorable_of_correct (by decide) hg h).2 ?_⟩
  · intro u hu
    have h₁ := relies_of_mem (L := [⟨1, 0, 1, 1⟩, ⟨2, 2, 3, 1⟩, ⟨3, 1, 2, 2⟩]) ⟨1, 0, 1, 1⟩ (by decide)
    have h₂ := relies_of_mem (L := [⟨1, 0, 1, 1⟩, ⟨2, 2, 3, 1⟩, ⟨3, 1, 2, 2⟩]) ⟨3, 1, 2, 2⟩ (by decide)
    have h₃ := relies_of_mem (L := [⟨1, 0, 1, 1⟩, ⟨2, 2, 3, 1⟩, ⟨3, 1, 2, 2⟩]) ⟨2, 2, 3, 1⟩ (by decide)
    interval_cases u
    · exact .refl 0
    · exact h₁
    · exact h₁.trans _ _ _ h₂
    · exact (h₁.trans _ _ _ h₂).trans _ _ _ h₃
  · unfold Couvre
    decide

end Semestre6.Graphe
