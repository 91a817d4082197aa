/-
GraphePondere.kruskal seen from the graph it is called on: `listeArete` and `renvoi` are other names of its
`adjacence`, and `suppression_arete` removes from it.

- `Atteint`: the graphs of a program, built and changed by `ajouteArete` and by earlier calls of `kruskal`;
- `kruskal_forme`: a call that returns leaves the edges it has not accepted, and it has accepted one;
- `kruskal_partage`: each list is shared between the tree returned and the graph left;
- `kruskal_modifie`: no call that returns leaves the graph as it was, nor its lists in accord with `getM`.

Witness: `kruskal_modifie_segment`, a graph with one edge.
-/
import Semestre6.Graphe.Kruskal

namespace Semestre6.Graphe

open Boucle Multigraphe GraphePondere

namespace GraphePondere

def getM (g : GraphePondere) : ℕ := g.m

/-- an unmodifiable view of the list, which follows its changes -/
def voisins (g : GraphePondere) (v : ℕ) : Except String (List Arete) := do
  g.verifieSommet v
  return g.adjacence v

end GraphePondere

/-- `kruskal` called on `g` returns `t` and leaves `g'` -/
def Kruskal (g t g' : GraphePondere) : Prop :=
  ∃ s s', debut g = .ok s ∧ Finit (fun s => !s.G.sommet_couvert) (passe g) s s' ∧ s'.G = t ∧
    { g with adjacence := s'.listeArete } = g'

inductive Atteint : GraphePondere → Prop
  | nouveau {n g} : nouveau n = .ok g → Atteint g
  | ajouteArete {g e g'} : Atteint g → g.ajouteArete e = .ok g' → Atteint g'
  | kruskal {g t g'} : Atteint g → Kruskal g t g' → Atteint g'

/-- `voisins` gives the same edges, in any order -/
def MemesAretes (g g' : GraphePondere) : Prop :=
  ∀ v < g.n, ∃ l l', g.voisins v = .ok l ∧ g'.voisins v = .ok l' ∧ l.Perm l'

/-- every edge is in two of the lists of `voisins` -/
def Accord (g : GraphePondere) : Prop :=
  ∃ listes : ℕ → List Arete, (∀ v < g.n, g.voisins v = .ok (listes v)) ∧
    ∑ v ∈ Finset.range g.n, (listes v).length = 2 * g.getM

variable {n v : ℕ} {L : List Arete} {g t g' : GraphePondere}

/-! ## The lists of a graph of a program -/

theorem voisins_of_lt (h : v < g.n) : g.voisins v = .ok (g.adjacence v) := by
  simp [voisins, verifieSommet, Nat.not_le.2 h, bind, Except.bind, pure, Except.pure]

/-- the lists are those of the edges `L`; `m` counts as many or more -/
structure Forme (L : List Arete) (g : GraphePondere) : Prop where
  sommets : 0 < g.n
  bornes : ∀ e ∈ L, e.unSommet < g.n ∧ e.autre < g.n
  listes : g.adjacence = incidentes L
  compte : L.length ≤ g.m

/-- an edge is in the lists of its two ends, twice in one for a loop -/
theorem sum_length_places {e : Arete} (h : e.unSommet < n ∧ e.autre < n) :
    ∑ v ∈ Finset.range n, (Arete.places v e).length = 2 := by
  have hlen : ∀ v, (Arete.places v e).length = (if e.unSommet = v then 1 else 0) + if e.autre = v then 1 else 0 := by
    intro v
    unfold Arete.places
    split_ifs <;> rfl
  simp only [hlen, Finset.sum_add_distrib, Finset.sum_ite_eq, Finset.mem_range, if_pos h.1, if_pos h.2]

theorem sum_length_incidentes (hL : ∀ e ∈ L, e.unSommet < n ∧ e.autre < n) :
    ∑ v ∈ Finset.range n, (incidentes L v).length = 2 * L.length := by
  induction L with
  | nil => simp [incidentes]
  | cons e L ih =>
    obtain ⟨he, hL⟩ := List.forall_mem_cons.1 hL
    calc ∑ v ∈ Finset.range n, (incidentes (e :: L) v).length
        = ∑ v ∈ Finset.range n, (Arete.places v e).length + ∑ v ∈ Finset.range n, (incidentes L v).length := by
          rw [← Finset.sum_add_distrib]
          exact Finset.sum_congr rfl fun v _ => by rw [incidentes_cons, List.length_append]
      _ = 2 * (e :: L).length := by rw [sum_length_places he, ih hL, List.length_cons]; omega

theorem Forme.sum_length (h : Forme L g) : ∑ v ∈ Finset.range g.n, (g.adjacence v).length = 2 * L.length := by
  rw [h.listes]
  exact sum_length_incidentes h.bornes

theorem Forme.ajouteArete {e : Arete} (h : Forme L g) (he : g.ajouteArete e = .ok g') : Forme (L ++ [e]) g' := by
  obtain ⟨hn, rfl⟩ := ajouteArete_iff.1 he
  refine ⟨h.sommets, ?_, ?_, ?_⟩
  · intro a ha
    rcases List.mem_append.1 ha with ha | ha
    · exact h.bornes a ha
    · exact List.mem_singleton.1 ha ▸ hn
  · funext v
    rw [incidentes_append, h.listes, incidentes_cons]
    exact congrArg (incidentes L v ++ ·) (List.append_nil _).symm
  · rw [List.length_append, List.length_singleton]
    exact Nat.add_le_add_right h.compte 1

/-! ## One call -/

/-- **A call that returns** leaves the edges it has not accepted; the counter `m` stays. -/
theorem kruskal_forme (h : Forme L g) (hk : Kruskal g t g') :
    ∃ l r, L.Perm (l ++ r) ∧ l ≠ [] ∧ construit g.n l = .ok t ∧ Forme r g' ∧ g'.n = g.n ∧ g'.m = g.m := by
  obtain ⟨s, s', hs, ⟨k, hk, hcond⟩, rfl, rfl⟩ := hk
  obtain ⟨n, m, adjacence⟩ := g
  obtain rfl : adjacence = incidentes L := h.listes
  -- the loop does not read `m`
  have hg : construit n L = .ok ⟨n, L.length, incidentes L⟩ := construit_iff.2 ⟨h.sommets, h.bornes, rfl⟩
  obtain ⟨s₀, hs₀, h₀⟩ := debut_suivi hg
  obtain rfl : s = s₀ := Except.ok.inj (hs.symm.trans hs₀)
  obtain ⟨s₁, hs₁, l, r, h₁⟩ := tours_suivi hg h₀ k
  obtain rfl : s' = s₁ := Except.ok.inj (hk.symm.trans hs₁)
  refine ⟨l, r, h₁.perm, ?_, h₁.construite, ⟨h.sommets, fun e he => h.bornes e (h₁.mem he), h₁.liste, ?_⟩, rfl, rfl⟩
  · have hcouvre : Couvre n l := h₁.sommet_couvert_iff.1 (by simpa using hcond)
    obtain ⟨a, ha, -⟩ := hcouvre 0 h.sommets
    exact List.ne_nil_of_mem ha
  · have hlen := h₁.perm.length_eq
    rw [List.length_append] at hlen
    exact (by omega : r.length ≤ L.length).trans h.compte

theorem Atteint.forme (hg : Atteint g) : ∃ L, Forme L g := by
  induction hg with
  | @nouveau n g hg =>
    have hg' : construit n [] = .ok g := by simp [construit, hg, bind, Except.bind, pure, Except.pure]
    obtain ⟨hn, -, rfl⟩ := construit_iff.1 hg'
    exact ⟨[], hn, by simp, rfl, le_rfl⟩
  | ajouteArete _ he ih =>
    obtain ⟨L, h⟩ := ih
    exact ⟨_, h.ajouteArete he⟩
  | kruskal _ hk ih =>
    obtain ⟨L, h⟩ := ih
    obtain ⟨l, r, -, -, -, h', -⟩ := kruskal_forme h hk
    exact ⟨r, h'⟩

/-- **The lists are shared** between the tree and what is left of the graph. -/
theorem kruskal_partage (hg : Atteint g) (hk : Kruskal g t g') (v : ℕ) :
    (g.adjacence v).Perm (t.adjacence v ++ g'.adjacence v) := by
  obtain ⟨L, h⟩ := hg.forme
  obtain ⟨l, r, hperm, -, ht, h', -⟩ := kruskal_forme h hk
  obtain ⟨-, -, rfl⟩ := construit_iff.1 ht
  rw [h.listes, h'.listes, ← incidentes_append]
  exact hperm.flatMap_right _

theorem sum_voisins {listes : ℕ → List Arete} (h : ∀ v < g.n, g.voisins v = .ok (listes v)) :
    ∑ v ∈ Finset.range g.n, (listes v).length = ∑ v ∈ Finset.range g.n, (g.adjacence v).length := by
  apply Finset.sum_congr rfl
  intro v hv
  have hv := Finset.mem_range.1 hv
  have heq := h v hv
  rw [voisins_of_lt hv, Except.ok.injEq] at heq
  rw [heq]

theorem MemesAretes.sum_length (h : MemesAretes g g') (hn : g'.n = g.n) :
    ∑ v ∈ Finset.range g.n, (g.adjacence v).length = ∑ v ∈ Finset.range g'.n, (g'.adjacence v).length := by
  rw [hn]
  apply Finset.sum_congr rfl
  intro v hv
  have hv := Finset.mem_range.1 hv
  obtain ⟨a, b, ha, hb, hab⟩ := h v hv
  rw [voisins_of_lt hv, Except.ok.injEq] at ha
  rw [voisins_of_lt (hn.symm ▸ hv), Except.ok.injEq] at hb
  rw [ha, hb, hab.length_eq]

/-- the sum of the lengths of the lists falls -/
theorem kruskal_sum_lt (hg : Atteint g) (hk : Kruskal g t g') : g'.n = g.n ∧ g'.m = g.m ∧
    ∑ v ∈ Finset.range g'.n, (g'.adjacence v).length < ∑ v ∈ Finset.range g.n, (g.adjacence v).length ∧
    ∑ v ∈ Finset.range g.n, (g.adjacence v).length ≤ 2 * g.m := by
  obtain ⟨L, h⟩ := hg.forme
  obtain ⟨l, r, hperm, hne, -, h', hn, hm⟩ := kruskal_forme h hk
  have hlen : L.length = l.length + r.length := by rw [hperm.length_eq, List.length_append]
  have hpos := List.length_pos_iff.2 hne
  have hcompte := h.compte
  refine ⟨hn, hm, ?_, ?_⟩
  · rw [h.sum_length, h'.sum_length]
    omega
  · rw [h.sum_length]
    omega

theorem kruskal_aretes (hg : Atteint g) (hk : Kruskal g t g') : ¬ MemesAretes g g' := by
  intro hmemes
  obtain ⟨hn, -, hlt, -⟩ := kruskal_sum_lt hg hk
  exact absurd (hmemes.sum_length hn) hlt.ne'

theorem kruskal_accord (hg : Atteint g) (hk : Kruskal g t g') : ¬ Accord g' := by
  intro haccord
  obtain ⟨listes, hl, hsum⟩ := haccord
  obtain ⟨-, hm, hlt, hle⟩ := kruskal_sum_lt hg hk
  rw [sum_voisins hl, getM, hm] at hsum
  exact absurd hsum (hlt.trans_le hle).ne

/-- **The graph is changed** by every call that returns, and its lists do not agree with `getM` any more. -/
theorem kruskal_modifie (hg : Atteint g) (hk : Kruskal g t g') : ¬ MemesAretes g g' ∧ ¬ Accord g' :=
  ⟨kruskal_aretes hg hk, kruskal_accord hg hk⟩

/-! ### A graph with one edge -/

theorem atteint_foldlM (hg : Atteint g) (h : L.foldlM ajouteArete g = .ok g') : Atteint g' := by
  induction L generalizing g with
  | nil => exact Except.ok.inj h ▸ hg
  | cons e L ih =>
    rw [List.foldlM_cons] at h
    obtain ⟨g₁, he, h⟩ := ok_of_bind h
    exact ih (.ajouteArete hg he) h

theorem atteint_construit (h : construit n L = .ok g) : Atteint g := by
  unfold construit at h
  obtain ⟨g₀, hn, h⟩ := ok_of_bind h
  exact atteint_foldlM (.nouveau hn) h

theorem Renvoie.kruskal (h : Renvoie g t) : ∃ g', Kruskal g t g' := by
  obtain ⟨s, s', hs, hfin, ht⟩ := h
  exact ⟨_, s, s', hs, hfin, ht, rfl⟩

/-- the edge 0-1 -/
def segment : List Arete := [⟨0, 0, 1, 1⟩]

theorem segment_kruskal : ∃ g t g', construit 2 segment = .ok g ∧ Kruskal g t g' := by
  have hg : construit 2 segment = .ok ⟨2, 1, incidentes segment⟩ := construit_iff.2 ⟨by decide, by decide, rfl⟩
  have hconn : ∀ u < 2, Relies segment 0 u := by
    intro u hu
    interval_cases u
    · exact .refl 0
    · exact relies_of_mem ⟨0, 0, 1, 1⟩ List.mem_cons_self
  have hfor : SansCycle segment := foret_cons_iff.2 ⟨Foret.nil, fun h => absurd (h.congr id (by simp)) (by decide)⟩
  have hfav : Favorable 2 segment := ⟨hfor, by unfold Couvre; decide⟩
  obtain ⟨t, l, hrenvoie, -⟩ := correct_of_favorable le_rfl hg (relies_of_zero hconn) (by decide) hfav
  obtain ⟨g', hk⟩ := hrenvoie.kruskal
  exact ⟨_, t, g', hg, hk⟩

theorem kruskal_modifie_segment : ∃ g t g', construit 2 segment = .ok g ∧ Kruskal g t g' ∧
    ¬ MemesAretes g g' ∧ ¬ Accord g' := by
  obtain ⟨g, t, g', hg, hk⟩ := segment_kruskal
  exact ⟨g, t, g', hg, hk, kruskal_modifie (atteint_construit hg) hk⟩

/-- **The edge is gone** from the graph that has no other. -/
theorem segment_perdu : ∃ g t g', construit 2 segment = .ok g ∧ Kruskal g t g' ∧ Accord g ∧
    ¬ (MemesAretes g g' ∧ Accord g') := by
  obtain ⟨g, t, g', hg, hk⟩ := segment_kruskal
  refine ⟨g, t, g', hg, hk, ?_, ?_⟩
  · obtain ⟨-, hL, rfl⟩ := construit_iff.1 hg
    exact ⟨incidentes segment, fun v hv => voisins_of_lt hv, sum_length_incidentes hL⟩
  · intro h
    exact kruskal_aretes (atteint_construit hg) hk h.1

end Semestre6.Graphe
