/-
One bag and one pusher on a set `L` of cells: the legal moves, and the same game played one push at a time.

- `existeChemin_iff`, `existeChemin_chemin`: the search of `existe_chemin` ends and answers true exactly when a path of
  free cells leads there;
- `Coups L x n y`: legal play from `x` to `y` with `n` pushes, the pusher walking between them;
- `suivants`: what one push can lead to, in the order in which `successeurs` looks at the four cells around the bag;
- `chemin_iff`: a bag can be put somewhere with `n` pushes exactly when `n` steps of `suivants` put it there;
- `heuristique_consistante`, `heuristique_parents`: the Manhattan distance falls by one at most at a push, and all the
  predecessors of a position have their bag on the cell where its pusher stands.
-/
import Semestre6.Sokoban.FileAPriorite

namespace Semestre6.Sokoban

open MeilleurDabord Relation

namespace Moteur

/-! ## The search -/

/-- one step of the search -/
def Adjacent (m : Moteur) (v w : ℤ × ℤ) : Prop := w ∈ m.voisinsLibres v

/-- the queue holds cells that can be reached: so does the answer -/
theorem cherche_vrai (m : Moteur) (p but : ℤ × ℤ) (ens : List (ℤ × ℤ)) (marqued : Finset (ℤ × ℤ))
    (hens : ∀ c ∈ ens, ReflTransGen m.Adjacent p c) (h : m.cherche but ens marqued = .ok true) :
    ReflTransGen m.Adjacent p but := by
  induction ens, marqued using cherche.induct m but with
  | case1 marqued => simp [cherche] at h
  | case2 marqued c ens hc hbut => exact (hens c (List.mem_cons_self ..)).tail hbut
  | case3 marqued c ens hc hbut he =>
    rw [cherche, dif_pos hc, if_neg hbut, if_pos he] at h
    cases h
  | case4 marqued c ens hc hbut he ih =>
    rw [cherche, dif_pos hc, if_neg hbut, if_neg he] at h
    refine ih ?_ h
    intro v hv
    rcases List.mem_append.1 hv with hv | hv
    · exact hens v (List.mem_cons_of_mem c hv)
    · exact (hens c (List.mem_cons_self ..)).tail (List.mem_filter.1 hv).1
  | case5 marqued c ens hc => simp [cherche, hc] at h

/-- the marked cells have no neighbour left out: without an answer no path leads to the cell -/
theorem cherche_faux (m : Moteur) (p but : ℤ × ℤ) (ens : List (ℤ × ℤ)) (marqued : Finset (ℤ × ℤ))
    (hp : p ∈ marqued ∨ p ∈ ens)
    (hclos : ∀ c ∈ marqued, but ∉ m.voisinsLibres c ∧ ∀ v ∈ m.voisinsLibres c, v ∈ marqued ∨ v ∈ ens)
    (h : m.cherche but ens marqued = .ok false) : ¬ TransGen m.Adjacent p but := by
  induction ens, marqued using cherche.induct m but with
  | case1 marqued => simp [cherche] at h
  | case2 marqued c ens hc hbut => simp [cherche, hc, hbut] at h
  | case3 marqued c ens hc hbut he =>
    -- the queue is empty: the marked cells are all that can be reached
    obtain ⟨rfl, hfree⟩ := List.append_eq_nil_iff.1 he
    have hvois : ∀ v ∈ m.voisinsLibres c, v ∈ insert c marqued := by
      intro v hv
      by_contra hn
      exact absurd (List.mem_filter.2 ⟨hv, by simpa using hn⟩) (hfree ▸ List.not_mem_nil)
    have hin : ∀ v ∈ insert c marqued, but ∉ m.voisinsLibres v ∧ ∀ w ∈ m.voisinsLibres v, w ∈ insert c marqued := by
      intro v hv
      rcases Finset.mem_insert.1 hv with rfl | hv
      · exact ⟨hbut, hvois⟩
      · refine ⟨(hclos v hv).1, fun w hw => ?_⟩
        rcases (hclos v hv).2 w hw with hw | hw
        · exact Finset.mem_insert_of_mem hw
        · rw [List.mem_singleton.1 hw]
          exact Finset.mem_insert_self c marqued
    have hreach : ∀ v, ReflTransGen m.Adjacent p v → v ∈ insert c marqued := by
      intro v hv
      induction hv with
      | refl =>
        rcases hp with hp | hp
        · exact Finset.mem_insert_of_mem hp
        · rw [List.mem_singleton.1 hp]
          exact Finset.mem_insert_self c marqued
      | tail _ hvw ih => exact (hin _ ih).2 _ hvw
    intro htrans
    obtain ⟨v, hv, hvb⟩ := TransGen.tail'_iff.1 htrans
    exact (hin v (hreach v hv)).1 hvb
  | case4 marqued c ens hc hbut he ih =>
    rw [cherche, dif_pos hc, if_neg hbut, if_neg he] at h
    refine ih ?_ ?_ h
    · rcases hp with hp | hp
      · exact .inl (Finset.mem_insert_of_mem hp)
      · rcases List.mem_cons.1 hp with rfl | hp
        · exact .inl (Finset.mem_insert_self _ marqued)
        · exact .inr (List.mem_append_left _ hp)
    · intro v hv
      have hfile : ∀ w, w ∈ m.voisinsLibres c → w ∈ insert c marqued ∨
          w ∈ ens ++ (m.voisinsLibres c).filter (· ∉ insert c marqued) := by
        intro w hw
        by_cases hin : w ∈ insert c marqued
        · exact .inl hin
        · exact .inr (List.mem_append_right _ (List.mem_filter.2 ⟨hw, by simpa using hin⟩))
      rcases Finset.mem_insert.1 hv with rfl | hv
      · exact ⟨hbut, hfile⟩
      · refine ⟨(hclos v hv).1, fun w hw => ?_⟩
        rcases (hclos v hv).2 w hw with hw | hw
        · exact .inl (Finset.mem_insert_of_mem hw)
        · rcases List.mem_cons.1 hw with rfl | hw
          · exact .inl (Finset.mem_insert_self _ marqued)
          · exact .inr (List.mem_append_left _ hw)
  | case5 marqued c ens hc => simp [cherche, hc] at h

/-- a path of free cells, the first cell aside -/
theorem existeChemin_iff (m : Moteur) {p c : ℤ × ℤ} (hp : m.t.Dans p.1 p.2) :
    m.existeChemin p.1 p.2 c.1 c.2 = .ok true ↔ ReflTransGen m.Adjacent p c := by
  unfold existeChemin
  by_cases hpc : p.1 = c.1 ∧ p.2 = c.2
  · obtain rfl : p = c := Prod.ext hpc.1 hpc.2
    simp [ReflTransGen.refl]
  · rw [if_neg hpc]
    constructor
    · exact cherche_vrai m p c _ _ (by simp [ReflTransGen.refl])
    · intro h
      have hne : p ≠ c := fun h => hpc ⟨congrArg Prod.fst h, congrArg Prod.snd h⟩
      have htrans : TransGen m.Adjacent p c := (reflTransGen_iff_eq_or_transGen.1 h).resolve_left (Ne.symm hne)
      obtain ⟨b, hb⟩ := cherche_ok m c [p] ∅ (by simp) (by simpa using hp)
      cases b with
      | true => exact hb
      | false => exact absurd htrans (cherche_faux m p c _ _ (.inr (by simp)) (by simp) hb)

/-- two cells that share a side -/
def Voisines (v w : ℤ × ℤ) : Prop := (v.1 = w.1 ∧ |v.2 - w.2| = 1) ∨ (v.2 = w.2 ∧ |v.1 - w.1| = 1)

/-- a cell of the board that is LIBRE or BUT -/
def Libre (t : Terrain) (c : ℤ × ℤ) : Prop := t.terrain c.1 c.2 = some .libre ∨ t.terrain c.1 c.2 = some .but

/-- the four directions written out in the source are the four cells that share a side -/
theorem mem_voisins_iff {v w : ℤ × ℤ} : w ∈ voisins v ↔ Voisines v w := by
  simp only [voisins, Voisines, List.mem_cons, List.not_mem_nil, or_false, Prod.ext_iff, abs_eq zero_le_one]
  omega

theorem adjacent_iff {m : Moteur} {v w : ℤ × ℤ} : m.Adjacent v w ↔ Voisines v w ∧ Libre m.t w := by
  have hlibre : m.estPossible w.1 w.2 = true ↔ Libre m.t w := by
    rw [estPossible_iff, Libre]
    apply Iff.intro
    · intro h
      obtain ⟨k, hk, hl⟩ := h
      rw [hk, Option.some.injEq, Option.some.injEq]
      exact (Case.estLibre_iff k).1 hl
    · intro h
      exact h.elim (fun h => ⟨_, h, rfl⟩) fun h => ⟨_, h, rfl⟩
  rw [Adjacent, voisinsLibres, List.mem_filter, mem_voisins_iff, hlibre]

theorem isChain_adjacent_iff {m : Moteur} {p : ℤ × ℤ} {l : List (ℤ × ℤ)} :
    (p :: l).IsChain m.Adjacent ↔ (p :: l).IsChain Voisines ∧ ∀ c ∈ l, Libre m.t c := by
  induction l generalizing p with
  | nil => simp
  | cons q l ih =>
    rw [List.isChain_cons_cons, List.isChain_cons_cons, ih, adjacent_iff, List.forall_mem_cons]
    tauto

/-- **The search.** From a cell of the board `existe_chemin` ends, reads inside the grid only, and answers true exactly
when the target is the start, or is free and joined to it by a path of cells all free after the start. -/
theorem existeChemin_chemin (m : Moteur) (i j buty butx : ℤ) (hdepart : m.t.Dans i j) :
    ∃ b, m.existeChemin i j buty butx = .ok b ∧
      (b = true ↔ (buty, butx) = (i, j) ∨ (Libre m.t (buty, butx) ∧ ∃ l : List (ℤ × ℤ),
        ((i, j) :: l).IsChain Voisines ∧ (∀ c ∈ l, Libre m.t c) ∧
        ((i, j) :: l).getLast (List.cons_ne_nil _ _) = (buty, butx))) := by
  obtain ⟨b, hb⟩ := m.existeChemin_ok i j buty butx hdepart
  refine ⟨b, hb, ?_⟩
  have hiff := m.existeChemin_iff (p := (i, j)) (c := (buty, butx)) hdepart
  simp only [hb, Except.ok.injEq] at hiff
  rw [hiff]
  apply Iff.intro
  · intro h
    obtain ⟨l, hl, hlast⟩ := List.exists_isChain_cons_of_relationReflTransGen h
    obtain ⟨hvois, hlibre⟩ := isChain_adjacent_iff.1 hl
    by_cases hne : l = []
    · subst hne
      exact .inl hlast.symm
    · rw [List.getLast_cons hne] at hlast
      have hmem : (buty, butx) ∈ l := hlast ▸ List.getLast_mem hne
      exact .inr ⟨hlibre _ hmem, l, hvois, hlibre, by rw [List.getLast_cons hne, hlast]⟩
  · intro h
    apply h.elim
    · intro h
      rw [h]
    · intro h
      obtain ⟨-, l, hvois, hlibre, hlast⟩ := h
      exact List.relationReflTransGen_of_exists_isChain_cons l (isChain_adjacent_iff.2 ⟨hvois, hlibre⟩) hlast

theorem existeChemin_chemin_couloir :
    ∃ b, (nouveau (Terrain.deLignes 3 1 [[.pousseur, .libre, .but]])).existeChemin 0 0 0 2 = .ok b ∧
      (b = true ↔ ((0, 2) : ℤ × ℤ) = (0, 0) ∨
        (Libre (nouveau (Terrain.deLignes 3 1 [[.pousseur, .libre, .but]])).t (0, 2) ∧ ∃ l : List (ℤ × ℤ),
          ((0, 0) :: l).IsChain Voisines ∧
          (∀ c ∈ l, Libre (nouveau (Terrain.deLignes 3 1 [[.pousseur, .libre, .but]])).t c) ∧
          ((0, 0) :: l).getLast (List.cons_ne_nil _ _) = (0, 2))) :=
  existeChemin_chemin _ 0 0 0 2 (by decide)

end Moteur

/-! ## The legal moves -/

variable (L : Finset (ℤ × ℤ))

/-- a step of the pusher, the bag on `s` -/
def Pas (s v w : ℤ × ℤ) : Prop := w ∈ Moteur.voisins v ∧ w ∈ L ∧ w ≠ s

/-- `n` pushes lead from `x` to a position; the pusher walks on the cells of `L`, the bag is pushed onto one of them -/
inductive Coups (x : SacPousseur) : ℕ → SacPousseur → Prop
  | debut : Coups x 0 x
  | marche {n s p q} : Coups x n (s, p) → Pas L s p q → Coups x n (s, q)
  | pousse {n s} {d : Direction} : Coups x n (s, s - d.decalage) → s + d.decalage ∈ L →
      Coups x (n + 1) (s + d.decalage, s)

/-- the pusher can go behind the bag and the bag can go ahead -/
def Poussable (x : SacPousseur) (d : Direction) : Prop :=
  x.1 - d.decalage ∈ L ∧ ReflTransGen (Pas L x.1) x.2 (x.1 - d.decalage) ∧ x.1 + d.decalage ∈ L

open Classical in
/-- the positions after one push -/
noncomputable def suivants (x : SacPousseur) : List SacPousseur :=
  ([Direction.sud, .nord, .ouest, .est].filter fun d => Poussable L x d).map fun d => (x.1 + d.decalage, x.1)

variable {L} {x y z : SacPousseur} {n : ℕ}

theorem mem_suivants : z ∈ suivants L x ↔ ∃ d, Poussable L x d ∧ z = (x.1 + d.decalage, x.1) := by
  simp only [suivants, List.mem_map, List.mem_filter, decide_eq_true_eq]
  constructor
  · rintro ⟨d, ⟨_, hd⟩, rfl⟩
    exact ⟨d, hd, rfl⟩
  · rintro ⟨d, hd, rfl⟩
    exact ⟨d, ⟨by cases d <;> decide, hd⟩, rfl⟩

theorem decalage_injective : Function.Injective Direction.decalage := by
  intro d e h
  cases d <;> cases e <;> first | rfl | exact absurd h (by decide)

theorem suivants_nodup (x : SacPousseur) : (suivants L x).Nodup := by
  classical
  unfold suivants
  refine List.Nodup.map ?_ (List.Nodup.filter _ (by decide))
  intro d e h
  exact decalage_injective (add_left_cancel (Prod.mk.inj h).1)

theorem suivants_mem (hx : x ∈ L ×ˢ L) (hz : z ∈ suivants L x) : z ∈ L ×ˢ L := by
  obtain ⟨d, hd, rfl⟩ := mem_suivants.1 hz
  exact Finset.mem_product.2 ⟨hd.2.2, (Finset.mem_product.1 hx).1⟩

theorem Coups.marches {s p q : ℤ × ℤ} (hj : Coups L x n (s, p)) (h : ReflTransGen (Pas L s) p q) :
    Coups L x n (s, q) := by
  induction h with
  | refl => exact hj
  | tail _ hpas ih => exact ih.marche hpas

theorem coups_of_chemin (hc : Chemin (suivants L) x n y) : Coups L x n y := by
  induction hc with
  | zero => exact .debut
  | @pas n y z _ hz ih =>
    obtain ⟨d, ⟨_, hwalk, hahead⟩, rfl⟩ := mem_suivants.1 hz
    exact (Coups.marches ih hwalk).pousse hahead

/-- between two pushes the pusher has only walked -/
theorem chemin_of_coups (hx : x ∈ L ×ˢ L) (hj : Coups L x n y) :
    ∃ q, Chemin (suivants L) x n (y.1, q) ∧ (y.1, q) ∈ L ×ˢ L ∧ ReflTransGen (Pas L y.1) q y.2 := by
  induction hj with
  | debut => exact ⟨x.2, .zero, hx, .refl⟩
  | marche _ hpas ih =>
    obtain ⟨q, hc, hq, hwalk⟩ := ih
    exact ⟨q, hc, hq, hwalk.tail hpas⟩
  | @pousse n s d _ hahead ih =>
    obtain ⟨q, hc, hq, hwalk⟩ := ih
    obtain ⟨hs, hqL⟩ := Finset.mem_product.1 hq
    have hbehind : s - d.decalage ∈ L := by
      rcases hwalk.cases_tail with heq | ⟨v, _, hv⟩
      · have heq : s - d.decalage = q := heq
        exact heq ▸ hqL
      · exact hv.2.1
    have hz : (s + d.decalage, s) ∈ suivants L (s, q) := mem_suivants.2 ⟨d, ⟨hbehind, hwalk, hahead⟩, rfl⟩
    exact ⟨s, hc.pas hz, suivants_mem hq hz, .refl⟩

/-- where a bag can be put with `n` pushes -/
theorem chemin_iff (hx : x ∈ L ×ˢ L) (b : ℤ × ℤ) :
    (∃ y, Coups L x n y ∧ y.1 = b) ↔ ∃ y, Chemin (suivants L) x n y ∧ y.1 = b := by
  constructor
  · rintro ⟨y, hj, rfl⟩
    obtain ⟨q, hc, _⟩ := chemin_of_coups hx hj
    exact ⟨_, hc, rfl⟩
  · rintro ⟨y, hc, rfl⟩
    exact ⟨y, coups_of_chemin hc, rfl⟩

/-! ## The distance to the goal -/

/-- the Manhattan distance of the bag to cell `b` -/
def distance (b : ℤ × ℤ) (x : SacPousseur) : ℤ := Moteur.valAbsolue (x.1.1 - b.1) + Moteur.valAbsolue (x.1.2 - b.2)

theorem distance_zero {b : ℤ × ℤ} (h : x.1 = b) : distance b x = 0 := by
  simp [distance, h, Moteur.valAbsolue]

theorem heuristique_consistante (b : ℤ × ℤ) (x : SacPousseur) :
    ∀ z ∈ suivants L x, distance b x ≤ distance b z + 1 := by
  intro z hz
  obtain ⟨d, _, rfl⟩ := mem_suivants.1 hz
  simp only [distance, Moteur.valAbsolue, Prod.fst_add, Prod.snd_add]
  cases d <;> simp only [Direction.decalage] <;> split_ifs <;> omega

theorem heuristique_parents (b : ℤ × ℤ) (x y : SacPousseur) :
    ∀ z ∈ suivants L x, z ∈ suivants L y → distance b x = distance b y := by
  intro z hx hy
  obtain ⟨d, _, rfl⟩ := mem_suivants.1 hx
  obtain ⟨e, _, he⟩ := mem_suivants.1 hy
  have hxy : x.1 = y.1 := (Prod.mk.inj he).2
  rw [distance, distance, hxy]

end Semestre6.Sokoban
