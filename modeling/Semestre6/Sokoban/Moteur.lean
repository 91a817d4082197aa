/-
The game engine (Moteur.java): the board, the position of the pusher and the counters. `action` answers a click on a
cell: a walk to a free cell that `existe_chemin` reaches, a push of a bag next to the pusher, or a refusal.

The source's `t_chemin` is the board `t` itself (the constructor assigns one reference to the other), so the search
reads the same cells as the moves. The four push branches of `action` differ in their direction only: they are one
definition, `pousser`, applied to each direction's own offsets.

- `existeChemin_ok`: from a cell of the board the search ends and never indexes outside the grid;
- `marcher_spec`, `pousser_spec`: from a board whose only pusher stands where the engine has it, a walk and a push do
  not throw, and what they do to the set of cells of each layer;
- `action_cases`: all that a call on a cell of the board can do.
-/
import Semestre6.Sokoban.Terrain

namespace Semestre6.Sokoban

structure Moteur where
  t : Terrain
  lignePousseur : ℤ
  colonnePousseur : ℤ
  nbActions : ℤ
  nbMouvement : ℤ
  buti : ℤ
  butj : ℤ
  saci : ℤ
  sacj : ℤ

inductive Direction where
  | nord | ouest | sud | est
deriving DecidableEq, Repr

/-- the offset of the cell that a push in a direction moves the bag to -/
def Direction.decalage : Direction → ℤ × ℤ
  | .nord => (-1, 0)
  | .sud => (1, 0)
  | .est => (0, 1)
  | .ouest => (0, -1)

namespace Moteur

/-- one cell of the constructor's double loop -/
def repere (t : Terrain) (m : Moteur) (p : ℤ × ℤ) : Moteur :=
  if t.contientEn .pousseur p then { m with lignePousseur := p.1, colonnePousseur := p.2 }
  else if t.contientEn .but p then { m with buti := p.1, butj := p.2 }
  else if t.contientEn .sac p then { m with saci := p.1, sacj := p.2 }
  else m

/-- the constructor: the fields start at 0 and each cell of the board is looked at once -/
def nouveau (t : Terrain) : Moteur := t.positions.foldl (repere t) ⟨t, 0, 0, 0, 0, 0, 0, 0, 0⟩

/-! ## The search -/

/-- a cell of the board that is free; outside the rectangle there is no cell -/
def estPossible (m : Moteur) (i j : ℤ) : Bool :=
  match m.t.terrain i j with
  | some k => k.estLibre
  | none => false

/-- the bounds test alone -/
def estPossibleSansLibre (m : Moteur) (i j : ℤ) : Bool := decide (m.t.Dans i j)

/-- the neighbours of a cell in the order in which the search looks at them -/
def voisins (c : ℤ × ℤ) : List (ℤ × ℤ) := [(c.1 + 1, c.2), (c.1 - 1, c.2), (c.1, c.2 + 1), (c.1, c.2 - 1)]

/-- the free neighbours of a cell -/
def voisinsLibres (m : Moteur) (c : ℤ × ℤ) : List (ℤ × ℤ) := (voisins c).filter fun v => m.estPossible v.1 v.2

/-- one round of the search: the number of unmarked cells falls, or it stays and the queue holds one marked cell less -/
theorem cherche_decroit (m : Moteur) (c : ℤ × ℤ) (ens : List (ℤ × ℤ)) (marqued : Finset (ℤ × ℤ))
    (hc : m.t.Dans c.1 c.2) :
    Prod.Lex (· < ·) (· < ·)
      ((m.t.positions.toFinset \ insert c marqued).card,
        (ens ++ (m.voisinsLibres c).filter (· ∉ insert c marqued)).countP (· ∈ insert c marqued))
      ((m.t.positions.toFinset \ marqued).card, (c :: ens).countP (· ∈ marqued)) := by
  rw [Prod.lex_def]
  by_cases hm : c ∈ marqued
  · -- the cell was marked before: what joins the queue is unmarked
    right
    have h0 : ((m.voisinsLibres c).filter (· ∉ marqued)).countP (· ∈ marqued) = 0 := by simp [List.countP_eq_zero]
    simp only [Finset.insert_eq_of_mem hm, List.countP_append, h0, List.countP_cons, hm, decide_true, if_true, true_and]
    omega
  · left
    refine Finset.card_lt_card ((Finset.ssubset_iff_of_subset ?_).2 ⟨c, ?_, ?_⟩)
    · exact Finset.sdiff_subset_sdiff le_rfl (Finset.subset_insert c marqued)
    · simp [Terrain.mem_positions, hc, hm]
    · simp

/-- the do-while loop of `existe_chemin` on the queue `ens` and the marked cells `marqued`; a cell can be queued
several times before it is marked -/
def cherche (m : Moteur) (but : ℤ × ℤ) (ens : List (ℤ × ℤ)) (marqued : Finset (ℤ × ℤ)) : Except JException Bool :=
  match ens with
  | [] => .error .noSuchElement
  | c :: ens =>
    if _hc : m.t.Dans c.1 c.2 then
      if but ∈ m.voisinsLibres c then .ok true
      else if ens ++ (m.voisinsLibres c).filter (· ∉ insert c marqued) = [] then .ok false
      else cherche m but (ens ++ (m.voisinsLibres c).filter (· ∉ insert c marqued)) (insert c marqued)
    else .error .arrayIndexOutOfBounds
termination_by ((m.t.positions.toFinset \ marqued).card, ens.countP (· ∈ marqued))
decreasing_by exact cherche_decroit m c ens marqued _hc

def existeChemin (m : Moteur) (i j buty butx : ℤ) : Except JException Bool :=
  if i = buty ∧ j = butx then .ok true else m.cherche (buty, butx) [(i, j)] ∅

/-! ## The moves -/

/-- the direction in which the pusher, next to the bag at (i, j), would push it; the source returns -1 for none -/
def sacAdjacent (m : Moteur) (i j : ℤ) : Option Direction :=
  if m.estPossibleSansLibre (i + 1) j ∧ m.lignePousseur = i + 1 ∧ m.colonnePousseur = j then some .nord
  else if m.estPossibleSansLibre (i - 1) j ∧ m.lignePousseur = i - 1 ∧ m.colonnePousseur = j then some .sud
  else if m.estPossibleSansLibre i (j + 1) ∧ m.lignePousseur = i ∧ m.colonnePousseur = j + 1 then some .ouest
  else if m.estPossibleSansLibre i (j - 1) ∧ m.lignePousseur = i ∧ m.colonnePousseur = j - 1 then some .est
  else none

def valAbsolue (i : ℤ) : ℤ := if i < 0 then (-1) * i else i

def deplacement (i j k l : ℤ) : ℤ := valAbsolue (i - k) + valAbsolue (j - l)

/-- the walk branch of `action`, once the path is known to exist -/
def marcher (m : Moteur) (i j : ℤ) : Except JException Moteur := do
  let courante ← m.t.consulter m.lignePousseur m.colonnePousseur
  let courante ← courante.retrait .pousseur
  let t ← m.t.assigner courante m.lignePousseur m.colonnePousseur
  let courante ← t.consulter i j
  let courante ← courante.ajout .pousseur
  let t ← t.assigner courante i j
  .ok { m with
    t := t
    nbMouvement := m.nbMouvement + deplacement m.lignePousseur m.colonnePousseur i j
    lignePousseur := i
    colonnePousseur := j
    nbActions := m.nbActions + 1 }

/-- the value that a push writes on the arrival cell: a bag that reaches a goal is taken off and counted -/
def arriver (m : Moteur) (ks arrivee : Case) : Except JException (Case × Terrain) :=
  if arrivee.contient .but then (ks.retrait .sac).map fun s => (s, m.t.butAtteint) else .ok (ks, m.t)

/-- a push branch of `action`: the bag at (i, j) goes to (i + di, j + dj) and the pusher's own cell value is copied
onto (i, j) -/
def pousser (m : Moteur) (i j di dj : ℤ) : Except JException Moteur := do
  let kp ← m.t.consulter m.lignePousseur m.colonnePousseur
  let ks ← m.t.consulter i j
  let arrivee ← m.t.consulter (i + di) (j + dj)
  let (ks, t) ← m.arriver ks arrivee
  let t ← t.assigner ks (i + di) (j + dj)
  let t ← t.assigner kp i j
  let c ← kp.retrait .pousseur
  let t ← t.assigner c m.lignePousseur m.colonnePousseur
  .ok { m with
    t := t
    lignePousseur := m.lignePousseur + di
    colonnePousseur := m.colonnePousseur + dj
    nbMouvement := m.nbMouvement + 1 }

/-- a click on cell (i, j): the engine after it and the value returned -/
def action (m : Moteur) (i j : ℤ) : Except JException (Moteur × Bool) := do
  let k ← m.t.consulter i j
  if k.estLibre then
    if ← m.existeChemin m.lignePousseur m.colonnePousseur i j then
      (m.marcher i j).map fun m' => (m', true)
    else .ok (m, false)
  else if k.contient .sac then
    match m.sacAdjacent i j with
    | some d =>
      if m.estPossible (i + d.decalage.1) (j + d.decalage.2) then
        (m.pousser i j d.decalage.1 d.decalage.2).map fun m' => (m', true)
      else .ok (m, false)
    | none => .ok (m, false)
  else .ok (m, false)

/-! ## The search ends inside the grid -/

theorem estPossible_iff {m : Moteur} {i j : ℤ} :
    m.estPossible i j = true ↔ ∃ k, m.t.terrain i j = some k ∧ k.estLibre = true := by
  unfold estPossible
  cases h : m.t.terrain i j <;> simp

theorem mem_voisinsLibres {m : Moteur} {c v : ℤ × ℤ} (h : v ∈ m.voisinsLibres c) : m.t.Dans v.1 v.2 := by
  obtain ⟨k, hk, -⟩ := estPossible_iff.1 (List.mem_filter.1 h).2
  exact Terrain.dans_iff.2 ⟨k, hk⟩

/-- the loop invariant: the queue is not empty and holds cells of the grid only -/
theorem cherche_ok (m : Moteur) (but : ℤ × ℤ) (ens : List (ℤ × ℤ)) (marqued : Finset (ℤ × ℤ)) (hne : ens ≠ [])
    (hd : ∀ c ∈ ens, m.t.Dans c.1 c.2) : ∃ b, m.cherche but ens marqued = .ok b := by
  induction ens, marqued using cherche.induct m but with
  | case1 => exact absurd rfl hne
  | case2 marqued c ens hc hbut => exact ⟨true, by rw [cherche, dif_pos hc, if_pos hbut]⟩
  | case3 marqued c ens hc hbut he => exact ⟨false, by rw [cherche, dif_pos hc, if_neg hbut, if_pos he]⟩
  | case4 marqued c ens hc hbut he ih =>
    obtain ⟨b, hb⟩ := ih he fun v hv => by
      rcases List.mem_append.1 hv with hv | hv
      · exact hd v (List.mem_cons_of_mem c hv)
      · exact mem_voisinsLibres (List.mem_filter.1 hv).1
    exact ⟨b, by rw [cherche, dif_pos hc, if_neg hbut, if_neg he]; exact hb⟩
  | case5 marqued c ens hc => exact absurd (hd c List.mem_cons_self) hc

theorem existeChemin_ok (m : Moteur) (i j k l : ℤ) (h : m.t.Dans i j) : ∃ b, m.existeChemin i j k l = .ok b := by
  unfold existeChemin
  split_ifs
  · exact ⟨true, rfl⟩
  · exact cherche_ok m (k, l) _ ∅ (by simp) (by simpa using h)

/-! ## What a move does -/

/-- exactly one cell contains the pusher, the one the engine has -/
def Place (m : Moteur) : Prop := m.t.cellules .pousseur = {(m.lignePousseur, m.colonnePousseur)}

theorem Place.cellule {m : Moteur} (h : m.Place) :
    ∃ kp, m.t.terrain m.lignePousseur m.colonnePousseur = some kp ∧ kp.contient .pousseur = true := by
  have hm : (m.lignePousseur, m.colonnePousseur) ∈ m.t.cellules .pousseur := by rw [h]; simp
  exact Terrain.mem_cellules.1 hm

theorem Place.ailleurs {m : Moteur} (h : m.Place) {p : ℤ × ℤ} :
    p ∈ m.t.cellules .pousseur ↔ p = (m.lignePousseur, m.colonnePousseur) := by
  rw [h, Finset.mem_singleton]

/-- what a walk to (i, j) changes -/
structure Marche (m m' : Moteur) (i j : ℤ) : Prop where
  dans : ∀ k l, m'.t.Dans k l ↔ m.t.Dans k l
  place : m'.Place
  ligne : m'.lignePousseur = i
  colonne : m'.colonnePousseur = j
  nbBut : m'.t.nbBut = m.t.nbBut
  obstacles : m'.t.cellules .obstacle = m.t.cellules .obstacle
  sacs : m'.t.cellules .sac = m.t.cellules .sac
  buts : m'.t.cellules .but = m.t.cellules .but

theorem marcher_spec {m : Moteur} (hP : m.Place) {i j : ℤ} (hl : m.estPossible i j = true) :
    ∃ m', m.marcher i j = .ok m' ∧ Marche m m' i j := by
  obtain ⟨kp, hkp, hpp⟩ := hP.cellule
  obtain ⟨kl, hkl, hll⟩ := estPossible_iff.1 hl
  obtain ⟨kf, hkf, hfp, hfb⟩ := Case.ajout_pousseur hll
  have hdp : m.t.Dans m.lignePousseur m.colonnePousseur := Terrain.dans_iff.2 ⟨kp, hkp⟩
  have hdl : m.t.Dans i j := Terrain.dans_iff.2 ⟨kl, hkl⟩
  have hne : ¬(i = m.lignePousseur ∧ j = m.colonnePousseur) := by
    rintro ⟨rfl, rfl⟩
    rw [hkp, Option.some.injEq] at hkl
    rw [← hkl, (Case.pousseur_exclut hpp).2.2] at hll
    exact Bool.false_ne_true hll
  obtain ⟨hfs, hfo, -⟩ := Case.pousseur_exclut hfp
  obtain ⟨hls, hlp, hlo⟩ := Case.libre_exclut hll
  obtain ⟨hps, hpo, -⟩ := Case.pousseur_exclut hpp
  obtain ⟨hss, hsp, hso⟩ := Case.libre_exclut kp.sol_spec.2
  refine ⟨{ m with
    t := (m.t.pose kp.sol m.lignePousseur m.colonnePousseur).pose kf i j
    nbMouvement := m.nbMouvement + deplacement m.lignePousseur m.colonnePousseur i j
    lignePousseur := i
    colonnePousseur := j
    nbActions := m.nbActions + 1 }, ?_, ?_⟩
  · have hkl' : (m.t.pose kp.sol m.lignePousseur m.colonnePousseur).terrain i j = some kl := by
      rw [Terrain.pose_terrain hdp, if_neg hne, hkl]
    have hdl' : (m.t.pose kp.sol m.lignePousseur m.colonnePousseur).Dans i j := hdl
    simp only [marcher, Terrain.consulter_ok hkp, Case.retrait_pousseur hpp, Terrain.assigner_ok hdp,
      Terrain.consulter_ok hkl', hkf, Terrain.assigner_ok hdl', bind, Except.bind]
  · have hmem (c : Case) (p : ℤ × ℤ) :
        p ∈ ((m.t.pose kp.sol m.lignePousseur m.colonnePousseur).pose kf i j).cellules c ↔
        if p = (i, j) then kf.contient c = true
        else if p = (m.lignePousseur, m.colonnePousseur) then kp.sol.contient c = true
        else p ∈ m.t.cellules c := by
      rw [Terrain.mem_cellules_pose ((Terrain.pose_dans ..).2 hdl), Terrain.mem_cellules_pose hdp]
    have hpl (c : Case) (hc : kf.contient c = kl.contient c) (hc' : kp.sol.contient c = kp.contient c) :
        ((m.t.pose kp.sol m.lignePousseur m.colonnePousseur).pose kf i j).cellules c = m.t.cellules c := by
      ext p
      rw [hmem]
      split_ifs with h1 h2
      · rw [h1, Terrain.mem_cellules_of hkl, hc]
      · rw [h2, Terrain.mem_cellules_of hkp, hc']
      · rfl
    refine ⟨fun _ _ => Iff.rfl, ?_, rfl, rfl, rfl, hpl _ (by rw [hlo, hfo]) (by rw [hso, hpo]),
      hpl _ (by rw [hls, hfs]) (by rw [hss, hps]), hpl _ hfb kp.sol_spec.1⟩
    ext p
    rw [hmem, hfp, hsp, hP.ailleurs, Finset.mem_singleton]
    split_ifs with h1 h2
    · simp [h1]
    · simp [h1]
    · simp [h1, h2]

/-- what a push of the bag at (i, j) onto `d` changes; the pusher's cell and the bag's cell are copied with their
goal layer -/
structure Pousse (m m' : Moteur) (i j : ℤ) (d : ℤ × ℤ) : Prop where
  dans : ∀ k l, m'.t.Dans k l ↔ m.t.Dans k l
  place : m'.Place
  ligne : m'.lignePousseur = i
  colonne : m'.colonnePousseur = j
  nbBut : m'.t.nbBut = if d ∈ m.t.cellules .but then m.t.nbBut - 1 else m.t.nbBut
  obstacles : m'.t.cellules .obstacle = m.t.cellules .obstacle
  sacs : m'.t.cellules .sac =
    if d ∈ m.t.cellules .but then (m.t.cellules .sac).erase (i, j) else insert d ((m.t.cellules .sac).erase (i, j))
  buts : ∀ p, p ∈ m'.t.cellules .but ↔
    if p = d then (i, j) ∈ m.t.cellules .but
    else if p = (i, j) then (m.lignePousseur, m.colonnePousseur) ∈ m.t.cellules .but
    else p ∈ m.t.cellules .but

theorem pousser_spec {m : Moteur} (hP : m.Place) {i j di dj : ℤ} (hs : (i, j) ∈ m.t.cellules .sac)
    (ha : m.estPossible (i + di) (j + dj) = true) (hi : m.lignePousseur = i - di) (hj : m.colonnePousseur = j - dj)
    (hd : (di, dj) ≠ 0) : ∃ m', m.pousser i j di dj = .ok m' ∧ Pousse m m' i j (i + di, j + dj) := by
  obtain ⟨kp, hkp, hpp⟩ := hP.cellule
  obtain ⟨ks, hks, hss⟩ := Terrain.mem_cellules.1 hs
  obtain ⟨ka, hka, hal⟩ := estPossible_iff.1 ha
  have hdp : m.t.Dans m.lignePousseur m.colonnePousseur := Terrain.dans_iff.2 ⟨kp, hkp⟩
  have hds : m.t.Dans i j := Terrain.dans_iff.2 ⟨ks, hks⟩
  have hda : m.t.Dans (i + di) (j + dj) := Terrain.dans_iff.2 ⟨ka, hka⟩
  -- the three cells are different
  have hd' : di ≠ 0 ∨ dj ≠ 0 := by
    by_contra h; push Not at h; exact hd (Prod.ext h.1 h.2)
  have hba : ((i, j) : ℤ × ℤ) ≠ (i + di, j + dj) := fun h => by simp only [Prod.mk.injEq] at h; omega
  have hpa : (m.lignePousseur, m.colonnePousseur) ≠ (i + di, j + dj) := fun h => by
    simp only [Prod.mk.injEq] at h; omega
  have hpb : (m.lignePousseur, m.colonnePousseur) ≠ (i, j) := fun h => by simp only [Prod.mk.injEq] at h; omega
  obtain ⟨hps, hpo, -⟩ := Case.pousseur_exclut hpp
  obtain ⟨hsp, hso, -⟩ := Case.sac_exclut hss
  obtain ⟨has, hap, hao⟩ := Case.libre_exclut hal
  obtain ⟨hcs, hcp, hco⟩ := Case.libre_exclut kp.sol_spec.2
  obtain ⟨hss', hsp', hso'⟩ := Case.libre_exclut ks.sol_spec.2
  set b := ka.contient .but with hb
  -- the value written on the arrival cell, and the board after `but_atteint`
  set kd := if b = true then ks.sol else ks with hkd
  set t₁ := if b = true then m.t.butAtteint else m.t with ht₁
  have htt : t₁.terrain = m.t.terrain := by rw [ht₁]; split_ifs <;> simp
  have hdt (k l : ℤ) : t₁.Dans k l ↔ m.t.Dans k l := by rw [ht₁]; split_ifs <;> simp
  have hkdp : kd.contient .pousseur = false := by rw [hkd]; split_ifs <;> assumption
  have hkdo : kd.contient .obstacle = false := by rw [hkd]; split_ifs <;> assumption
  have hkdb : kd.contient .but = ks.contient .but := by rw [hkd]; split_ifs; exacts [ks.sol_spec.1, rfl]
  have hdab : m.t.contientEn .but (i + di, j + dj) = b := by simp [Terrain.contientEn, hka, hb]
  have hdm : (i + di, j + dj) ∈ m.t.cellules .but ↔ b = true := by rw [Terrain.mem_cellules_of hka]
  set t₄ := ((t₁.pose kd (i + di) (j + dj)).pose kp i j).pose kp.sol m.lignePousseur m.colonnePousseur with ht₄
  have hmem (c : Case) (p : ℤ × ℤ) : p ∈ t₄.cellules c ↔
      if p = (m.lignePousseur, m.colonnePousseur) then kp.sol.contient c = true
      else if p = (i, j) then kp.contient c = true
      else if p = (i + di, j + dj) then kd.contient c = true
      else p ∈ m.t.cellules c := by
    rw [ht₄, Terrain.mem_cellules_pose (by simp [hdt, hdp]), Terrain.mem_cellules_pose (by simp [hdt, hds]),
      Terrain.mem_cellules_pose ((hdt _ _).2 hda), Terrain.cellules_congr htt]
  refine ⟨{ m with
    t := t₄
    lignePousseur := m.lignePousseur + di
    colonnePousseur := m.colonnePousseur + dj
    nbMouvement := m.nbMouvement + 1 }, ?_, ?_⟩
  · have e1 : t₁.assigner kd (i + di) (j + dj) = .ok (t₁.pose kd (i + di) (j + dj)) :=
      Terrain.assigner_ok ((hdt _ _).2 hda)
    have e2 : (t₁.pose kd (i + di) (j + dj)).assigner kp i j = .ok ((t₁.pose kd (i + di) (j + dj)).pose kp i j) :=
      Terrain.assigner_ok ((hdt _ _).2 hds)
    have e3 := Terrain.assigner_ok (t := (t₁.pose kd (i + di) (j + dj)).pose kp i j) (c := kp.sol)
      (i := m.lignePousseur) (j := m.colonnePousseur) ((hdt _ _).2 hdp)
    have e0 : m.arriver ks ka = .ok (kd, t₁) := by
      rw [arriver, ← hb, hkd, ht₁, Case.retrait_sac hss]; split_ifs <;> rfl
    simp only [pousser, Terrain.consulter_ok hkp, Terrain.consulter_ok hks, Terrain.consulter_ok hka,
      Case.retrait_pousseur hpp, bind, Except.bind, e0, e1, e2, e3, ht₄]
  · have hpos : ((m.lignePousseur + di, m.colonnePousseur + dj) : ℤ × ℤ) = (i, j) := by
      rw [hi, hj]; exact Prod.ext (by simp) (by simp)
    refine ⟨hdt, ?_, congrArg Prod.fst hpos, congrArg Prod.snd hpos, ?_, ?_, ?_, ?_⟩
    · ext p
      simp only [hpos, hmem, hcp, hpp, hkdp, hP.ailleurs, Finset.mem_singleton]
      split_ifs with h1 h2 h3
      · simpa [h1] using hpb
      · simp [h2]
      · have h : ((i + di, j + dj) : ℤ × ℤ) ≠ (i, j) := hba.symm
        simpa [h3] using h
      · simp [h1, h2]
    · simp only [hdm, ht₄, ht₁, Terrain.pose_nbBut]
      split_ifs <;> simp
    · ext p
      rw [hmem, hco, hpo, hkdo]
      split_ifs with h1 h2 h3
      · simp [h1, Terrain.mem_cellules_of hkp, hpo]
      · simp [h2, Terrain.mem_cellules_of hks, hso]
      · simp [h3, Terrain.mem_cellules_of hka, hao]
      · rfl
    · have hpn : (m.lignePousseur, m.colonnePousseur) ∉ m.t.cellules .sac := by
        simp [Terrain.mem_cellules_of hkp, hps]
      have han : (i + di, j + dj) ∉ m.t.cellules .sac := by simp [Terrain.mem_cellules_of hka, has]
      have hkds : kd.contient .sac = !b := by
        rw [hkd]
        cases b
        · exact hss
        · exact hss'
      ext p
      rw [hmem, hcs, hps, hkds]
      rcases Bool.eq_false_or_eq_true b with hbut | hbut
      · -- the bag goes off the board
        rw [if_pos (hdm.2 hbut), Finset.mem_erase, hbut]
        split_ifs with h1 h2 h3
        · simp [h1, hpn]
        · simp [h2]
        · simp [h3, han]
        · simp [h2]
      · have hdm' : (i + di, j + dj) ∉ m.t.cellules .but := by rw [hdm, hbut]; exact Bool.false_ne_true
        rw [if_neg hdm', Finset.mem_insert, Finset.mem_erase, hbut]
        split_ifs with h1 h2 h3
        · simp [h1, hpa, hpn]
        · simp [h2, hba]
        · simp [h3]
        · simp [h2, h3]
    · intro p
      rw [hmem, kp.sol_spec.1, hkdb, Terrain.mem_cellules_of hkp, Terrain.mem_cellules_of hks]
      by_cases h1 : p = (m.lignePousseur, m.colonnePousseur)
      · subst h1
        simp [hpa, hpb, Terrain.mem_cellules_of hkp]
      · by_cases h2 : p = (i, j)
        · subst h2
          simp [hpb.symm, hba]
        · simp [h1, h2]

/-! ## All that a call can do -/

/-- the cell onto which a call on (i, j) pushes a bag, when it does -/
def arrivee (m : Moteur) (i j : ℤ) : Option (ℤ × ℤ) :=
  if m.t.contientEn .sac (i, j) then
    match m.sacAdjacent i j with
    | some d =>
      if m.estPossible (i + d.decalage.1) (j + d.decalage.2) then some (i + d.decalage.1, j + d.decalage.2) else none
    | none => none
  else none

/-- a free cell that the search finds from the pusher -/
def Accessible (m : Moteur) (i j : ℤ) : Prop :=
  m.estPossible i j = true ∧ m.existeChemin m.lignePousseur m.colonnePousseur i j = .ok true

theorem sacAdjacent_some {m : Moteur} {i j : ℤ} {d : Direction} (h : m.sacAdjacent i j = some d) :
    m.lignePousseur = i - d.decalage.1 ∧ m.colonnePousseur = j - d.decalage.2 := by
  unfold sacAdjacent at h
  split_ifs at h with h1 h2 h3 h4 <;> (cases h; simp only [Direction.decalage]; omega)

theorem decalage_ne (d : Direction) : d.decalage ≠ 0 := by cases d <;> decide

theorem arrivee_some {m : Moteur} {i j : ℤ} {d : ℤ × ℤ} (h : m.arrivee i j = some d) :
    (i, j) ∈ m.t.cellules .sac ∧ m.estPossible d.1 d.2 = true ∧ d ≠ (i, j) ∧
      (m.lignePousseur, m.colonnePousseur) ≠ (i, j) ∧ d ≠ (m.lignePousseur, m.colonnePousseur) := by
  unfold arrivee at h
  split_ifs at h with hs
  split at h
  · rename_i e he
    split_ifs at h with hf
    obtain ⟨hi, hj⟩ := sacAdjacent_some he
    cases h
    refine ⟨Terrain.mem_cellules.2 (Terrain.contientEn_iff.1 hs), hf, ?_, ?_, ?_⟩ <;>
      · cases e <;> simp only [Direction.decalage, ne_eq, Prod.mk.injEq] at hi hj ⊢ <;> omega
  · cases h

theorem action_cases {m : Moteur} (hP : m.Place) {i j : ℤ} (hd : m.t.Dans i j) :
    ∃ m' b, m.action i j = .ok (m', b) ∧
      ((b = false ∧ m' = m ∧ m.arrivee i j = none ∧ ¬m.Accessible i j) ∨
       (b = true ∧ Marche m m' i j ∧ m.arrivee i j = none ∧ m.Accessible i j) ∨
       (b = true ∧ ∃ d, m.arrivee i j = some d ∧ Pousse m m' i j d)) := by
  obtain ⟨k, hk⟩ := Terrain.dans_iff.1 hd
  obtain ⟨kp, hkp, -⟩ := hP.cellule
  have hsac : m.t.contientEn .sac (i, j) = k.contient .sac := by simp [Terrain.contientEn, hk]
  by_cases hl : k.estLibre = true
  · -- a free cell: the search decides between a walk and a refusal
    have hna : m.arrivee i j = none := by simp [arrivee, hsac, (Case.libre_exclut hl).1]
    have hp : m.estPossible i j = true := estPossible_iff.2 ⟨k, hk, hl⟩
    obtain ⟨b, hb⟩ := m.existeChemin_ok m.lignePousseur m.colonnePousseur i j (Terrain.dans_iff.2 ⟨kp, hkp⟩)
    cases b with
    | false =>
      refine ⟨m, false, ?_, .inl ⟨rfl, rfl, hna, ?_⟩⟩
      · simp [action, Terrain.consulter_ok hk, hl, hb, bind, Except.bind]
      · rintro ⟨-, hc⟩
        rw [hb] at hc
        cases hc
    | true =>
      obtain ⟨m', hm', hM⟩ := marcher_spec hP hp
      refine ⟨m', true, ?_, .inr (.inl ⟨rfl, hM, hna, hp, hb⟩)⟩
      simp [action, Terrain.consulter_ok hk, hl, hb, hm', bind, Except.bind, Except.map]
  · have hnl : ¬m.Accessible i j := by
      rintro ⟨hp, -⟩
      obtain ⟨k', hk', hl'⟩ := estPossible_iff.1 hp
      rw [hk, Option.some.injEq] at hk'
      exact hl (hk' ▸ hl')
    by_cases hs : k.contient .sac = true
    · cases ha : m.sacAdjacent i j with
      | none =>
        refine ⟨m, false, ?_, .inl ⟨rfl, rfl, by simp [arrivee, ha], hnl⟩⟩
        simp [action, Terrain.consulter_ok hk, hl, hs, ha, bind, Except.bind]
      | some d =>
        by_cases hf : m.estPossible (i + d.decalage.1) (j + d.decalage.2) = true
        · obtain ⟨hi, hj⟩ := sacAdjacent_some ha
          obtain ⟨m', hm', hQ⟩ := pousser_spec hP ((Terrain.mem_cellules_of hk).2 hs) hf hi hj (decalage_ne d)
          refine ⟨m', true, ?_, .inr (.inr ⟨rfl, _, by simp [arrivee, hsac, hs, ha, hf], hQ⟩)⟩
          simp [action, Terrain.consulter_ok hk, hl, hs, ha, hf, hm', bind, Except.bind, Except.map]
        · refine ⟨m, false, ?_, .inl ⟨rfl, rfl, by simp [arrivee, ha, hf], hnl⟩⟩
          simp [action, Terrain.consulter_ok hk, hl, hs, ha, hf, bind, Except.bind]
    · refine ⟨m, false, ?_, .inl ⟨rfl, rfl, by simp [arrivee, hsac, hs], hnl⟩⟩
      simp [action, Terrain.consulter_ok hk, hl, hs, bind, Except.bind]

theorem action_marche {m : Moteur} {i j : ℤ} (h : m.Accessible i j) :
    m.action i j = (m.marcher i j).map fun m' => (m', true) := by
  obtain ⟨k, hk, hl⟩ := estPossible_iff.1 h.1
  simp [action, Terrain.consulter_ok hk, hl, h.2, bind, Except.bind]

/-- outside the grid the first reading throws -/
theorem action_dehors {m : Moteur} {i j : ℤ} (hd : ¬m.t.Dans i j) : m.action i j = .error .arrayIndexOutOfBounds := by
  have h : m.t.terrain i j = none := by
    cases hk : m.t.terrain i j with
    | none => rfl
    | some k => exact absurd (Terrain.dans_iff.2 ⟨k, hk⟩) hd
  simp [action, Terrain.consulter, h, bind, Except.bind]

end Moteur

end Semestre6.Sokoban
