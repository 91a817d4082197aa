/-
The board in its window (TerrainGraphique.java) and the clicks (EcouteurDeSouris.java). The side of a cell is the
window's over the number of cells, truncated: what is left of the window, on the right and at the bottom, is no cell's.

- `rectangles`: where `draw` paints each cell;
- `calculeLigne`, `calculeColonne`: the cell of a click; a division by zero throws;
- `clicJuste_iff`: a click inside the window becomes a cell of the board, the one drawn under it, exactly when it is on
  the grid that is drawn; `clic_hors_grille`: any other throws.
-/
import Semestre6.Sokoban.Ecouteurs

namespace Semestre6.Sokoban

structure Fenetre where
  largeur : ℤ
  hauteur : ℤ
deriving DecidableEq, Repr

/-- the terrain is the one of the engine -/
structure TerrainGraphique where
  f : Fenetre
  t : Terrain

/-- what a click can throw -/
inductive ClicException where
  | arithmetic
  | jeu (e : JException)
deriving DecidableEq, Repr

/-- the division of two ints -/
def division (a b : ℤ) : Except ClicException ℤ := if b = 0 then .error .arithmetic else .ok (a.tdiv b)

/-- the rectangle that a cell is painted in -/
structure Rectangle where
  ligne : ℤ
  colonne : ℤ
  x : ℤ
  y : ℤ
  largeur : ℤ
  hauteur : ℤ
deriving DecidableEq, Repr

def Rectangle.Contient (r : Rectangle) (x y : ℤ) : Prop :=
  (r.x ≤ x ∧ x < r.x + r.largeur) ∧ r.y ≤ y ∧ y < r.y + r.hauteur

instance (r : Rectangle) (x y : ℤ) : Decidable (r.Contient x y) := by unfold Rectangle.Contient; infer_instance

namespace TerrainGraphique

def largeurCase (tg : TerrainGraphique) : Except ClicException ℤ := division tg.f.largeur tg.t.largeur

def hauteurCase (tg : TerrainGraphique) : Except ClicException ℤ := division tg.f.hauteur tg.t.hauteur

/-- the cells painted by `draw`, in the order of its loops -/
def rectangles (tg : TerrainGraphique) : Except ClicException (List Rectangle) := do
  let lC ← tg.largeurCase
  let hC ← tg.hauteurCase
  .ok (tg.t.positions.map fun p => ⟨p.1, p.2, p.2 * lC, p.1 * hC, lC, hC⟩)

def calculeLigne (tg : TerrainGraphique) (y : ℤ) : Except ClicException ℤ := do division y (← tg.hauteurCase)

def calculeColonne (tg : TerrainGraphique) (x : ℤ) : Except ClicException ℤ := do division x (← tg.largeurCase)

/-- the cell that a click is turned into, line first -/
def caseDuClic (tg : TerrainGraphique) (x y : ℤ) : Except ClicException (ℤ × ℤ) := do
  let j ← tg.calculeColonne x
  let i ← tg.calculeLigne y
  .ok (i, j)

/-- cell `(i, j)` is painted under the pixel -/
def Sous (tg : TerrainGraphique) (i j x y : ℤ) : Prop :=
  ∃ rs, tg.rectangles = .ok rs ∧ ∃ r ∈ rs, r.ligne = i ∧ r.colonne = j ∧ r.Contient x y

/-- the pixel is not among the last ones of the window, those that are left when the cells have equal sides -/
def SurGrille (tg : TerrainGraphique) (x y : ℤ) : Prop :=
  x < tg.f.largeur - tg.f.largeur % tg.t.largeur ∧ y < tg.f.hauteur - tg.f.hauteur % tg.t.hauteur

instance (tg : TerrainGraphique) (x y : ℤ) : Decidable (tg.SurGrille x y) := by unfold SurGrille; infer_instance

/-- the click becomes a cell of the board, the one painted under it when there is one -/
def ClicJuste (tg : TerrainGraphique) (x y : ℤ) : Prop :=
  ∃ i j, tg.caseDuClic x y = .ok (i, j) ∧ tg.t.Dans i j ∧ ∀ i' j', tg.Sous i' j' x y → (i', j') = (i, j)

end TerrainGraphique

/-- a click on the window `f`, on the board of the engine -/
def Jeu.clic (s : Jeu) (f : Fenetre) (x y : ℤ) : Except ClicException Jeu := do
  let (i, j) ← TerrainGraphique.caseDuClic ⟨f, s.m.t⟩ x y
  (s.mousePressed i j).mapError .jeu

/-! ## One direction -/

variable {n w x y i j : ℤ}

/-- the side of a cell: `n` cells on at least as many pixels -/
theorem tdiv_pos (hn : 0 < n) (hw : n ≤ w) : 0 < w.tdiv n := by
  have h : 1 ≤ w / n := by rwa [Int.le_ediv_iff_mul_le hn, one_mul]
  rw [Int.tdiv_eq_ediv_of_nonneg (by omega)]
  omega

theorem tdiv_lt_iff (hw : 0 < w) (hx : 0 ≤ x) : x.tdiv w < n ↔ x < n * w := by
  rw [Int.tdiv_eq_ediv_of_nonneg hx, Int.ediv_lt_iff_lt_mul hw]

/-- the pixels of the `n` cells -/
theorem mul_tdiv_eq (hw : 0 ≤ w) : n * w.tdiv n = w - w % n := by
  rw [Int.tdiv_eq_ediv_of_nonneg hw, Int.emod_def]
  omega

theorem tdiv_eq_of_mem (hw : 0 < w) (hx : 0 ≤ x) (h : j * w ≤ x ∧ x < j * w + w) : x.tdiv w = j := by
  rw [Int.tdiv_eq_ediv_of_nonneg hx, Int.ediv_eq_iff_of_pos hw]
  exact h

theorem division_ok {a b : ℤ} (h : b ≠ 0) : division a b = .ok (a.tdiv b) := if_neg h

/-! ## Both directions -/

namespace TerrainGraphique

variable {tg : TerrainGraphique}

/-- the sides of the cells, when there are cells -/
theorem cotes_pos (hl : 0 < tg.t.largeur) (hh : 0 < tg.t.hauteur) (hW : tg.t.largeur ≤ tg.f.largeur)
    (hH : tg.t.hauteur ≤ tg.f.hauteur) :
    0 < tg.f.largeur.tdiv tg.t.largeur ∧ 0 < tg.f.hauteur.tdiv tg.t.hauteur :=
  ⟨tdiv_pos (by omega) hW, tdiv_pos (by omega) hH⟩

theorem largeurCase_ok (hl : 0 < tg.t.largeur) : tg.largeurCase = .ok (tg.f.largeur.tdiv tg.t.largeur) :=
  division_ok (by omega)

theorem hauteurCase_ok (hh : 0 < tg.t.hauteur) : tg.hauteurCase = .ok (tg.f.hauteur.tdiv tg.t.hauteur) :=
  division_ok (by omega)

theorem caseDuClic_ok (hl : 0 < tg.t.largeur) (hh : 0 < tg.t.hauteur) (hW : tg.t.largeur ≤ tg.f.largeur)
    (hH : tg.t.hauteur ≤ tg.f.hauteur) (x y : ℤ) :
    tg.caseDuClic x y =
      .ok (y.tdiv (tg.f.hauteur.tdiv tg.t.hauteur), x.tdiv (tg.f.largeur.tdiv tg.t.largeur)) := by
  obtain ⟨hlC, hhC⟩ := cotes_pos hl hh hW hH
  simp [caseDuClic, calculeColonne, calculeLigne, largeurCase_ok hl, hauteurCase_ok hh, division_ok hlC.ne',
    division_ok hhC.ne', bind, Except.bind]

/-- without a column or without a line the division by zero throws -/
theorem caseDuClic_vide (h : tg.t.largeur = 0 ∨ tg.t.hauteur = 0) (x y : ℤ) :
    tg.caseDuClic x y = .error .arithmetic := by
  have hzero (a : ℤ) : division a 0 = .error .arithmetic := rfl
  by_cases hl : tg.t.largeur = 0
  · simp [caseDuClic, calculeColonne, largeurCase, hl, hzero, bind, Except.bind]
  · have hh : tg.t.hauteur = 0 := h.resolve_left hl
    have hhC : tg.hauteurCase = .error .arithmetic := by simp [hauteurCase, hh, hzero]
    have hlC : tg.largeurCase = .ok (tg.f.largeur.tdiv tg.t.largeur) := largeurCase_ok (by omega)
    by_cases hc : tg.f.largeur.tdiv tg.t.largeur = 0
    · simp [caseDuClic, calculeColonne, hlC, hc, hzero, bind, Except.bind]
    · simp [caseDuClic, calculeColonne, calculeLigne, hlC, hhC, division_ok hc, bind, Except.bind]

theorem sous_iff (hl : 0 < tg.t.largeur) (hh : 0 < tg.t.hauteur) :
    tg.Sous i j x y ↔ tg.t.Dans i j ∧
      (j * tg.f.largeur.tdiv tg.t.largeur ≤ x ∧
        x < j * tg.f.largeur.tdiv tg.t.largeur + tg.f.largeur.tdiv tg.t.largeur) ∧
      i * tg.f.hauteur.tdiv tg.t.hauteur ≤ y ∧
        y < i * tg.f.hauteur.tdiv tg.t.hauteur + tg.f.hauteur.tdiv tg.t.hauteur := by
  have hr : tg.rectangles = .ok (tg.t.positions.map fun p => ⟨p.1, p.2, p.2 * tg.f.largeur.tdiv tg.t.largeur,
      p.1 * tg.f.hauteur.tdiv tg.t.hauteur, tg.f.largeur.tdiv tg.t.largeur, tg.f.hauteur.tdiv tg.t.hauteur⟩) := by
    simp [rectangles, largeurCase_ok hl, hauteurCase_ok hh, bind, Except.bind]
  apply Iff.intro
  · intro h
    obtain ⟨rs, hrs, r, hmem, rfl, rfl, hc⟩ := h
    obtain rfl := Except.ok.inj (hr.symm.trans hrs)
    obtain ⟨p, hp, rfl⟩ := List.mem_map.1 hmem
    exact ⟨Terrain.mem_positions.1 hp, hc⟩
  · intro h
    exact ⟨_, hr, _, List.mem_map_of_mem (Terrain.mem_positions.2 h.1 : (i, j) ∈ tg.t.positions), rfl, rfl, h.2⟩

/-- the grid has no pixel when there is no cell -/
theorem not_surGrille_vide (h : tg.t.largeur = 0 ∨ tg.t.hauteur = 0) (hx : 0 ≤ x) (hy : 0 ≤ y) : ¬tg.SurGrille x y := by
  intro hs
  rcases h with h | h
  · have hx' := hs.1
    rw [h, Nat.cast_zero, Int.emod_zero] at hx'
    omega
  · have hy' := hs.2
    rw [h, Nat.cast_zero, Int.emod_zero] at hy'
    omega

theorem dans_caseDuClic_iff (hl : 0 < tg.t.largeur) (hh : 0 < tg.t.hauteur) (hW : tg.t.largeur ≤ tg.f.largeur)
    (hH : tg.t.hauteur ≤ tg.f.hauteur) (hx : 0 ≤ x) (hy : 0 ≤ y) :
    tg.t.Dans (y.tdiv (tg.f.hauteur.tdiv tg.t.hauteur)) (x.tdiv (tg.f.largeur.tdiv tg.t.largeur)) ↔
      tg.SurGrille x y := by
  obtain ⟨hlC, hhC⟩ := cotes_pos hl hh hW hH
  have hi : 0 ≤ y.tdiv (tg.f.hauteur.tdiv tg.t.hauteur) := Int.tdiv_nonneg hy hhC.le
  have hj : 0 ≤ x.tdiv (tg.f.largeur.tdiv tg.t.largeur) := Int.tdiv_nonneg hx hlC.le
  rw [SurGrille, ← mul_tdiv_eq (by omega), ← mul_tdiv_eq (by omega), ← tdiv_lt_iff hlC hx, ← tdiv_lt_iff hhC hy]
  apply Iff.intro
  · intro h
    exact ⟨h.2.2.2, h.2.1⟩
  · intro h
    exact ⟨hi, h.2, hj, h.1⟩

theorem clicJuste_iff (hW : tg.t.largeur ≤ tg.f.largeur) (hH : tg.t.hauteur ≤ tg.f.hauteur)
    (hx : 0 ≤ x ∧ x < tg.f.largeur) (hy : 0 ≤ y ∧ y < tg.f.hauteur) : tg.ClicJuste x y ↔ tg.SurGrille x y := by
  by_cases hvide : tg.t.largeur = 0 ∨ tg.t.hauteur = 0
  · refine iff_of_false ?_ (not_surGrille_vide hvide hx.1 hy.1)
    intro h
    obtain ⟨i, j, hc, -⟩ := h
    rw [caseDuClic_vide hvide] at hc
    cases hc
  · rw [not_or] at hvide
    have hl : 0 < tg.t.largeur := Nat.pos_of_ne_zero hvide.1
    have hh : 0 < tg.t.hauteur := Nat.pos_of_ne_zero hvide.2
    obtain ⟨hlC, hhC⟩ := cotes_pos hl hh hW hH
    have hc := caseDuClic_ok hl hh hW hH x y
    rw [← dans_caseDuClic_iff hl hh hW hH hx.1 hy.1]
    apply Iff.intro
    · intro h
      obtain ⟨i, j, hij, hd, -⟩ := h
      rw [hc] at hij
      obtain ⟨rfl, rfl⟩ := Prod.mk.inj (Except.ok.inj hij)
      exact hd
    · intro h
      refine ⟨_, _, hc, h, ?_⟩
      intro i' j' hs
      obtain ⟨-, hxj, hyi⟩ := (sous_iff hl hh).1 hs
      rw [tdiv_eq_of_mem hlC hx.1 hxj, tdiv_eq_of_mem hhC hy.1 hyi]

end TerrainGraphique

/-! ## The listener -/

namespace Jeu

variable {s : Jeu} {f : Fenetre}

theorem clic_ok (h : TerrainGraphique.caseDuClic ⟨f, s.m.t⟩ x y = .ok (i, j)) :
    s.clic f x y = (s.mousePressed i j).mapError .jeu := by
  simp [clic, h, bind, Except.bind]

/-- any other click throws -/
theorem clic_hors_grille (hW : s.m.t.largeur ≤ f.largeur) (hH : s.m.t.hauteur ≤ f.hauteur) (hx : 0 ≤ x) (hy : 0 ≤ y)
    (h : ¬TerrainGraphique.SurGrille ⟨f, s.m.t⟩ x y) :
    s.clic f x y = .error .arithmetic ∨ s.clic f x y = .error (.jeu .arrayIndexOutOfBounds) := by
  by_cases hvide : s.m.t.largeur = 0 ∨ s.m.t.hauteur = 0
  · left
    have hc : TerrainGraphique.caseDuClic ⟨f, s.m.t⟩ x y = .error .arithmetic :=
      TerrainGraphique.caseDuClic_vide hvide x y
    simp [clic, hc, bind, Except.bind]
  · right
    rw [not_or] at hvide
    have hl : 0 < s.m.t.largeur := Nat.pos_of_ne_zero hvide.1
    have hh : 0 < s.m.t.hauteur := Nat.pos_of_ne_zero hvide.2
    have hc : TerrainGraphique.caseDuClic ⟨f, s.m.t⟩ x y = .ok _ := TerrainGraphique.caseDuClic_ok hl hh hW hH x y
    rw [← TerrainGraphique.dans_caseDuClic_iff hl hh hW hH hx hy] at h
    rw [clic_ok hc]
    simp [mousePressed, Moteur.action_dehors h, bind, Except.bind, Except.mapError]

/-- **A click inside the window becomes the cell drawn under it**, and the engine is called on a cell of the board,
exactly when the click is on the grid that is drawn. -/
theorem clic_iff (hW : s.m.t.largeur ≤ f.largeur) (hH : s.m.t.hauteur ≤ f.hauteur) (hx : 0 ≤ x ∧ x < f.largeur)
    (hy : 0 ≤ y ∧ y < f.hauteur) :
    (TerrainGraphique.ClicJuste ⟨f, s.m.t⟩ x y ∧
        ∃ i j, s.m.t.Dans i j ∧ s.clic f x y = (s.mousePressed i j).mapError .jeu) ↔
      TerrainGraphique.SurGrille ⟨f, s.m.t⟩ x y := by
  rw [← TerrainGraphique.clicJuste_iff hW hH hx hy]
  apply Iff.intro
  · exact And.left
  · intro h
    obtain ⟨i, j, hc, hd, -⟩ := id h
    exact ⟨h, i, j, hd, clic_ok hc⟩

/-- four cells in a line -/
def quatreCases : Terrain := .deLignes 4 1 [[.pousseur, .libre, .sac, .but]]

/-- on 203 pixels the cells have 50, and the last three pixels are no cell's: the pixel before them is in cell 3 -/
theorem clic_iff_dernier :
    TerrainGraphique.ClicJuste ⟨⟨203, 50⟩, quatreCases⟩ 199 49 ∧
      ∃ i j, quatreCases.Dans i j ∧ (nouveau quatreCases).clic ⟨203, 50⟩ 199 49 =
        ((nouveau quatreCases).mousePressed i j).mapError .jeu := by
  have ht : (nouveau quatreCases).m.t = quatreCases := Moteur.nouveau_t _
  have h := (clic_iff (s := nouveau quatreCases) (f := ⟨203, 50⟩) (x := 199) (y := 49) (ht ▸ by decide) (ht ▸ by decide)
    (by decide) (by decide)).2 (ht ▸ by decide)
  rwa [ht] at h

/-- a click on one of them asks the engine for a fifth column -/
theorem clic_marge :
    TerrainGraphique.caseDuClic ⟨⟨203, 50⟩, quatreCases⟩ 201 25 = .ok (0, 4) ∧ ¬quatreCases.Dans 0 4 ∧
      ¬TerrainGraphique.ClicJuste ⟨⟨203, 50⟩, quatreCases⟩ 201 25 ∧
      (nouveau quatreCases).clic ⟨203, 50⟩ 201 25 = .error (.jeu .arrayIndexOutOfBounds) := by
  have ht : (nouveau quatreCases).m.t = quatreCases := Moteur.nouveau_t _
  have hc : TerrainGraphique.caseDuClic ⟨⟨203, 50⟩, quatreCases⟩ 201 25 = .ok (0, 4) := by decide
  have hd : ¬quatreCases.Dans 0 4 := by decide
  have hd' : ¬(nouveau quatreCases).m.t.Dans 0 4 := ht.symm ▸ hd
  refine ⟨hc, hd, ?_, ?_⟩
  · intro h
    obtain ⟨i, j, hij, hdans, -⟩ := h
    obtain ⟨rfl, rfl⟩ := Prod.mk.inj (Except.ok.inj (hc.symm.trans hij))
    exact hd hdans
  · rw [clic_ok (ht.symm ▸ hc)]
    simp [mousePressed, Moteur.action_dehors hd', bind, Except.bind, Except.mapError]

end Jeu

end Semestre6.Sokoban
