/-
Moteur.Explorer seen from the game: `t_chemin` is the board `t` itself, so what the search writes stays on it.

- `Trace`: the board after a turn, whatever the level: the last position is drawn, the cells of the earlier ones are
  LIBRE, the others are as they were;
- `tour_trace`: one turn keeps it;
- `explorer_dessin`: what a search that stops leaves on the board;
- `explorer_intact_iff`: the game is as before exactly when the search stops on the position that it starts from, and
  that position is drawn with SAC and POUSSEUR, off the goals.

Witness: `explorer_intact_coin`, a bag in a corner. Witness that the condition is needed: `but_efface`, a level whose
solution wipes out the goal.
-/
import Semestre6.Sokoban.Explorer

namespace Semestre6.Sokoban

open Boucle MeilleurDabord Exploration

/-- the same cells, the same `nb_but` and the same position of the pusher -/
structure Intact (m m' : Moteur) : Prop where
  cases : m'.t.terrain = m.t.terrain
  nbBut : m'.t.nbBut = m.t.nbBut
  ligne : m'.lignePousseur = m.lignePousseur
  colonne : m'.colonnePousseur = m.colonnePousseur

/-- the start is drawn as the search draws it -/
structure Dessine (m : Moteur) : Prop where
  sac : m.t.terrain m.saci m.sacj = some .sac
  pousseur : (m.lignePousseur, m.colonnePousseur) = (m.saci, m.sacj) ∨
    m.t.terrain m.lignePousseur m.colonnePousseur = some .pousseur

/-- the entry that the search starts with -/
def origine (m : Moteur) : SacPerso :=
  ⟨(m.saci, m.sacj), (m.lignePousseur, m.colonnePousseur), 0, m.heuristique m.saci m.sacj⟩

/-- the search stops where it starts: no push is possible, or the bag is on the cell taken for the goal -/
structure Immobile (m : Moteur) : Prop extends Dessine m where
  arret : m.successeurs (origine m) = .ok [] ∨ (m.saci, m.sacj) = (m.buti, m.butj)

variable {m m' : Moteur} {t t' : Terrain} {e e' : Exploration} {z z' : SacPerso} {reste succ l : List SacPerso}
  {V : List SacPousseur} {x y : SacPousseur} {i j : ℤ} {k : Case}

/-! ## One turn -/

theorem assigner_eq (h : t.assigner k i j = .ok t') : t.Dans i j ∧ t.pose k i j = t' := by
  unfold Terrain.assigner at h
  split_ifs at h with hd
  exact ⟨hd, Except.ok.inj h⟩

theorem ok_of_plateau {α : Type} {a : α} {x : Except JException α} (h : plateau x = .ok a) : x = .ok a := by
  cases x with
  | error err => cases h
  | ok b => exact congrArg Except.ok (Except.ok.inj h)

/-- the entry extracted, what is left of the queue and the successors of a turn that does not throw -/
structure Tour (e e' : Exploration) (z : SacPerso) (reste succ : List SacPerso) : Prop where
  extrait : FileAPriorite.extraire e.fap = .ok (z, reste)
  dans : e.m.t.Dans e.sac.1 e.sac.2 ∧ e.m.t.Dans e.perso.1 e.perso.2 ∧ e.m.t.Dans z.sac.1 z.sac.2 ∧
    e.m.t.Dans z.perso.1 z.perso.2
  successeurs : (surEcrit e.m (e.sac, e.perso) z.etat).successeurs z = .ok succ
  traites : Traites { e with
    m := surEcrit e.m (e.sac, e.perso) z.etat, fap := reste, perso := z.perso, sac := z.sac, current := z } succ e'

theorem tour_ok (he : ∀ k ∈ e.parcouru, k.ref < e.objets) (h : tour e = .ok e') :
    ∃ z reste succ, Tour e e' z reste succ := by
  unfold tour at h
  obtain ⟨t₁, h₁, h⟩ := ok_of_bind h
  obtain ⟨hd₁, rfl⟩ := assigner_eq (ok_of_plateau h₁)
  obtain ⟨t₂, h₂, h⟩ := ok_of_bind h
  obtain ⟨hd₂, rfl⟩ := assigner_eq (ok_of_plateau h₂)
  obtain ⟨⟨z, reste⟩, hext, h⟩ := ok_of_bind h
  obtain ⟨t₃, h₃, h⟩ := ok_of_bind h
  obtain ⟨hd₃, rfl⟩ := assigner_eq (ok_of_plateau h₃)
  obtain ⟨t₄, h₄, h⟩ := ok_of_bind h
  obtain ⟨hd₄, rfl⟩ := assigner_eq (ok_of_plateau h₄)
  obtain ⟨succ, hsucc, h⟩ := ok_of_bind h
  have hsucc := ok_of_plateau hsucc
  obtain rfl := Except.ok.inj h
  exact ⟨z, reste, succ, hext, ⟨hd₂, hd₁, hd₄, hd₃⟩, hsucc, foldl_traite succ _ he⟩

/-! ### The successors -/

/-- whether a test finds a push depends on the board and on the pusher only -/
theorem essai_ok {oppose cible : ℤ × ℤ} (h : m.essai z oppose cible = .ok l) :
    ∃ b : Bool, ∀ z', z'.perso = z.perso →
      m.essai z' oppose cible = .ok (if b then [⟨cible, z'.sac, z'.poids, m.heuristique cible.1 cible.2⟩] else []) := by
  have hforme : ∀ z', z'.perso = z.perso → m.essai z' oppose cible =
      if m.estPossibleSansPousseur oppose.1 oppose.2 then
        (m.existeChemin z.perso.1 z.perso.2 oppose.1 oppose.2).bind fun b =>
          .ok (if b && m.estPossibleSansPousseur cible.1 cible.2 then
            [⟨cible, z'.sac, z'.poids, m.heuristique cible.1 cible.2⟩] else [])
      else .ok [] := by
    intro z' hz
    unfold Moteur.essai
    rw [hz]
    by_cases hc : m.estPossibleSansPousseur cible.1 cible.2 = true <;>
      by_cases ho : m.estPossibleSansPousseur oppose.1 oppose.2 = true <;>
      cases m.existeChemin z.perso.1 z.perso.2 oppose.1 oppose.2 <;>
      simp [ho, hc, bind, Except.bind, pure, Except.pure]
    split_ifs <;> rfl
  rw [hforme z rfl] at h
  by_cases ho : m.estPossibleSansPousseur oppose.1 oppose.2 = true
  · rw [if_pos ho] at h
    obtain ⟨b, hb, -⟩ := ok_of_bind h
    refine ⟨b && m.estPossibleSansPousseur cible.1 cible.2, ?_⟩
    intro z' hz
    rw [hforme z' hz, if_pos ho, hb]
    rfl
  · exact ⟨false, fun z' hz => by rw [hforme z' hz, if_neg ho]; rfl⟩

/-- the successors push the bag off its cell, and their positions depend on the board and on the position only -/
theorem successeurs_ok (h : m.successeurs z = .ok l) :
    ∃ cibles : List (ℤ × ℤ), z.sac ∉ cibles ∧
      ∀ z', z'.etat = z.etat → ∃ l', m.successeurs z' = .ok l' ∧ l'.map SacPerso.etat = cibles.map (·, z.sac) := by
  unfold Moteur.successeurs at h
  obtain ⟨_, h₁, h⟩ := ok_of_bind h
  obtain ⟨_, h₂, h⟩ := ok_of_bind h
  obtain ⟨_, h₃, h⟩ := ok_of_bind h
  obtain ⟨_, h₄, -⟩ := ok_of_bind h
  obtain ⟨b₁, h₁⟩ := essai_ok h₁
  obtain ⟨b₂, h₂⟩ := essai_ok h₂
  obtain ⟨b₃, h₃⟩ := essai_ok h₃
  obtain ⟨b₄, h₄⟩ := essai_ok h₄
  refine ⟨(if b₁ then [(z.sac.1 + 1, z.sac.2)] else []) ++ (if b₂ then [(z.sac.1 - 1, z.sac.2)] else []) ++
    (if b₃ then [(z.sac.1, z.sac.2 - 1)] else []) ++ (if b₄ then [(z.sac.1, z.sac.2 + 1)] else []), ?_, ?_⟩
  · have hne : z.sac ≠ (z.sac.1 + 1, z.sac.2) ∧ z.sac ≠ (z.sac.1 - 1, z.sac.2) ∧ z.sac ≠ (z.sac.1, z.sac.2 - 1) ∧
        z.sac ≠ (z.sac.1, z.sac.2 + 1) := by
      simp only [ne_eq, Prod.ext_iff]
      omega
    cases b₁ <;> cases b₂ <;> cases b₃ <;> cases b₄ <;> simp [hne]
  · intro z' hz
    obtain ⟨hsac, hperso⟩ := Prod.mk.inj hz
    have h₁ := h₁ z' hperso
    have h₂ := h₂ z' hperso
    have h₃ := h₃ z' hperso
    have h₄ := h₄ z' hperso
    rw [← hsac] at h₁ h₂ h₃ h₄ ⊢
    refine ⟨_, by simp only [Moteur.successeurs, h₁, h₂, h₃, h₄, bind, Except.bind]; rfl, ?_⟩
    cases b₁ <;> cases b₂ <;> cases b₃ <;> cases b₄ <;> rfl

theorem successeurs_ne (h : m.successeurs z = .ok l) (hy : z' ∈ l) : z'.sac ≠ z'.perso := by
  obtain ⟨cibles, hne, hcibles⟩ := successeurs_ok h
  obtain ⟨l', hl', hetat⟩ := hcibles z rfl
  obtain rfl : l = l' := Except.ok.inj (h.symm.trans hl')
  have hmem : z'.etat ∈ cibles.map (·, z.sac) := hetat ▸ List.mem_map_of_mem hy
  obtain ⟨c, hc, heq⟩ := List.mem_map.1 hmem
  obtain ⟨hsac, hperso⟩ := Prod.mk.inj heq
  rw [← hsac, ← hperso]
  exact fun h => hne (h ▸ hc)

theorem successeurs_nil (h : m.successeurs z = .ok []) (hz : z'.etat = z.etat) : m.successeurs z' = .ok [] := by
  obtain ⟨cibles, -, hcibles⟩ := successeurs_ok h
  obtain ⟨l', hl', hetat⟩ := hcibles z rfl
  obtain rfl : [] = l' := Except.ok.inj (h.symm.trans hl')
  obtain ⟨l', hl', hetat'⟩ := hcibles z' hz
  rw [← hetat, List.map_nil, List.map_eq_nil_iff] at hetat'
  rw [hl', hetat']

/-! ## The board of a run -/

/-- the cells once the positions of `V` have been looked at, `y` last -/
def dessin (t : Terrain) (V : List SacPousseur) (y : SacPousseur) (c : ℤ × ℤ) : Option Case :=
  if c = y.1 then some .sac else if c = y.2 then some .pousseur
  else if ∃ x ∈ V, c = x.1 ∨ c = x.2 then some .libre else t.terrain c.1 c.2

theorem ecrit_dessin (hx : t.Dans x.1.1 x.1.2 ∧ t.Dans x.2.1 x.2.2) (hy : t.Dans y.1.1 y.1.2 ∧ t.Dans y.2.1 y.2.2)
    (c : ℤ × ℤ) : (ecrit t x y).terrain c.1 c.2 = dessin t [x] y c := by
  rw [ecrit_terrain_of_dans hx hy, dessin]
  by_cases h₁ : c = x.1
  · simp [h₁]
  · simp [h₁]

/-- what a turn writes on the board of the turn before -/
theorem dessin_suivant (h : ∀ c, t'.terrain c.1 c.2 = dessin t V x c) (hx : x ∈ V) (c : ℤ × ℤ) :
    dessin t' [x] y c = dessin t (V ++ [y]) y c := by
  unfold dessin
  by_cases h₁ : c = y.1
  · rw [if_pos h₁, if_pos h₁]
  rw [if_neg h₁, if_neg h₁]
  by_cases h₂ : c = y.2
  · rw [if_pos h₂, if_pos h₂]
  rw [if_neg h₂, if_neg h₂]
  have hvues : (∃ v ∈ V ++ [y], c = v.1 ∨ c = v.2) ↔ ∃ v ∈ V, c = v.1 ∨ c = v.2 := by
    simp [or_and_right, exists_or, h₁, h₂]
  by_cases h₃ : c = x.1 ∨ c = x.2
  · rw [if_pos ⟨x, List.mem_singleton_self x, h₃⟩, if_pos (hvues.2 ⟨x, hx, h₃⟩)]
  · rw [if_neg (by simpa using h₃), h, dessin, if_neg (fun h => h₃ (.inl h)), if_neg (fun h => h₃ (.inr h))]
    simp only [hvues]

/-- what holds after a turn; `V` are the positions extracted so far -/
structure Trace (m : Moteur) (e : Exploration) (V : List SacPousseur) : Prop where
  moteur : e.m = { m with t := e.m.t }
  bords : e.m.t.largeur = m.t.largeur ∧ e.m.t.hauteur = m.t.hauteur ∧ e.m.t.nbBut = m.t.nbBut
  cases : ∀ c, e.m.t.terrain c.1 c.2 = dessin m.t V (e.sac, e.perso) c
  vues : depart m ∈ V ∧ (e.sac, e.perso) ∈ V
  courant : e.current.etat = (e.sac, e.perso)
  /-- without a pusher the constructor can put it and the bag on one cell; no push does -/
  distinct : e.sac = e.perso → (e.sac, e.perso) = depart m
  file : ∀ z ∈ e.fap, z.sac ≠ z.perso
  objets : ∀ k ∈ e.parcouru, k.ref < e.objets
  /-- a successor would be in the queue -/
  successeurs : e.fap = [] → e.m.successeurs e.current = .ok []

/-- a successor is in the queue -/
theorem Tour.fap_nil (h : Tour e e' z reste succ) (hfap : e'.fap = []) : succ = [] := by
  have hdev := h.traites.fap
  rw [hfap, List.map_nil] at hdev
  by_contra hne
  obtain ⟨y, hy⟩ := List.exists_mem_of_ne_nil succ hne
  have hetat : y.etat ∈ succ.map SacPerso.etat := List.mem_map_of_mem hy
  obtain ⟨g, hg, -⟩ := exists_developpe (reste.map SacPerso.entree) (z.poids + 1) hetat
  rw [← hdev] at hg
  exact List.not_mem_nil hg

theorem Tour.bords (h : Tour e e' z reste succ) :
    e'.m.t.largeur = e.m.t.largeur ∧ e'.m.t.hauteur = e.m.t.hauteur ∧ e'.m.t.nbBut = e.m.t.nbBut := by
  rw [h.traites.m]
  exact ⟨rfl, rfl, rfl⟩

theorem Tour.cases (h : Tour e e' z reste succ) (c : ℤ × ℤ) :
    e'.m.t.terrain c.1 c.2 = dessin e.m.t [(e.sac, e.perso)] z.etat c := by
  obtain ⟨hs, hp, hs', hp'⟩ := h.dans
  rw [h.traites.m]
  exact ecrit_dessin ⟨hs, hp⟩ ⟨hs', hp'⟩ c

theorem Tour.etat (h : Tour e e' z reste succ) : (e'.sac, e'.perso) = z.etat ∧ e'.current = z := by
  rw [h.traites.sac, h.traites.perso, h.traites.current]
  exact ⟨rfl, rfl⟩

theorem Tour.file (h : Tour e e' z reste succ) (hreste : ∀ y ∈ reste, y.sac ≠ y.perso) :
    ∀ y ∈ e'.fap, y.sac ≠ y.perso := by
  intro y hy
  rcases h.traites.nouveaux y hy with hy | ⟨w, hw, hyw, -⟩
  · exact hreste y hy
  · have hne := successeurs_ne h.successeurs hw
    obtain ⟨hs, hp⟩ := Prod.mk.inj hyw
    rwa [hs, hp]

theorem Tour.successeurs_nil (h : Tour e e' z reste succ) (hfap : e'.fap = []) :
    e'.m.successeurs e'.current = .ok [] := by
  have hs := h.successeurs
  rw [h.fap_nil hfap] at hs
  rw [h.traites.m, h.etat.2]
  exact hs

theorem tour_trace (h : Trace m e V) (ht : tour e = .ok e') : ∃ z, Trace m e' (V ++ [z]) := by
  obtain ⟨z, reste, succ, htour⟩ := tour_ok h.objets ht
  have hfap : e.fap ≠ [] := by
    intro hnil
    have hext := htour.extrait
    rw [hnil] at hext
    cases hext
  obtain ⟨y, r, hyr, hext⟩ := FileAPriorite.extraire_spec hfap
  obtain ⟨rfl, rfl⟩ := Prod.mk.inj (Except.ok.inj (htour.extrait.symm.trans hyr))
  obtain ⟨hl, hh, hn⟩ := htour.bords
  obtain ⟨hl', hh', hn'⟩ := h.bords
  have hetat := htour.etat.1
  refine ⟨z.etat, {
    moteur := by rw [htour.traites.m, surEcrit, h.moteur]
    bords := ⟨hl.trans hl', hh.trans hh', hn.trans hn'⟩
    cases := fun c => by rw [htour.cases, dessin_suivant h.cases h.vues.2, hetat]
    vues := ⟨List.mem_append_left _ h.vues.1, hetat ▸ List.mem_append_right _ (List.mem_singleton_self _)⟩
    courant := by rw [htour.etat.2, hetat]
    distinct := ?_
    file := htour.file fun y hy => h.file y (hext.mem_iff.2 (.inr hy))
    objets := htour.traites.objets
    successeurs := htour.successeurs_nil }⟩
  -- `z` was in the queue
  intro heq
  obtain ⟨hs, hp⟩ := Prod.mk.inj hetat
  rw [hs, hp] at heq
  exact absurd heq (h.file z hext.mem)

/-- the first turn extracts the position that the search starts from -/
theorem debut_trace (h : tour (debut m) = .ok e) :
    Trace m e [depart m] ∧ e.current = origine m ∧ (e.m.successeurs e.current = .ok [] → e.fap = []) := by
  obtain ⟨z, reste, succ, htour⟩ := tour_ok (by simp [debut]) h
  obtain ⟨rfl, rfl⟩ : origine m = z ∧ [] = reste := by
    have hext : FileAPriorite.extraire [origine m] = .ok (z, reste) := htour.extrait
    obtain ⟨y, r, hyr, h⟩ := FileAPriorite.extraire_spec (List.cons_ne_nil (origine m) [])
    obtain ⟨rfl, rfl⟩ := Prod.mk.inj (Except.ok.inj (hext.symm.trans hyr))
    have hlen := h.length
    exact ⟨(List.mem_singleton.1 h.mem).symm, (List.length_eq_zero_iff.1 (by simpa using hlen)).symm⟩
  have hetat := htour.etat
  refine ⟨{
    moteur := by rw [htour.traites.m]; rfl
    bords := htour.bords
    cases := fun c => by rw [htour.cases, hetat.1]; rfl
    vues := ⟨List.mem_singleton_self _, hetat.1 ▸ List.mem_singleton_self _⟩
    courant := by rw [hetat.2, hetat.1]
    distinct := fun _ => hetat.1
    file := htour.file (by simp)
    objets := htour.traites.objets
    successeurs := htour.successeurs_nil }, hetat.2, ?_⟩
  intro hs
  have hsucc : succ = [] := by
    have hs' := htour.successeurs
    rw [htour.traites.m, hetat.2] at hs
    exact Except.ok.inj (hs'.symm.trans hs)
  have hfap := htour.traites.fap
  rw [hsucc] at hfap
  exact List.map_eq_nil_iff.1 hfap

theorem apresTours_trace {k : ℕ} (h : apresTours m k = .ok e) :
    ∃ e₁, tour (debut m) = .ok e₁ ∧ tours continuer tour k e₁ = .ok e ∧ ∃ V, Trace m e V := by
  obtain ⟨e₁, h₁, h⟩ := ok_of_bind h
  refine ⟨e₁, h₁, h, ?_⟩
  have hstep : ∀ s s', (∃ V, Trace m s V) → continuer s = true → tour s = .ok s' → ∃ V, Trace m s' V := by
    intro s s' hs _ ht
    obtain ⟨V, hV⟩ := hs
    obtain ⟨y, hy⟩ := tour_trace hV ht
    exact ⟨_, hy⟩
  exact tours_inv_of_ok (fun e => ∃ V, Trace m e V) hstep ⟨_, (debut_trace h₁).1⟩ h

/-- **What a search that stops leaves**, on every level. -/
theorem explorer_dessin (he : Arrete m e) :
    e.m.t.nbBut = m.t.nbBut ∧ e.m.lignePousseur = m.lignePousseur ∧ e.m.colonnePousseur = m.colonnePousseur ∧
      ∃ V, depart m ∈ V ∧ e.current.etat ∈ V ∧ ∀ c, e.m.t.terrain c.1 c.2 = dessin m.t V e.current.etat c := by
  obtain ⟨k, hk, -⟩ := he
  obtain ⟨-, -, -, V, hV⟩ := apresTours_trace hk
  refine ⟨hV.bords.2.2, by rw [hV.moteur], by rw [hV.moteur], V, hV.vues.1, ?_, ?_⟩
  · rw [hV.courant]
    exact hV.vues.2
  · intro c
    rw [hV.courant]
    exact hV.cases c

/-! ## What the constructor finds -/

/-- `saci`, `sacj` is a cell of a bag off the goals, if there are any -/
theorem nouveau_sac {c : ℤ × ℤ} (h : t.terrain c.1 c.2 = some .sac) :
    t.terrain (Moteur.nouveau t).saci (Moteur.nouveau t).sacj = some .sac := by
  have hbranche : ∀ p, t.terrain p.1 p.2 = some .sac → t.contientEn .pousseur p = false ∧
      t.contientEn .but p = false ∧ t.contientEn .sac p = true := by
    intro p hp
    rw [Terrain.contientEn, Terrain.contientEn, Terrain.contientEn, hp]
    decide
  apply Moteur.foldl_repere (fun m => (m.saci, m.sacj)) fun p => t.terrain p.1 p.2 = some .sac
  · intro m p hp
    simp [Moteur.repere, hbranche p hp]
  · intro m p hp
    unfold Moteur.repere
    split_ifs with hpousseur hbut hsac
    · rfl
    · rfl
    · -- a bag on a goal is in the branch of the goals
      obtain ⟨k, hk, hks⟩ := Terrain.contientEn_iff.1 hsac
      rcases (Case.contient_sac_iff k).1 hks with rfl | rfl
      · exact absurd hk hp
      · exact absurd (Terrain.contientEn_iff.2 ⟨_, hk, rfl⟩) hbut
    · rfl
  · exact .inr ⟨c, Moteur.mem_positions_of h, h⟩

/-! ## What is left of the level -/

theorem terrain_eq (hbords : t'.largeur = t.largeur ∧ t'.hauteur = t.hauteur ∧ t'.nbBut = t.nbBut)
    (h : t'.terrain = t.terrain) : t' = t := by
  cases t
  cases t'
  simp_all

/-- nothing but the board of the engine is written -/
theorem Trace.intact_iff (h : Trace m e V) :
    Intact m e.m ↔ ∀ c, dessin m.t V (e.sac, e.perso) c = m.t.terrain c.1 c.2 := by
  apply Iff.intro
  · intro hI c
    rw [← h.cases, hI.cases]
  · intro hc
    refine ⟨?_, h.bords.2.2, by rw [h.moteur], by rw [h.moteur]⟩
    funext i j
    exact (h.cases (i, j)).trans (hc (i, j))

theorem Trace.moteur_eq (h : Trace m e V) (hI : Intact m e.m) : e.m = m := by
  rw [h.moteur, terrain_eq h.bords hI.cases]

/-- drawing the start on itself changes nothing -/
theorem dessin_depart (h : Dessine m) (c : ℤ × ℤ) : dessin m.t [depart m] (depart m) c = m.t.terrain c.1 c.2 := by
  have hs : m.t.terrain (depart m).1.1 (depart m).1.2 = some .sac := h.sac
  unfold dessin
  simp only [List.mem_singleton, exists_eq_left]
  split_ifs with h₁ h₂ h₃
  · rw [h₁, hs]
  · rcases h.pousseur with hp | hp
    · exact absurd (h₂.trans hp) h₁
    · rw [h₂]
      exact hp.symm
  · exact absurd h₃ (not_or.2 ⟨h₁, h₂⟩)
  · rfl

theorem dessin_vue {c : ℤ × ℤ} (hx : x ∈ V) (hc : c = x.1 ∨ c = x.2) :
    dessin t V y c = if c = y.1 then some .sac else if c = y.2 then some .pousseur else some .libre := by
  unfold dessin
  rw [if_pos (⟨x, hx, hc⟩ : ∃ x ∈ V, c = x.1 ∨ c = x.2)]

/-- when the board is as before, the last position is the first one, and it is drawn as the search draws it -/
theorem Trace.depart_eq (h : Trace (Moteur.nouveau t) e V) (hI : Intact (Moteur.nouveau t) e.m) :
    Dessine (Moteur.nouveau t) ∧ (e.sac, e.perso) = depart (Moteur.nouveau t) := by
  have hcase := h.intact_iff.1 hI
  rw [Moteur.nouveau_t] at hcase
  have hsac : t.terrain (Moteur.nouveau t).saci (Moteur.nouveau t).sacj = some .sac := by
    have hlast := hcase e.sac
    rw [dessin, if_pos rfl] at hlast
    exact nouveau_sac hlast.symm
  have hs : (depart (Moteur.nouveau t)).1 = e.sac := by
    have hfirst := hcase (depart (Moteur.nouveau t)).1
    have hsac : t.terrain (depart (Moteur.nouveau t)).1.1 (depart (Moteur.nouveau t)).1.2 = some .sac := hsac
    rw [dessin_vue h.vues.1 (.inl rfl), hsac] at hfirst
    split_ifs at hfirst with h₁ h₂
    · exact h₁
    · cases hfirst
    · cases hfirst
  have hsac : (Moteur.nouveau t).t.terrain (Moteur.nouveau t).saci (Moteur.nouveau t).sacj = some .sac := by
    rw [Moteur.nouveau_t]
    exact hsac
  by_cases hpe : e.sac = e.perso
  · have hdep := h.distinct hpe
    obtain ⟨hds, hdp⟩ := Prod.mk.inj hdep
    exact ⟨⟨hsac, .inl (hdp.symm.trans (hpe.symm.trans hds))⟩, hdep⟩
  · have hlast := hcase e.perso
    rw [dessin, if_neg (Ne.symm hpe), if_pos rfl] at hlast
    have hpousseur : t.contientEn .pousseur e.perso = true := Terrain.contientEn_iff.2 ⟨_, hlast.symm, rfl⟩
    obtain ⟨k, hk, hkp⟩ := Terrain.contientEn_iff.1 (Moteur.nouveau_pousseur hpousseur)
    have hfirst := hcase (depart (Moteur.nouveau t)).2
    have hk : t.terrain (depart (Moteur.nouveau t)).2.1 (depart (Moteur.nouveau t)).2.2 = some k := hk
    rw [dessin_vue h.vues.1 (.inr rfl), hk] at hfirst
    split_ifs at hfirst with h₁ h₂
    · cases hfirst
      cases hkp
    · refine ⟨⟨hsac, .inr ?_⟩, Prod.ext hs.symm h₂.symm⟩
      rw [Moteur.nouveau_t, hfirst]
      exact hk
    · cases hfirst
      cases hkp

/-- a board as before: the search stops on its first position -/
theorem Trace.immobile (h : Trace (Moteur.nouveau t) e V) (hc : continuer e = false)
    (hI : Intact (Moteur.nouveau t) e.m) : Immobile (Moteur.nouveau t) := by
  obtain ⟨hD, hdep⟩ := h.depart_eq hI
  have hm := h.moteur_eq hI
  have hetat : e.current.etat = (origine (Moteur.nouveau t)).etat := h.courant.trans hdep
  refine ⟨hD, ?_⟩
  rcases continuer_false_iff.1 hc with hvide | hbut
  · left
    have hs := h.successeurs hvide
    rw [hm] at hs
    exact Sokoban.successeurs_nil hs hetat.symm
  · right
    rw [hm, (Prod.mk.inj hetat).1] at hbut
    exact hbut

/-- drawn at the start, the first position leaves the board as it was, and the first turn is the last -/
theorem Immobile.premier (h : Immobile m) (h₁ : tour (debut m) = .ok e) : e.m = m ∧ continuer e = false := by
  obtain ⟨htrace, hcur, hvide⟩ := debut_trace h₁
  have hetat : (e.sac, e.perso) = depart m := by
    rw [← htrace.courant, hcur]
    rfl
  have hm : e.m = m := by
    apply htrace.moteur_eq
    rw [htrace.intact_iff, hetat]
    exact dessin_depart h.toDessine
  refine ⟨hm, ?_⟩
  rw [continuer_false_iff]
  refine h.arret.imp ?_ ?_
  · intro hs
    apply hvide
    rw [hm, hcur]
    exact hs
  · intro hbut
    rw [hm, hcur]
    exact hbut

/-- **The search and the game.** The game is as before exactly when the search stops on the position that it starts
from, drawn with SAC and POUSSEUR. -/
theorem explorer_intact_iff (he : Arrete (Moteur.nouveau t) e) :
    Intact (Moteur.nouveau t) e.m ↔ Immobile (Moteur.nouveau t) := by
  obtain ⟨k, hk, hc⟩ := he
  obtain ⟨e₁, h₁, htours, V, hV⟩ := apresTours_trace hk
  apply Iff.intro
  · exact hV.immobile hc
  · intro h
    obtain ⟨hm, hc₁⟩ := h.premier h₁
    rw [tours_of_not hc₁, Except.ok.injEq] at htours
    subst htours
    rw [hm]
    exact ⟨rfl, rfl, rfl, rfl⟩

/-- a bag in a corner, above the pusher -/
def coin : Terrain := Terrain.deLignes 1 2 [[.sac], [.pousseur]]

theorem explorer_intact_coin : ∃ e, Arrete (Moteur.nouveau coin) e ∧ Intact (Moteur.nouveau coin) e.m := by
  have harrete : Arrete (Moteur.nouveau coin) _ := ⟨0, rfl, rfl⟩
  exact ⟨_, harrete, (explorer_intact_iff harrete).2 ⟨⟨rfl, .inr rfl⟩, .inl rfl⟩⟩

theorem rangee_arrete : ∃ e, Arrete (Moteur.nouveau (rangee 1)) e ∧ e.current.sac = (0, 2) := by
  obtain ⟨e₀, e₁, h₀, h₁, -, hc₀, -, hcur, hc₁⟩ := tours_rangee 1
  have hun : apresTours (Moteur.nouveau (rangee 1)) 1 = .ok e₁ := by
    rw [apresTours, h₀]
    exact tours_of_cond hc₀ h₁ 0
  exact ⟨e₁, ⟨1, hun, hc₁⟩, by rw [hcur]⟩

/-- **The solution wipes out the goal**: on this level the search stops, and the game is not as before. -/
theorem but_efface : Terrain.lire "3 1\nX&O".toList = .ok (rangee 1) ∧
    ∃ e, Arrete (Moteur.nouveau (rangee 1)) e ∧ ¬ Intact (Moteur.nouveau (rangee 1)) e.m := by
  obtain ⟨e, he, hsac⟩ := rangee_arrete
  refine ⟨rfl, e, he, ?_⟩
  intro hI
  obtain ⟨k, hk, -⟩ := he
  obtain ⟨e₁, -, -, V, hV⟩ := apresTours_trace hk
  -- the bag is on the goal, and not where it started
  have hetat := hV.courant.trans (hV.depart_eq hI).2
  rw [SacPerso.etat, hsac] at hetat
  exact absurd (Prod.mk.inj hetat).1 (by decide)

end Semestre6.Sokoban
