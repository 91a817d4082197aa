/-
The two listeners of a game (EcouteurDeSouris.java, EcouteurDeClavier.java), both on one engine. The keyboard listener
keeps its own copy of the pusher's position, found once on the board and moved by its own key presses only.

- `synchrone_iff`: along every sequence of clicks and key presses, the copy is the engine's position after every event
  and every key press moves the pusher one cell its way or changes nothing, exactly when no click moves the pusher.
Witness that the condition is needed: `clic_puis_fleche`, a click three cells of corridor away, then the right arrow,
which moves the pusher to the left.
-/
import Semestre6.Sokoban.Partie

namespace Semestre6.Sokoban

open Transition

structure EcouteurDeClavier where
  lignePousseur : ℤ
  colonnePousseur : ℤ
deriving DecidableEq

/-- the constructor returns at the first cell that contains the pusher -/
def EcouteurDeClavier.nouveau (t : Terrain) : EcouteurDeClavier :=
  match t.positions.find? (t.contientEn .pousseur) with
  | some p => ⟨p.1, p.2⟩
  | none => ⟨0, 0⟩

/-- the arrows and the keys Z, D, S and Q -/
def touche (code : ℤ) : Option Direction :=
  if code = 90 ∨ code = 38 then some .nord
  else if code = 68 ∨ code = 39 then some .est
  else if code = 83 ∨ code = 40 then some .sud
  else if code = 81 ∨ code = 37 then some .ouest
  else none

inductive Evenement where
  | souris (i j : ℤ)
  | clavier (code : ℤ)
deriving DecidableEq, Repr

/-- the engine and the copy of the position -/
structure Jeu where
  m : Moteur
  c : EcouteurDeClavier

namespace Jeu

/-- the position plus the offset of a direction -/
def voisine (p d : ℤ × ℤ) : ℤ × ℤ := (p.1 + d.1, p.2 + d.2)

/-- one case of the switch; the cell is computed from the copy -/
def presse (s : Jeu) (d : Direction) : Except JException Jeu :=
  let y := s.c.lignePousseur + d.decalage.1
  let x := s.c.colonnePousseur + d.decalage.2
  if s.m.estPossibleSansLibre y x then do
    let (m, b) ← s.m.action y x
    if b then .ok ⟨m, y, x⟩ else .ok ⟨m, s.c⟩
  else .ok s

def keyPressed (s : Jeu) (code : ℤ) : Except JException Jeu :=
  match touche code with
  | some d => s.presse d
  | none => .ok s

def mousePressed (s : Jeu) (y x : ℤ) : Except JException Jeu := do
  let (m, _) ← s.m.action y x
  .ok ⟨m, s.c⟩

/-- one event; an exception comes before any assignment -/
def evenement (s : Jeu) (e : Evenement) : Jeu :=
  match (match e with | .souris i j => s.mousePressed i j | .clavier code => s.keyPressed code) with
  | .ok s' => s'
  | .error _ => s

def nouveau (t : Terrain) : Jeu := ⟨Moteur.nouveau t, EcouteurDeClavier.nouveau t⟩

def position (s : Jeu) : ℤ × ℤ := (s.m.lignePousseur, s.m.colonnePousseur)

def copie (s : Jeu) : ℤ × ℤ := (s.c.lignePousseur, s.c.colonnePousseur)

/-! ## The law and its condition -/

/-- the copy is the position after the event, and a key press moves the pusher one cell its way or changes nothing -/
def Loi (s : Jeu) (e : Evenement) : Prop :=
  (s.evenement e).copie = (s.evenement e).position ∧
    ∀ code, e = .clavier code →
      s.evenement e = s ∨ ∃ d, touche code = some d ∧ (s.evenement e).position = voisine s.position d.decalage

/-- a click is neither on a free cell that the pusher can reach nor on a bag that it pushes -/
def ClicSansEffet (s : Jeu) : Evenement → Prop
  | .souris i j => ¬s.m.Accessible i j ∧ s.m.arrivee i j = none
  | .clavier _ => True

/-- one cell contains the pusher, the engine's position, and the copy is the same -/
structure Synchrone (s : Jeu) : Prop where
  place : s.m.Place
  copie : s.copie = s.position

theorem accessible_dans {m : Moteur} {i j : ℤ} (h : m.Accessible i j) : m.t.Dans i j := by
  obtain ⟨k, hk, -⟩ := Moteur.estPossible_iff.1 h.1
  exact Terrain.dans_iff.2 ⟨k, hk⟩

/-- the pusher's own cell is not free -/
theorem accessible_ne {m : Moteur} (hP : m.Place) {i j : ℤ} (h : m.Accessible i j) :
    (m.lignePousseur, m.colonnePousseur) ≠ (i, j) := by
  intro he
  obtain ⟨k, hk, hl⟩ := Moteur.estPossible_iff.1 h.1
  have hm : (i, j) ∈ m.t.cellules .pousseur := hP.ailleurs.2 he.symm
  rw [Terrain.mem_cellules_of hk, (Case.libre_exclut hl).2.1] at hm
  exact Bool.false_ne_true hm

/-- what a call on the engine does to the position: refused, or the pusher is on the cell of the call -/
theorem action_position {m : Moteur} (hP : m.Place) {i j : ℤ} (hd : m.t.Dans i j) :
    ∃ m' b, m.action i j = .ok (m', b) ∧ m'.Place ∧
      ((b = false ∧ m' = m ∧ ¬m.Accessible i j ∧ m.arrivee i j = none) ∨
       (b = true ∧ (m'.lignePousseur, m'.colonnePousseur) = (i, j) ∧
          (m.lignePousseur, m.colonnePousseur) ≠ (i, j) ∧ ¬(¬m.Accessible i j ∧ m.arrivee i j = none))) := by
  obtain ⟨m', b, hact, ⟨hb, hm, ha, hn⟩ | ⟨hb, hM, -, hacc⟩ | ⟨hb, d, ha, hQ⟩⟩ := Moteur.action_cases hP hd
  · exact ⟨m', b, hact, hm ▸ hP, Or.inl ⟨hb, hm, hn, ha⟩⟩
  · exact ⟨m', b, hact, hM.place, Or.inr ⟨hb, by rw [hM.ligne, hM.colonne], accessible_ne hP hacc, fun h => h.1 hacc⟩⟩
  · refine ⟨m', b, hact, hQ.place, Or.inr ⟨hb, by rw [hQ.ligne, hQ.colonne], (Moteur.arrivee_some ha).2.2.2.1, ?_⟩⟩
    rintro ⟨-, h⟩
    rw [ha] at h
    cases h

/-! ## One event -/

theorem evenement_souris {s : Jeu} {i j : ℤ} {m : Moteur} {b : Bool} (h : s.m.action i j = .ok (m, b)) :
    s.evenement (.souris i j) = ⟨m, s.c⟩ := by
  simp [evenement, mousePressed, h, bind, Except.bind]

theorem evenement_dehors {s : Jeu} {i j : ℤ} (h : ¬s.m.t.Dans i j) : s.evenement (.souris i j) = s := by
  simp [evenement, mousePressed, Moteur.action_dehors h, bind, Except.bind]

theorem evenement_touche {s : Jeu} {code : ℤ} {d : Direction} (hd : touche code = some d) {m : Moteur} {b : Bool}
    (hin : s.m.t.Dans (s.c.lignePousseur + d.decalage.1) (s.c.colonnePousseur + d.decalage.2))
    (ha : s.m.action (s.c.lignePousseur + d.decalage.1) (s.c.colonnePousseur + d.decalage.2) = .ok (m, b)) :
    s.evenement (.clavier code) =
      if b then ⟨m, s.c.lignePousseur + d.decalage.1, s.c.colonnePousseur + d.decalage.2⟩ else ⟨m, s.c⟩ := by
  cases b with
  | false => simp [evenement, keyPressed, hd, presse, Moteur.estPossibleSansLibre, hin, ha, bind, Except.bind]
  | true => simp [evenement, keyPressed, hd, presse, Moteur.estPossibleSansLibre, hin, ha, bind, Except.bind]

/-- a key press: ignored, or refused by the engine, or a step of the pusher and of the copy -/
theorem evenement_clavier {s : Jeu} (h : s.Synchrone) (code : ℤ) :
    s.evenement (.clavier code) = s ∨
      ∃ d, touche code = some d ∧ (s.evenement (.clavier code)).m.Place ∧
        (s.evenement (.clavier code)).position = voisine s.position d.decalage ∧
        (s.evenement (.clavier code)).copie = voisine s.copie d.decalage := by
  cases hd : touche code with
  | none => exact Or.inl (by simp [evenement, keyPressed, hd])
  | some d =>
    by_cases hin : s.m.t.Dans (s.c.lignePousseur + d.decalage.1) (s.c.colonnePousseur + d.decalage.2)
    · obtain ⟨m', b, ha, hP, ⟨rfl, rfl, -, -⟩ | ⟨rfl, hpos, -, -⟩⟩ := action_position h.place hin
      · exact Or.inl (evenement_touche hd hin ha)
      · refine Or.inr ⟨d, rfl, ?_⟩
        have he : s.copie = s.position := h.copie
        rw [evenement_touche hd hin ha, ← he]
        exact ⟨hP, hpos, rfl⟩
    · exact Or.inl (by simp [evenement, keyPressed, hd, presse, Moteur.estPossibleSansLibre, hin])

theorem place_evenement {s : Jeu} (h : s.Synchrone) (e : Evenement) : (s.evenement e).m.Place := by
  cases e with
  | souris i j =>
    by_cases hin : s.m.t.Dans i j
    · obtain ⟨m', b, ha, hP, -⟩ := action_position h.place hin
      rw [evenement_souris ha]
      exact hP
    · rw [evenement_dehors hin]
      exact h.place
  | clavier code =>
    rcases evenement_clavier h code with he | ⟨d, -, hP, -, -⟩
    · rw [he]
      exact h.place
    · exact hP

/-- a click keeps the copy in step exactly when it does nothing -/
theorem souris_iff {s : Jeu} (h : s.Synchrone) (i j : ℤ) : s.Loi (.souris i j) ↔ s.ClicSansEffet (.souris i j) := by
  have hloi : s.Loi (.souris i j) ↔ (s.evenement (.souris i j)).copie = (s.evenement (.souris i j)).position := by
    simp [Loi]
  rw [hloi]
  by_cases hin : s.m.t.Dans i j
  · obtain ⟨m', b, ha, -, ⟨-, rfl, hn, har⟩ | ⟨-, hpos, hne, hn⟩⟩ := action_position h.place hin
    · rw [evenement_souris ha]
      exact ⟨fun _ => ⟨hn, har⟩, fun _ => h.copie⟩
    · rw [evenement_souris ha]
      refine ⟨fun hc => ?_, fun hc => absurd hc hn⟩
      have hcp : s.position = (i, j) := by
        calc s.position = s.copie := h.copie.symm
          _ = (m'.lignePousseur, m'.colonnePousseur) := hc
          _ = (i, j) := hpos
      exact absurd hcp hne
  · rw [evenement_dehors hin]
    refine ⟨fun _ => ⟨fun ha => hin (accessible_dans ha), ?_⟩, fun _ => h.copie⟩
    cases har : s.m.arrivee i j with
    | none => rfl
    | some d =>
      obtain ⟨k, hk, -⟩ := Terrain.mem_cellules.1 (Moteur.arrivee_some har).1
      exact absurd (Terrain.dans_iff.2 ⟨k, hk⟩) hin

theorem clavier_loi {s : Jeu} (h : s.Synchrone) (code : ℤ) : s.Loi (.clavier code) := by
  rcases evenement_clavier h code with he | ⟨d, hd, -, hp, hc⟩
  · refine ⟨by rw [he]; exact h.copie, ?_⟩
    intro code' hcode
    cases hcode
    exact Or.inl he
  · refine ⟨by rw [hp, hc, h.copie], ?_⟩
    intro code' hcode
    cases hcode
    exact Or.inr ⟨d, hd, hp⟩

theorem loi_iff {s : Jeu} (h : s.Synchrone) (e : Evenement) : s.Loi e ↔ s.ClicSansEffet e := by
  cases e with
  | souris i j => exact souris_iff h i j
  | clavier code => exact ⟨fun _ => trivial, fun _ => clavier_loi h code⟩

/-! ## Games -/

/-- the listener finds the cell that the engine found -/
theorem synchrone_nouveau {t : Terrain} (h : (t.cellules .pousseur).card = 1) : (nouveau t).Synchrone := by
  have hP : (Moteur.nouveau t).Place := Moteur.nouveau_place h
  refine ⟨hP, ?_⟩
  have hpos (p : ℤ × ℤ) (hp : t.contientEn .pousseur p = true) : p = (nouveau t).position := by
    have hm : p ∈ (Moteur.nouveau t).t.cellules .pousseur := by
      rw [Moteur.nouveau_t]
      exact Terrain.mem_cellules.2 (Terrain.contientEn_iff.1 hp)
    exact hP.ailleurs.1 hm
  unfold copie nouveau EcouteurDeClavier.nouveau
  cases hf : t.positions.find? (t.contientEn .pousseur) with
  | some p => exact hpos p (List.find?_some hf)
  | none =>
    obtain ⟨k, hk, hkp⟩ := hP.cellule
    rw [Moteur.nouveau_t] at hk
    refine absurd ?_ (List.find?_eq_none.1 hf (nouveau t).position ?_)
    · exact Terrain.contientEn_iff.2 ⟨k, hk, hkp⟩
    · exact Terrain.mem_positions.2 (Terrain.dans_iff.2 ⟨k, hk⟩)

/-- **The two listeners.** On every level with one pusher and along every sequence of clicks and key presses: the
keyboard's copy is the engine's position after every event and every key press moves the pusher one cell its way or
changes nothing, if and only if no click is on a free cell that the pusher can reach or on a bag that it pushes. -/
theorem synchrone_iff (t : Terrain) (h1 : (t.cellules .pousseur).card = 1) (evenements : List Evenement) :
    Always evenement Loi (nouveau t) evenements ↔ Always evenement ClicSansEffet (nouveau t) evenements := by
  have hpas (s : Jeu) (e : Evenement) (h : s.Synchrone) (hl : s.Loi e) : (s.evenement e).Synchrone :=
    ⟨place_evenement h e, hl.1⟩
  exact always_congr hpas (fun _ e h => loi_iff h e) _ _ (synchrone_nouveau h1)

/-- a pusher and two free cells -/
def allee : Terrain := Terrain.deLignes 3 1 [[.pousseur, .libre, .libre]]

theorem synchrone_iff_allee :
    Always evenement Loi (nouveau allee) [.clavier 39, .souris 0 1] ↔
      Always evenement ClicSansEffet (nouveau allee) [.clavier 39, .souris 0 1] :=
  synchrone_iff allee (by decide) _

theorem accessible_bout : (Moteur.nouveau allee).Accessible 0 2 := by
  refine ⟨by decide, ?_⟩
  have hd : (Moteur.nouveau allee).t.Dans 0 0 := by decide
  have hd' : (Moteur.nouveau allee).t.Dans 0 1 := by decide
  have h0 : (0, 2) ∉ (Moteur.nouveau allee).voisinsLibres (0, 0) := by decide
  have h1 : (Moteur.nouveau allee).voisinsLibres (0, 0) = [(0, 1)] := by decide
  have h2 : (0, 2) ∈ (Moteur.nouveau allee).voisinsLibres (0, 1) := by decide
  have hs : (Moteur.nouveau allee).lignePousseur = 0 ∧ (Moteur.nouveau allee).colonnePousseur = 0 := by decide
  rw [hs.1, hs.2, Moteur.existeChemin, if_neg (by decide), Moteur.cherche, dif_pos hd, if_neg h0, h1,
    if_neg (by decide)]
  change (Moteur.nouveau allee).cherche (0, 2) [(0, 1)] _ = _
  rw [Moteur.cherche, dif_pos hd', if_pos h2]

/-- the engine once the pusher has walked to the end -/
def auBout : Moteur :=
  match (Moteur.nouveau allee).marcher 0 2 with
  | .ok m => m
  | .error _ => Moteur.nouveau allee

theorem accessible_retour : auBout.Accessible 0 1 := by
  refine ⟨by decide, ?_⟩
  have hd : auBout.t.Dans 0 2 := by decide
  have h1 : (0, 1) ∈ auBout.voisinsLibres (0, 2) := by decide
  have hs : auBout.lignePousseur = 0 ∧ auBout.colonnePousseur = 2 := by decide
  rw [hs.1, hs.2, Moteur.existeChemin, if_neg (by decide), Moteur.cherche, dif_pos hd, if_pos h1]

/-- **A click, then an arrow.** The click on the free cell at the end of the corridor moves the pusher and not the copy;
the right arrow then moves it to the left. -/
theorem clic_puis_fleche :
    (allee.cellules .pousseur).card = 1 ∧ ¬Always evenement Loi (nouveau allee) [.souris 0 2, .clavier 39] ∧
      ((nouveau allee).evenement (.souris 0 2)).position = (0, 2) ∧
      (((nouveau allee).evenement (.souris 0 2)).evenement (.clavier 39)).position = (0, 1) := by
  have hs : (nouveau allee).Synchrone := synchrone_nouveau (by decide)
  have hclic : (nouveau allee).evenement (.souris 0 2) = ⟨auBout, (nouveau allee).c⟩ := by
    apply evenement_souris (b := true)
    change (Moteur.nouveau allee).action 0 2 = _
    rw [Moteur.action_marche accessible_bout]
    rfl
  refine ⟨by decide, ?_, by rw [hclic]; decide, ?_⟩
  · rintro ⟨h, -⟩
    exact ((souris_iff hs 0 2).1 h).1 accessible_bout
  · have hin : auBout.t.Dans 0 1 := by decide
    have hcopie : (nouveau allee).c = ⟨0, 0⟩ := by decide
    have hm : ∃ m, auBout.marcher 0 1 = .ok m ∧ (m.lignePousseur, m.colonnePousseur) = (0, 1) := ⟨_, rfl, by decide⟩
    obtain ⟨m, hm, hpos⟩ := hm
    have ha : auBout.action 0 1 = .ok (m, true) := by rw [Moteur.action_marche accessible_retour, hm]; rfl
    rw [hclic, hcopie, evenement_touche (s := ⟨auBout, ⟨0, 0⟩⟩) (d := .est) rfl hin ha]
    exact hpos

end Jeu

end Semestre6.Sokoban
