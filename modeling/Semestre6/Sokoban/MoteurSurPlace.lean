/-
The engine as it writes on the board: an exception keeps the assignments made before it (Moteur.java, `action`).

- `SurPlace`: a method of the engine, its exception or result and the engine that it leaves; `Garde`: what a method
  keeps, thrown or not;
- `action_ok`: a call of `Moteur.action` that returns leaves the same engine here;
- `joues_lisible`: no sequence of clicks, on any level, writes INVALIDE;
- `toString_relu`: the boards printed by `toString` are read back.
-/
import Semestre6.Sokoban.Partie
import Semestre6.Sokoban.Relecture

namespace Semestre6.Sokoban

open Boucle

def SurPlace (α : Type) : Type := Moteur → Except JException α × Moteur

namespace SurPlace

variable {α β : Type}

def rend (x : Except JException α) : SurPlace α := fun m => (x, m)

/-- what follows is not done when an exception is thrown -/
def puis (x : SurPlace α) (f : α → SurPlace β) : SurPlace β := fun m =>
  match x m with
  | (.ok a, m') => f a m'
  | (.error e, m') => (.error e, m')

instance : Monad SurPlace where
  pure a := rend (.ok a)
  bind := puis

def moteur : SurPlace Moteur := fun m => (.ok m, m)

def modifie (f : Moteur → Moteur) : SurPlace Unit := fun m => (.ok (), f m)

def consulter (i j : ℤ) : SurPlace Case := fun m => (m.t.consulter i j, m)

def assigner (c : Case) (i j : ℤ) : SurPlace Unit := fun m =>
  match m.t.assigner c i j with
  | .ok t => (.ok (), { m with t := t })
  | .error e => (.error e, m)

/-- the walk branch of `action` -/
def marcher (i j : ℤ) : SurPlace Unit := do
  let m ← moteur
  let courante ← consulter m.lignePousseur m.colonnePousseur
  let courante ← rend (courante.retrait .pousseur)
  assigner courante m.lignePousseur m.colonnePousseur
  let courante ← consulter i j
  let courante ← rend (courante.ajout .pousseur)
  assigner courante i j
  modifie fun m => { m with
    nbMouvement := m.nbMouvement + Moteur.deplacement m.lignePousseur m.colonnePousseur i j
    lignePousseur := i
    colonnePousseur := j
    nbActions := m.nbActions + 1 }

/-- a bag that reaches a goal is taken off and counted -/
def arriver (ks arrivee : Case) : SurPlace Case :=
  if arrivee.contient .but then do
    let ks ← rend (ks.retrait .sac)
    modifie fun m => { m with t := m.t.butAtteint }
    pure ks
  else pure ks

/-- a push branch of `action` -/
def pousser (i j di dj : ℤ) : SurPlace Unit := do
  let m ← moteur
  let kp ← consulter m.lignePousseur m.colonnePousseur
  let ks ← consulter i j
  let arrivee ← consulter (i + di) (j + dj)
  let ks ← arriver ks arrivee
  assigner ks (i + di) (j + dj)
  assigner kp i j
  let c ← rend (kp.retrait .pousseur)
  assigner c m.lignePousseur m.colonnePousseur
  modifie fun m => { m with
    lignePousseur := m.lignePousseur + di
    colonnePousseur := m.colonnePousseur + dj
    nbMouvement := m.nbMouvement + 1 }

def action (i j : ℤ) : SurPlace Bool := do
  let m ← moteur
  let k ← consulter i j
  if k.estLibre then
    let chemin ← rend (m.existeChemin m.lignePousseur m.colonnePousseur i j)
    if chemin then do
      marcher i j
      pure true
    else pure false
  else if k.contient .sac then
    match m.sacAdjacent i j with
    | some d =>
      if m.estPossible (i + d.decalage.1) (j + d.decalage.2) then do
        pousser i j d.decalage.1 d.decalage.2
        pure true
      else pure false
    | none => pure false
  else pure false

/-- the clicks of a game, whether they throw or not -/
def joues (coups : List (ℤ × ℤ)) (m : Moteur) : Moteur := coups.foldl (fun m p => (action p.1 p.2 m).2) m

/-! ## What a method keeps -/

/-- `P` is kept whatever happens, and a result meets `Q` -/
def Garde (P : Moteur → Prop) (x : SurPlace α) (Q : α → Prop) : Prop :=
  ∀ m, P m → P (x m).2 ∧ ∀ a, (x m).1 = .ok a → Q a

variable {P : Moteur → Prop} {Q : α → Prop} {R : β → Prop} {x : SurPlace α} {f : α → SurPlace β}

theorem Garde.bind (hx : Garde P x Q) (hf : ∀ a, Q a → Garde P (f a) R) : Garde P (x >>= f) R := by
  intro m hm
  obtain ⟨hP, hQ⟩ := hx m hm
  change P (puis x f m).2 ∧ ∀ b, (puis x f m).1 = .ok b → R b
  rw [puis]
  cases hxm : x m with
  | mk r m' =>
    rw [hxm] at hP hQ
    cases r with
    | error e => exact ⟨hP, by simp⟩
    | ok a => exact hf a (hQ a rfl) m' hP

theorem Garde.rend {r : Except JException α} (h : ∀ a, r = .ok a → Q a) : Garde P (rend r) Q :=
  fun _ hm => ⟨hm, h⟩

theorem Garde.pure {a : α} (h : Q a) : Garde P (Pure.pure a : SurPlace α) Q :=
  Garde.rend fun _ hb => Except.ok.inj hb ▸ h

theorem Garde.moteur : Garde P SurPlace.moteur fun _ => True := fun _ hm => ⟨hm, fun _ _ => trivial⟩

theorem Garde.modifie {f : Moteur → Moteur} (h : ∀ m, P m → P (f m)) : Garde P (modifie f) fun _ => True :=
  fun m hm => ⟨h m hm, fun _ _ => trivial⟩

theorem Garde.si {x y : SurPlace α} {c : Prop} [Decidable c] (hx : Garde P x Q) (hy : Garde P y Q) :
    Garde P (if c then x else y) Q := by
  split_ifs
  · exact hx
  · exact hy

/-! ## No INVALIDE -/

theorem ajout_ne_invalide {k c k' : Case} (h : k.ajout c = .ok k') : k' ≠ .invalide := by
  unfold Case.ajout at h
  simp only at h
  split_ifs at h
  all_goals exact Except.ok.inj h ▸ by decide

theorem retrait_ne_invalide {k c k' : Case} (h : k.retrait c = .ok k') : k' ≠ .invalide := by
  unfold Case.retrait at h
  simp only at h
  split_ifs at h
  all_goals exact Except.ok.inj h ▸ by decide

/-- the sizes are those of `t`, and INVALIDE is no cell's -/
structure Plateau (t : Terrain) (m : Moteur) : Prop where
  largeur : m.t.largeur = t.largeur
  hauteur : m.t.hauteur = t.hauteur
  sansInvalide : m.t.SansInvalide

variable {t : Terrain} {i j : ℤ} {m m' : Moteur} {b : Bool}

theorem garde_consulter (i j : ℤ) : Garde (Plateau t) (consulter i j) (· ≠ .invalide) := by
  intro m hm
  refine ⟨hm, ?_⟩
  intro k hk hinv
  have hk' : m.t.consulter i j = .ok .invalide := hinv ▸ hk
  unfold Terrain.consulter at hk'
  split at hk'
  · rename_i k' hcase
    exact hm.sansInvalide i j (hcase.trans (congrArg some (Except.ok.inj hk')))
  · cases hk'

theorem garde_assigner {c : Case} (hc : c ≠ .invalide) (i j : ℤ) :
    Garde (Plateau t) (assigner c i j) fun _ => True := by
  intro m hm
  refine ⟨?_, fun _ _ => trivial⟩
  unfold assigner Terrain.assigner
  split_ifs with hd
  · refine ⟨hm.largeur, hm.hauteur, ?_⟩
    intro i' j' h
    rw [Terrain.pose_terrain hd] at h
    split_ifs at h
    · exact hc (Option.some.inj h)
    · exact hm.sansInvalide i' j' h
  · exact hm

theorem garde_marcher (i j : ℤ) : Garde (Plateau t) (marcher i j) fun _ => True := by
  refine Garde.bind Garde.moteur fun m _ => Garde.bind (garde_consulter _ _) fun k hk => ?_
  refine Garde.bind (Garde.rend fun _ => retrait_ne_invalide) fun c hc => ?_
  refine Garde.bind (garde_assigner hc _ _) fun _ _ => ?_
  refine Garde.bind (garde_consulter _ _) fun k hk => ?_
  refine Garde.bind (Garde.rend fun _ => ajout_ne_invalide) fun c hc => ?_
  refine Garde.bind (garde_assigner hc _ _) fun _ _ => Garde.modifie ?_
  intro m hm
  exact ⟨hm.largeur, hm.hauteur, hm.sansInvalide⟩

theorem garde_arriver {ks arrivee : Case} (hks : ks ≠ .invalide) :
    Garde (Plateau t) (arriver ks arrivee) (· ≠ .invalide) := by
  refine Garde.si ?_ (Garde.pure hks)
  refine Garde.bind (Garde.rend fun _ => retrait_ne_invalide) fun c hc => Garde.bind (Garde.modifie ?_) fun _ _ =>
    Garde.pure hc
  intro m hm
  have htaille : m.t.butAtteint.largeur = m.t.largeur ∧ m.t.butAtteint.hauteur = m.t.hauteur := by
    unfold Terrain.butAtteint
    split_ifs
    · exact ⟨rfl, rfl⟩
    · exact ⟨rfl, rfl⟩
  refine ⟨htaille.1.trans hm.largeur, htaille.2.trans hm.hauteur, ?_⟩
  intro i j h
  exact hm.sansInvalide i j (by simpa using h)

theorem garde_pousser (i j di dj : ℤ) : Garde (Plateau t) (pousser i j di dj) fun _ => True := by
  refine Garde.bind Garde.moteur fun m _ => Garde.bind (garde_consulter _ _) fun kp hkp => ?_
  refine Garde.bind (garde_consulter _ _) fun ks hks => Garde.bind (garde_consulter _ _) fun arrivee _ => ?_
  refine Garde.bind (garde_arriver hks) fun ks hks => Garde.bind (garde_assigner hks _ _) fun _ _ => ?_
  refine Garde.bind (garde_assigner hkp _ _) fun _ _ => ?_
  refine Garde.bind (Garde.rend fun _ => retrait_ne_invalide) fun c hc => ?_
  refine Garde.bind (garde_assigner hc _ _) fun _ _ => Garde.modifie ?_
  intro m hm
  exact ⟨hm.largeur, hm.hauteur, hm.sansInvalide⟩

/-- a click keeps the sizes and writes no INVALIDE, also when it throws -/
theorem garde_action (i j : ℤ) : Garde (Plateau t) (action i j) fun _ => True := by
  have hvrai {x : SurPlace Unit} (hx : Garde (Plateau t) x fun _ => True) :
      Garde (Plateau t) (do x; pure true) fun _ => True := Garde.bind hx fun _ _ => Garde.pure trivial
  have hfaux : Garde (Plateau t) (pure false) fun _ => True := Garde.pure trivial
  refine Garde.bind Garde.moteur fun m _ => Garde.bind (garde_consulter _ _) fun k _ => Garde.si ?_ (Garde.si ?_ hfaux)
  · exact Garde.bind (Garde.rend fun _ _ => trivial) fun chemin _ => Garde.si (hvrai (garde_marcher i j)) hfaux
  · cases m.sacAdjacent i j with
    | none => exact hfaux
    | some d => exact Garde.si (hvrai (garde_pousser _ _ _ _)) hfaux

/-- no sequence of clicks writes INVALIDE -/
theorem plateau_joues (coups : List (ℤ × ℤ)) (h : Plateau t m) : Plateau t (joues coups m) := by
  induction coups generalizing m with
  | nil => exact h
  | cons p coups ih => exact ih (garde_action p.1 p.2 m h).1

/-! ## The calls that return -/

theorem puis_ok {a : α} (h : x m = (.ok a, m')) : (x >>= f) m = f a m' := by
  change puis x f m = f a m'
  rw [puis, h]

theorem moteur_ok (m : Moteur) : moteur m = (.ok m, m) := rfl

theorem modifie_ok (g : Moteur → Moteur) (m : Moteur) : modifie g m = (.ok (), g m) := rfl

theorem rend_ok {r : Except JException α} {a : α} (h : r = .ok a) : rend r m = (.ok a, m) := by rw [rend, h]

theorem consulter_ok {k : Case} (h : m.t.consulter i j = .ok k) : consulter i j m = (.ok k, m) := by rw [consulter, h]

theorem assigner_ok {c : Case} {t : Terrain} (h : m.t.assigner c i j = .ok t) :
    assigner c i j m = (.ok (), { m with t := t }) := by rw [assigner, h]

theorem marcher_ok (h : m.marcher i j = .ok m') : marcher i j m = (.ok (), m') := by
  obtain ⟨k, hk, h⟩ := ok_of_bind h
  obtain ⟨c, hc, h⟩ := ok_of_bind h
  obtain ⟨t, ht, h⟩ := ok_of_bind h
  obtain ⟨k', hk', h⟩ := ok_of_bind h
  obtain ⟨c', hc', h⟩ := ok_of_bind h
  obtain ⟨t', ht', h⟩ := ok_of_bind h
  obtain rfl := Except.ok.inj h
  rw [marcher, puis_ok (moteur_ok m), puis_ok (consulter_ok hk), puis_ok (rend_ok hc), puis_ok (assigner_ok ht),
    puis_ok (consulter_ok hk'), puis_ok (rend_ok hc'), puis_ok (assigner_ok ht')]
  rfl

theorem arriver_ok {ks arrivee ks' : Case} {t : Terrain} (h : m.arriver ks arrivee = .ok (ks', t)) :
    arriver ks arrivee m = (.ok ks', { m with t := t }) := by
  unfold Moteur.arriver at h
  unfold arriver
  split_ifs at h ⊢ with hb
  · obtain ⟨c, hc, h⟩ := ok_of_map h
    obtain ⟨rfl, rfl⟩ := Prod.mk.inj h
    rw [puis_ok (rend_ok hc), puis_ok (modifie_ok _ m)]
    rfl
  · obtain ⟨rfl, rfl⟩ := Prod.mk.inj (Except.ok.inj h)
    rfl

theorem pousser_ok {di dj : ℤ} (h : m.pousser i j di dj = .ok m') : pousser i j di dj m = (.ok (), m') := by
  obtain ⟨kp, hkp, h⟩ := ok_of_bind h
  obtain ⟨ks, hks, h⟩ := ok_of_bind h
  obtain ⟨ka, hka, h⟩ := ok_of_bind h
  obtain ⟨⟨ks', t⟩, hr, h⟩ := ok_of_bind h
  obtain ⟨t₁, h₁, h⟩ := ok_of_bind h
  obtain ⟨t₂, h₂, h⟩ := ok_of_bind h
  obtain ⟨c, hc, h⟩ := ok_of_bind h
  obtain ⟨t₃, h₃, h⟩ := ok_of_bind h
  obtain rfl := Except.ok.inj h
  rw [pousser, puis_ok (moteur_ok m), puis_ok (consulter_ok hkp), puis_ok (consulter_ok hks),
    puis_ok (consulter_ok hka), puis_ok (arriver_ok hr), puis_ok (assigner_ok h₁), puis_ok (assigner_ok h₂),
    puis_ok (rend_ok hc), puis_ok (assigner_ok h₃)]
  rfl

/-- a call that returns leaves the engine that `Moteur.action` gives -/
theorem action_ok (h : m.action i j = .ok (m', b)) : action i j m = (.ok b, m') := by
  obtain ⟨k, hk, h⟩ := ok_of_bind h
  rw [action, puis_ok (moteur_ok m), puis_ok (consulter_ok hk)]
  by_cases hl : k.estLibre = true
  · rw [if_pos hl] at h ⊢
    obtain ⟨chemin, hchemin, h⟩ := ok_of_bind h
    rw [puis_ok (rend_ok hchemin)]
    by_cases hc : chemin = true
    · rw [if_pos hc] at h ⊢
      obtain ⟨m₁, hm₁, h⟩ := ok_of_map h
      obtain ⟨rfl, rfl⟩ := Prod.mk.inj h
      rw [puis_ok (marcher_ok hm₁)]
      rfl
    · rw [if_neg hc] at h ⊢
      obtain ⟨rfl, rfl⟩ := Prod.mk.inj (Except.ok.inj h)
      rfl
  · rw [if_neg hl] at h ⊢
    by_cases hs : k.contient .sac = true
    · rw [if_pos hs] at h ⊢
      cases hd : m.sacAdjacent i j with
      | none =>
        simp only [hd] at h ⊢
        obtain ⟨rfl, rfl⟩ := Prod.mk.inj (Except.ok.inj h)
        rfl
      | some d =>
        simp only [hd] at h ⊢
        split_ifs at h ⊢
        · obtain ⟨m₁, hm₁, h⟩ := ok_of_map h
          obtain ⟨rfl, rfl⟩ := Prod.mk.inj h
          rw [puis_ok (pousser_ok hm₁)]
          rfl
        · obtain ⟨rfl, rfl⟩ := Prod.mk.inj (Except.ok.inj h)
          rfl
    · rw [if_neg hs] at h ⊢
      obtain ⟨rfl, rfl⟩ := Prod.mk.inj (Except.ok.inj h)
      rfl

end SurPlace

/-! ## Printed and read again -/

namespace Terrain

variable {separateur : Char} {texte : List Char} {t : Terrain}

theorem equals_nbBut (t : Terrain) (n : ℕ) : t.equals { t with nbBut := n } = true := by simp [equals]

theorem relu (separateur : Char) (hl : 1 ≤ t.largeur) (h : Lisible t) :
    ∃ t', lireLocale separateur t.toString = .ok t' ∧ t.equals t' = true :=
  ⟨_, lireLocale_toString separateur hl h.largeur h.hauteur h.sansInvalide, equals_nbBut t _⟩

/-- a level that was read can be printed all along a game -/
theorem joues_lisible (coups : List (ℤ × ℤ)) (h : Lisible t) :
    (SurPlace.joues coups (Moteur.nouveau t)).t.largeur = t.largeur ∧
      Lisible (SurPlace.joues coups (Moteur.nouveau t)).t := by
  have hdebut : SurPlace.Plateau t (Moteur.nouveau t) :=
    ⟨by rw [Moteur.nouveau_t], by rw [Moteur.nouveau_t], by rw [Moteur.nouveau_t]; exact h.sansInvalide⟩
  have hfin := SurPlace.plateau_joues coups hdebut
  exact ⟨hfin.largeur, hfin.largeur.trans_le h.largeur, hfin.hauteur.trans_le h.hauteur, hfin.sansInvalide⟩

/-- **Boards are read back**: those without INVALIDE, those of a game, and the levels with their counters. -/
theorem toString_relu (separateur : Char) :
    (∀ t : Terrain, 1 ≤ t.largeur → t.largeur ≤ 2147483647 → t.hauteur ≤ 2147483647 → SansInvalide t →
        ∃ t', lireLocale separateur t.toString = .ok t' ∧ t.equals t' = true) ∧
      (∀ texte t coups, lireLocale separateur texte = .ok t → 1 ≤ t.largeur →
        ∃ t', lireLocale separateur (SurPlace.joues coups (Moteur.nouveau t)).t.toString = .ok t' ∧
          (SurPlace.joues coups (Moteur.nouveau t)).t.equals t' = true) ∧
      ∀ texte t, lireLocale separateur texte = .ok t → 1 ≤ t.largeur → lireLocale separateur t.toString = .ok t := by
  refine ⟨?_, ?_, ?_⟩
  · intro t hl hlmax hhmax hs
    exact relu separateur hl ⟨hlmax, hhmax, hs⟩
  · intro texte t coups h hl
    obtain ⟨hlargeur, hlis⟩ := joues_lisible coups (lireLocale_lisible h).1
    exact relu separateur (hlargeur ▸ hl) hlis
  · intro texte t h hl
    obtain ⟨hlis, hn⟩ := lireLocale_lisible h
    rw [lireLocale_toString separateur hl hlis.largeur hlis.hauteur hlis.sansInvalide, ← hn]

theorem toString_relu_impasse :
    lireLocale ',' (Moteur.impasse.toString) = .ok Moteur.impasse ∧
      ∃ t', lireLocale ',' (SurPlace.joues [(0, 1), (5, 5)] (Moteur.nouveau Moteur.impasse)).t.toString = .ok t' ∧
        (SurPlace.joues [(0, 1), (5, 5)] (Moteur.nouveau Moteur.impasse)).t.equals t' = true := by
  have h : lireLocale ',' "4 1\n0&..".toList = .ok Moteur.impasse := lireLocale_of_lire Moteur.lire_impasse
  exact ⟨(toString_relu ',').2.2 _ _ h (by decide), (toString_relu ',').2.1 _ _ _ h (by decide)⟩

end Terrain

end Semestre6.Sokoban
