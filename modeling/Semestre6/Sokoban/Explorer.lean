/-
Moteur.Explorer: a best-first search over the positions (bag, pusher), on the board of the game itself, where it writes
the position that it looks at and clears the previous one.

- `Suivi`: one turn of the loop is one step of the abstract search (`MeilleurDabord.Execution`), so it never throws;
  the table `parcouru` lists the successors handed to the queue, and as its keys are compared by identity it never
  finds one;
- `explorer_optimal`: below 10000000 the loop stops on the least number of pushes, or on an empty queue when the level
  has no solution;
- `explorer_borne_iff`: the loop stops with each position handed once to the queue exactly when no two sequences of
  pushes that come no later than any solution have a next position in common.
Witnesses: `explorer_optimal_enLigne`, and `va_et_vient`, a level without solution on which the loop never stops.
-/
import Semestre6.Lib.ArbreDeRecherche
import Semestre6.Lib.Boucle
import Semestre6.Sokoban.Partie
import Semestre6.Sokoban.Poussees

namespace Semestre6.Sokoban

open Boucle MeilleurDabord Relation

/-- a key of the table `parcouru`; `ref` is the identity of the object, which `hashCode` and `equals` rest on -/
structure CoupleDeCouple where
  ref : ℕ
  sac : ℤ × ℤ
  perso : ℤ × ℤ
deriving DecidableEq, Repr

def CoupleDeCouple.etat (k : CoupleDeCouple) : SacPousseur := (k.sac, k.perso)

/-- the cells that `est_possible_sans_pousseur` lets through -/
def Case.traversable (k : Case) : Bool :=
  !k.contient .sac && !k.contient .sacSurBut && !k.contient .obstacle && !k.contient .invalide

namespace Moteur

def estPossibleSansPousseur (m : Moteur) (i j : ℤ) : Bool :=
  match m.t.terrain i j with
  | some k => k.traversable
  | none => false

def heuristique (m : Moteur) (x y : ℤ) : ℤ := valAbsolue (x - m.buti) + valAbsolue (y - m.butj)

/-- one of the four tests of `successeurs`: the pusher goes to `oppose` and the bag is pushed onto `cible` -/
def essai (m : Moteur) (combi : SacPerso) (oppose cible : ℤ × ℤ) : Except JException (List SacPerso) := do
  if m.estPossibleSansPousseur oppose.1 oppose.2 then
    if ← m.existeChemin combi.perso.1 combi.perso.2 oppose.1 oppose.2 then
      if m.estPossibleSansPousseur cible.1 cible.2 then
        return [⟨cible, combi.sac, combi.poids, m.heuristique cible.1 cible.2⟩]
  return []

def successeurs (m : Moteur) (combi : SacPerso) : Except JException (List SacPerso) := do
  let nord := (combi.sac.1 - 1, combi.sac.2)
  let sud := (combi.sac.1 + 1, combi.sac.2)
  let ouest := (combi.sac.1, combi.sac.2 - 1)
  let est := (combi.sac.1, combi.sac.2 + 1)
  let versSud ← m.essai combi nord sud
  let versNord ← m.essai combi sud nord
  let versOuest ← m.essai combi est ouest
  let versEst ← m.essai combi ouest est
  return versSud ++ versNord ++ versOuest ++ versEst

end Moteur

/-- the locals of `Explorer`; the board `t_chemin` is the one of the engine, and `objets` counts the keys created -/
structure Exploration where
  m : Moteur
  fap : List SacPerso
  parcouru : List CoupleDeCouple
  objets : ℕ
  perso : ℤ × ℤ
  sac : ℤ × ℤ
  current : SacPerso

namespace Exploration

/-- before the loop; `current` is not read before its first assignment -/
def debut (m : Moteur) : Exploration :=
  let combi : SacPerso := ⟨(m.saci, m.sacj), (m.lignePousseur, m.colonnePousseur), 0, m.heuristique m.saci m.sacj⟩
  { m
    fap := FileAPriorite.inserer [] combi
    parcouru := []
    objets := 0
    perso := (m.lignePousseur, m.colonnePousseur)
    sac := (m.saci, m.sacj)
    current := combi }

def containsKey (parcouru : List CoupleDeCouple) (k : CoupleDeCouple) : Bool := parcouru.any fun k' => k'.ref == k.ref

/-- one successor: a new key for the test and another one for the table -/
def traite (e : Exploration) (z : SacPerso) : Exploration :=
  let z := { z with poids := e.current.poids + 1 }
  if !containsKey e.parcouru ⟨e.objets, z.sac, z.perso⟩ then
    { e with
      objets := e.objets + 2
      parcouru := e.parcouru ++ [⟨e.objets + 1, z.sac, z.perso⟩]
      fap := FileAPriorite.inserer e.fap z }
  else { e with objets := e.objets + 1 }

def plateau {α : Type} : Except JException α → Except Erreur α
  | .ok a => .ok a
  | .error e => .error (.plateau e)

/-- the body of the do-while loop -/
def tour (e : Exploration) : Except Erreur Exploration := do
  let t ← plateau (e.m.t.assigner .libre e.perso.1 e.perso.2)
  let t ← plateau (t.assigner .libre e.sac.1 e.sac.2)
  let (current, fap) ← FileAPriorite.extraire e.fap
  let t ← plateau (t.assigner .pousseur current.perso.1 current.perso.2)
  let t ← plateau (t.assigner .sac current.sac.1 current.sac.2)
  let m := { e.m with t := t }
  let succ ← plateau (m.successeurs current)
  return succ.foldl traite { e with m, fap, perso := current.perso, sac := current.sac, current }

/-- the condition of the loop -/
def continuer (e : Exploration) : Bool :=
  !e.fap.isEmpty && (e.current.sac.1 != e.m.buti || e.current.sac.2 != e.m.butj)

end Exploration

open Exploration

/-- after one turn and at most `k` more -/
def apresTours (m : Moteur) (k : ℕ) : Except Erreur Exploration := tour (debut m) >>= tours continuer tour k

/-- the loop of `Explorer` stops in `e` -/
def Arrete (m : Moteur) (e : Exploration) : Prop := ∃ k, apresTours m k = .ok e ∧ continuer e = false

/-! ## The board of the search -/

/-- the cells that are free once the pusher and the bag are lifted -/
def degage (m : Moteur) : Finset (ℤ × ℤ) :=
  (m.t.positions.filter fun c =>
    m.estPossible c.1 c.2 || c = (m.lignePousseur, m.colonnePousseur) || c = (m.saci, m.sacj)).toFinset

/-- the pusher and the bag stand on cells of `L`, and elsewhere the free cells are those of `L` -/
structure Occupe (L : Finset (ℤ × ℤ)) (t : Terrain) (x : SacPousseur) : Prop where
  mem : x ∈ L ×ˢ L
  dans : ∀ c ∈ L, t.Dans c.1 c.2
  libre : ∀ c, c ≠ x.1 → c ≠ x.2 → (c ∈ L ↔ ∃ k, t.terrain c.1 c.2 = some k ∧ k.estLibre = true)
  traversable : ∀ c, c ≠ x.1 → c ≠ x.2 → (c ∈ L ↔ ∃ k, t.terrain c.1 c.2 = some k ∧ k.traversable = true)

variable {L : Finset (ℤ × ℤ)} {t : Terrain} {x y : SacPousseur} {m : Moteur}

/-- the board that a turn writes -/
def ecrit (t : Terrain) (x y : SacPousseur) : Terrain :=
  (((t.pose .libre x.2.1 x.2.2).pose .libre x.1.1 x.1.2).pose .pousseur y.2.1 y.2.2).pose .sac y.1.1 y.1.2

theorem ecrit_terrain_of_dans (hx : t.Dans x.1.1 x.1.2 ∧ t.Dans x.2.1 x.2.2)
    (hy : t.Dans y.1.1 y.1.2 ∧ t.Dans y.2.1 y.2.2) (c : ℤ × ℤ) :
    (ecrit t x y).terrain c.1 c.2 = if c = y.1 then some .sac else if c = y.2 then some .pousseur
      else if c = x.1 then some .libre else if c = x.2 then some .libre else t.terrain c.1 c.2 := by
  rw [ecrit, Terrain.pose_terrain (by simpa using hy.1), Terrain.pose_terrain (by simpa using hy.2),
    Terrain.pose_terrain (by simpa using hx.1), Terrain.pose_terrain hx.2]
  simp only [← Prod.ext_iff]

theorem ecrit_terrain (hx : Occupe L t x) (hy : y ∈ L ×ˢ L) (c : ℤ × ℤ) :
    (ecrit t x y).terrain c.1 c.2 = if c = y.1 then some .sac else if c = y.2 then some .pousseur
      else if c = x.1 then some .libre else if c = x.2 then some .libre else t.terrain c.1 c.2 := by
  obtain ⟨hx₁, hx₂⟩ := Finset.mem_product.1 hx.mem
  obtain ⟨hy₁, hy₂⟩ := Finset.mem_product.1 hy
  exact ecrit_terrain_of_dans ⟨hx.dans _ hx₁, hx.dans _ hx₂⟩ ⟨hx.dans _ hy₁, hx.dans _ hy₂⟩ c

/-- the free cells of the board written: those of `L` but the two -/
theorem ecrit_libre (hx : Occupe L t x) (hy : y ∈ L ×ˢ L) (c : ℤ × ℤ) :
    (∃ k, (ecrit t x y).terrain c.1 c.2 = some k ∧ k.estLibre = true) ↔ c ∈ L ∧ c ≠ y.1 ∧ c ≠ y.2 := by
  obtain ⟨hx₁, hx₂⟩ := Finset.mem_product.1 hx.mem
  rw [ecrit_terrain hx hy]
  split_ifs with h₁ h₂ h₃ h₄
  · simp [h₁, show Case.estLibre .sac = false from rfl]
  · simp [h₂, show Case.estLibre .pousseur = false from rfl]
  · simp [h₁, h₂, show c ∈ L from h₃ ▸ hx₁, show Case.estLibre .libre = true from rfl]
  · simp [h₁, h₂, show c ∈ L from h₄ ▸ hx₂, show Case.estLibre .libre = true from rfl]
  · simp [h₁, h₂, hx.libre c h₃ h₄]

theorem ecrit_traversable (hx : Occupe L t x) (hy : y ∈ L ×ˢ L) (c : ℤ × ℤ) :
    (∃ k, (ecrit t x y).terrain c.1 c.2 = some k ∧ k.traversable = true) ↔ c ∈ L ∧ c ≠ y.1 := by
  obtain ⟨hx₁, hx₂⟩ := Finset.mem_product.1 hx.mem
  obtain ⟨_, hy₂⟩ := Finset.mem_product.1 hy
  rw [ecrit_terrain hx hy]
  split_ifs with h₁ h₂ h₃ h₄
  · simp [h₁, show Case.traversable .sac = false from rfl]
  · simp [h₁, show c ∈ L from h₂ ▸ hy₂, show Case.traversable .pousseur = true from rfl]
  · simp [h₁, show c ∈ L from h₃ ▸ hx₁, show Case.traversable .libre = true from rfl]
  · simp [h₁, show c ∈ L from h₄ ▸ hx₂, show Case.traversable .libre = true from rfl]
  · simp [h₁, hx.traversable c h₃ h₄]

theorem ecrit_occupe (hx : Occupe L t x) (hy : y ∈ L ×ˢ L) : Occupe L (ecrit t x y) y where
  mem := hy
  dans := hx.dans
  libre c h₁ h₂ := by simp [ecrit_libre hx hy, h₁, h₂]
  traversable c h₁ h₂ := by simp [ecrit_traversable hx hy, h₁]

/-! ## The successors -/

/-- the engine on the board written for `y` -/
def surEcrit (m : Moteur) (x y : SacPousseur) : Moteur := { m with t := ecrit m.t x y }

theorem surEcrit_traversable (hx : Occupe L m.t x) (hy : y ∈ L ×ˢ L) (c : ℤ × ℤ) :
    (surEcrit m x y).estPossibleSansPousseur c.1 c.2 = true ↔ c ∈ L ∧ c ≠ y.1 := by
  rw [← ecrit_traversable hx hy, Moteur.estPossibleSansPousseur, surEcrit]
  cases (ecrit m.t x y).terrain c.1 c.2 <;> simp

theorem surEcrit_adjacent (hx : Occupe L m.t x) (hy : y ∈ L ×ˢ L) (v w : ℤ × ℤ) :
    (surEcrit m x y).Adjacent v w ↔ Pas L y.1 v w ∧ w ≠ y.2 := by
  rw [Moteur.Adjacent, Moteur.voisinsLibres, List.mem_filter, Moteur.estPossible_iff, surEcrit, ecrit_libre hx hy, Pas]
  tauto

/-- the pusher's own cell is not free on the board, but no path needs to come back to it -/
theorem surEcrit_chemin (hx : Occupe L m.t x) (hy : y ∈ L ×ˢ L) (c : ℤ × ℤ) :
    ReflTransGen (surEcrit m x y).Adjacent y.2 c ↔ ReflTransGen (Pas L y.1) y.2 c := by
  constructor
  · exact ReflTransGen.mono (fun v w hvw => ((surEcrit_adjacent hx hy v w).1 hvw).1) _ _
  · intro h
    induction h with
    | refl => exact .refl
    | @tail v w _ hvw ih =>
      by_cases hw : w = y.2
      · rw [hw]
      · exact ih.tail ((surEcrit_adjacent hx hy v w).2 ⟨hvw, hw⟩)

theorem decalage_ne_zero (s : ℤ × ℤ) (d : Direction) : s - d.decalage ≠ s ∧ s + d.decalage ≠ s := by
  have h := Moteur.decalage_ne d
  exact ⟨fun he => h (sub_eq_self.1 he), fun he => h (add_eq_left.1 he)⟩

open Classical in
/-- what the test for direction `d` gives -/
noncomputable def pousseeVers (L : Finset (ℤ × ℤ)) (b : ℤ × ℤ) (combi : SacPerso) (d : Direction) : List SacPerso :=
  if Poussable L combi.etat d then
    [⟨combi.sac + d.decalage, combi.sac, combi.poids, distance b (combi.sac + d.decalage, combi.sac)⟩]
  else []

theorem essai_eq (hx : Occupe L m.t x) {combi : SacPerso} (hy : combi.etat ∈ L ×ˢ L) (d : Direction)
    (oppose cible : ℤ × ℤ) (ho : oppose = combi.sac - d.decalage) (hc : cible = combi.sac + d.decalage) :
    (surEcrit m x combi.etat).essai combi oppose cible = .ok (pousseeVers L (m.buti, m.butj) combi d) := by
  subst ho hc
  obtain ⟨hne₁, hne₂⟩ := decalage_ne_zero combi.sac d
  have hoppose := surEcrit_traversable hx hy (combi.sac - d.decalage)
  have hcible := surEcrit_traversable hx hy (combi.sac + d.decalage)
  have hdans : (surEcrit m x combi.etat).t.Dans combi.perso.1 combi.perso.2 :=
    hx.dans _ (Finset.mem_product.1 hy).2
  obtain ⟨b, hb⟩ := (surEcrit m x combi.etat).existeChemin_ok combi.perso.1 combi.perso.2 (combi.sac - d.decalage).1
    (combi.sac - d.decalage).2 hdans
  have hchemin : b = true ↔ ReflTransGen (Pas L combi.sac) combi.perso (combi.sac - d.decalage) := by
    have hecrit : (surEcrit m x combi.etat).existeChemin combi.perso.1 combi.perso.2 (combi.sac - d.decalage).1
        (combi.sac - d.decalage).2 = .ok true ↔ _ := Moteur.existeChemin_iff _ hdans
    rw [hb, Except.ok.injEq] at hecrit
    exact hecrit.trans (surEcrit_chemin hx hy _)
  have hp : Poussable L combi.etat d ↔ combi.sac - d.decalage ∈ L ∧ b = true ∧ combi.sac + d.decalage ∈ L := by
    rw [hchemin]
    exact Iff.rfl
  have ho' : (surEcrit m x combi.etat).estPossibleSansPousseur (combi.sac - d.decalage).1 (combi.sac - d.decalage).2 =
      decide (combi.sac - d.decalage ∈ L) := by
    rw [Bool.eq_iff_iff, hoppose, decide_eq_true_iff]
    exact and_iff_left hne₁
  have hc' : (surEcrit m x combi.etat).estPossibleSansPousseur (combi.sac + d.decalage).1 (combi.sac + d.decalage).2 =
      decide (combi.sac + d.decalage ∈ L) := by
    rw [Bool.eq_iff_iff, hcible, decide_eq_true_iff]
    exact and_iff_left hne₂
  have hh : (surEcrit m x combi.etat).heuristique (combi.sac + d.decalage).1 (combi.sac + d.decalage).2 =
      distance (m.buti, m.butj) (combi.sac + d.decalage, combi.sac) := rfl
  unfold Moteur.essai pousseeVers
  rw [ho', hb, hc', hh]
  by_cases h₁ : combi.sac - d.decalage ∈ L <;> by_cases h₂ : combi.sac + d.decalage ∈ L <;> cases b <;>
    simp [hp, h₁, h₂, bind, Except.bind, pure, Except.pure]

theorem pousseeVers_etat (L : Finset (ℤ × ℤ)) (b : ℤ × ℤ) (combi : SacPerso) :
    ([Direction.sud, .nord, .ouest, .est].flatMap (pousseeVers L b combi)).map SacPerso.etat =
      suivants L combi.etat := by
  unfold suivants
  generalize [Direction.sud, .nord, .ouest, .est] = l
  induction l with
  | nil => rfl
  | cons d l ih =>
    rw [List.flatMap_cons, List.map_append, ih, pousseeVers]
    by_cases h : Poussable L combi.etat d
    · rw [if_pos h, List.filter_cons_of_pos (by simpa using h)]
      rfl
    · rw [if_neg h, List.filter_cons_of_neg (by simpa using h)]
      rfl

/-- the successors computed on the board are the positions after one push -/
theorem successeurs_eq (hx : Occupe L m.t x) {combi : SacPerso} (hy : combi.etat ∈ L ×ˢ L) :
    ∃ succ, (surEcrit m x combi.etat).successeurs combi = .ok succ ∧ succ.map SacPerso.etat = suivants L combi.etat ∧
      ∀ z ∈ succ, z.distance = distance (m.buti, m.butj) z.etat := by
  refine ⟨[Direction.sud, .nord, .ouest, .est].flatMap (pousseeVers L (m.buti, m.butj) combi), ?_,
    pousseeVers_etat L _ combi, ?_⟩
  · have hs := essai_eq hx hy .sud (combi.sac.1 - 1, combi.sac.2) (combi.sac.1 + 1, combi.sac.2)
      (by simp [Direction.decalage, Prod.ext_iff]) (by simp [Direction.decalage, Prod.ext_iff])
    have hn := essai_eq hx hy .nord (combi.sac.1 + 1, combi.sac.2) (combi.sac.1 - 1, combi.sac.2)
      (by simp [Direction.decalage, Prod.ext_iff]) (by simp [Direction.decalage, Prod.ext_iff, sub_eq_add_neg])
    have ho := essai_eq hx hy .ouest (combi.sac.1, combi.sac.2 + 1) (combi.sac.1, combi.sac.2 - 1)
      (by simp [Direction.decalage, Prod.ext_iff]) (by simp [Direction.decalage, Prod.ext_iff, sub_eq_add_neg])
    have he := essai_eq hx hy .est (combi.sac.1, combi.sac.2 - 1) (combi.sac.1, combi.sac.2 + 1)
      (by simp [Direction.decalage, Prod.ext_iff]) (by simp [Direction.decalage, Prod.ext_iff])
    simp [Moteur.successeurs, hs, hn, ho, he, bind, Except.bind, pure, Except.pure]
  · intro z hz
    obtain ⟨d, _, hz⟩ := List.mem_flatMap.1 hz
    unfold pousseeVers at hz
    split_ifs at hz
    · rw [List.mem_singleton.1 hz]
      rfl
    · exact absurd hz List.not_mem_nil

/-! ## One turn -/

/-- an entry of the abstract search -/
def SacPerso.entree (z : SacPerso) : SacPousseur × ℤ := (z.etat, z.poids)

theorem inserer_entree (fap : List SacPerso) (z : SacPerso) :
    (FileAPriorite.inserer fap z).map SacPerso.entree = MeilleurDabord.inserer (fap.map SacPerso.entree) z.entree := by
  have hfst : (fap.map SacPerso.entree).map Prod.fst = fap.map SacPerso.etat := by simp [SacPerso.entree]
  rw [FileAPriorite.inserer_eq, MeilleurDabord.inserer, hfst, SacPerso.entree]
  split_ifs
  · rfl
  · simp [SacPerso.entree]

/-- what the loop on the successors leaves -/
structure Traites (e : Exploration) (succ : List SacPerso) (e' : Exploration) : Prop where
  fap : e'.fap.map SacPerso.entree =
    developpe (e.fap.map SacPerso.entree) (succ.map SacPerso.etat) (e.current.poids + 1)
  nouveaux : ∀ z ∈ e'.fap, z ∈ e.fap ∨ ∃ y ∈ succ, z.etat = y.etat ∧ z.distance = y.distance
  parcouru : e'.parcouru.map CoupleDeCouple.etat = e.parcouru.map CoupleDeCouple.etat ++ succ.map SacPerso.etat
  objets : ∀ k ∈ e'.parcouru, k.ref < e'.objets
  m : e'.m = e.m
  perso : e'.perso = e.perso
  sac : e'.sac = e.sac
  current : e'.current = e.current

/-- a key that has just been created is not in the table -/
theorem containsKey_nouvelle {e : Exploration} (he : ∀ k ∈ e.parcouru, k.ref < e.objets) (s p : ℤ × ℤ) :
    containsKey e.parcouru ⟨e.objets, s, p⟩ = false := by
  rw [containsKey, List.any_eq_false]
  intro k hk
  simpa using (he k hk).ne

theorem foldl_traite (succ : List SacPerso) (e : Exploration) (he : ∀ k ∈ e.parcouru, k.ref < e.objets) :
    Traites e succ (succ.foldl traite e) := by
  induction succ generalizing e with
  | nil =>
    exact ⟨rfl, fun z hz => .inl hz, (List.append_nil _).symm, he, rfl, rfl, rfl, rfl⟩
  | cons y succ ih =>
    have hy : e.traite y = { e with
        objets := e.objets + 2
        parcouru := e.parcouru ++ [⟨e.objets + 1, y.sac, y.perso⟩]
        fap := FileAPriorite.inserer e.fap { y with poids := e.current.poids + 1 } } := by
      simp [traite, containsKey_nouvelle he]
    have hrefs : ∀ k ∈ (e.traite y).parcouru, k.ref < (e.traite y).objets := by
      rw [hy]
      intro k hk
      rcases List.mem_append.1 hk with hk | hk
      · exact (he k hk).trans (by simp)
      · rw [List.mem_singleton.1 hk]
        simp
    obtain ⟨h₁, h₂, h₃, h₄, h₅, h₆, h₇, h₈⟩ := ih (e.traite y) hrefs
    rw [List.foldl_cons]
    refine ⟨?_, ?_, ?_, h₄, ?_, ?_, ?_, ?_⟩
    · rw [h₁, hy]
      simp only [inserer_entree, List.map_cons]
      rfl
    · intro z hz
      rcases h₂ z hz with hz | ⟨y', hy', hz⟩
      · rw [hy] at hz
        simp only [FileAPriorite.inserer_eq] at hz
        split_ifs at hz
        · exact .inl hz
        · rcases List.mem_append.1 hz with hz | hz
          · exact .inl hz
          · rw [List.mem_singleton.1 hz]
            exact .inr ⟨y, List.mem_cons_self .., rfl, rfl⟩
      · exact .inr ⟨y', List.mem_cons_of_mem y hy', hz⟩
    · rw [h₃, hy]
      simp [CoupleDeCouple.etat, SacPerso.etat]
    · rw [h₅, hy]
    · rw [h₆, hy]
    · rw [h₇, hy]
    · rw [h₈, hy]

/-- the bag on the goal -/
def AuBut (m : Moteur) (x : SacPousseur) : Prop := x.1 = (m.buti, m.butj)

/-- the position from which `Explorer` starts -/
def depart (m : Moteur) : SacPousseur := ((m.saci, m.sacj), (m.lignePousseur, m.colonnePousseur))

/-- the abstract search that `Explorer` runs -/
abbrev Recherche (m : Moteur) (X F : List (SacPousseur × ℤ)) : Prop :=
  Execution (suivants (degage m)) (distance (m.buti, m.butj)) 10000000 (AuBut m) (depart m) X F

/-- the state of the loop after `X` has been extracted -/
structure Suivi (m : Moteur) (e : Exploration) (X : List (SacPousseur × ℤ)) : Prop where
  recherche : Recherche m X (e.fap.map SacPerso.entree)
  distance : ∀ z ∈ e.fap, z.distance = distance (m.buti, m.butj) z.etat
  parcouru : e.parcouru.map CoupleDeCouple.etat = appels (suivants (degage m)) X
  objets : ∀ k ∈ e.parcouru, k.ref < e.objets
  occupe : Occupe (degage m) e.m.t (e.sac, e.perso)
  buti : e.m.buti = m.buti
  butj : e.m.butj = m.butj
  /-- a goal would have stopped the loop -/
  dernier : ∀ x ∈ X, AuBut m x.1 → continuer e = false

variable {e : Exploration} {X : List (SacPousseur × ℤ)}

/-- one turn, once the entry that leaves the queue and its successors are known -/
theorem tour_eq {z : SacPerso} {reste succ : List SacPerso} (hx : Occupe L e.m.t (e.sac, e.perso))
    (hz : z.etat ∈ L ×ˢ L) (hext : FileAPriorite.extraire e.fap = .ok (z, reste))
    (hsucc : (surEcrit e.m (e.sac, e.perso) z.etat).successeurs z = .ok succ) :
    tour e = .ok (succ.foldl traite { e with
      m := surEcrit e.m (e.sac, e.perso) z.etat, fap := reste, perso := z.perso, sac := z.sac, current := z }) := by
  obtain ⟨hsL, hpL⟩ := Finset.mem_product.1 hz
  obtain ⟨hs₀, hp₀⟩ := Finset.mem_product.1 hx.mem
  have hdans := hx.dans
  have e₁ : e.m.t.assigner .libre e.perso.1 e.perso.2 = .ok _ := Terrain.assigner_ok (hdans _ hp₀)
  have e₂ : (e.m.t.pose .libre e.perso.1 e.perso.2).assigner .libre e.sac.1 e.sac.2 = .ok _ :=
    Terrain.assigner_ok (hdans _ hs₀)
  have e₃ : ((e.m.t.pose .libre e.perso.1 e.perso.2).pose .libre e.sac.1 e.sac.2).assigner .pousseur z.perso.1
      z.perso.2 = .ok _ := Terrain.assigner_ok (hdans _ hpL)
  have e₄ : (((e.m.t.pose .libre e.perso.1 e.perso.2).pose .libre e.sac.1 e.sac.2).pose .pousseur z.perso.1
      z.perso.2).assigner .sac z.sac.1 z.sac.2 = .ok _ := Terrain.assigner_ok (hdans _ hsL)
  have e₅ : ({ e.m with
      t := (((e.m.t.pose .libre e.perso.1 e.perso.2).pose .libre e.sac.1 e.sac.2).pose .pousseur z.perso.1
        z.perso.2).pose .sac z.sac.1 z.sac.2 } : Moteur).successeurs z = .ok succ := hsucc
  simp only [tour, e₁, plateau, bind, Except.bind, e₂, hext, e₃, e₄, e₅, pure, Except.pure]
  rfl

/-- one turn extracts an entry and does not throw -/
theorem tour_suivi (hd : depart m ∈ degage m ×ˢ degage m) (h : Suivi m e X)
    (hX : ∀ x ∈ X, ¬ AuBut m x.1) (hfap : e.fap ≠ []) :
    ∃ e' z, tour e = .ok e' ∧ z ∈ e.fap ∧ e'.current = z ∧ Suivi m e' (X ++ [z.entree]) := by
  obtain ⟨z, reste, hz, hext⟩ := FileAPriorite.extraire_spec hfap
  have hzf : z ∈ e.fap := hext.mem_iff.2 (.inl rfl)
  have hcle : ∀ y ∈ e.fap, FileAPriorite.cleSac y = cle (Sokoban.distance (m.buti, m.butj)) 10000000 y.entree := by
    intro y hy
    rw [FileAPriorite.cleSac, h.distance y hy]
    rfl
  have hrech := h.recherche.pas hX (Extrait.map hcle hext)
  have hzL : z.etat ∈ degage m ×ˢ degage m :=
    h.recherche.forall (P := (· ∈ degage m ×ˢ degage m)) hd (fun x hx y hy => suivants_mem hx hy) z.entree
      (List.mem_append_right _ (List.mem_map_of_mem hzf))
  obtain ⟨succ, hsucc, hetat, hdist⟩ := successeurs_eq h.occupe hzL
  have htour := tour_eq h.occupe hzL hz hsucc
  obtain ⟨h₁, h₂, h₃, h₄, h₅, h₆, h₇, h₈⟩ := foldl_traite succ { e with
      m := surEcrit e.m (e.sac, e.perso) z.etat, fap := reste, perso := z.perso, sac := z.sac, current := z } h.objets
  simp only at h₁ h₂ h₃ h₅ h₆ h₇ h₈
  refine ⟨_, z, htour, hzf, h₈, ?_, ?_, ?_, h₄, ?_, ?_, ?_, ?_⟩
  · rw [h₁, hetat]
    exact hrech
  · intro y hy
    rcases h₂ y hy with hy | ⟨w, hw, hyw, hd'⟩
    · exact h.distance y (hext.mem_iff.2 (.inr hy))
    · rw [hd', hyw, hdist w hw, h.buti, h.butj]
  · rw [h₃, hetat, appels, List.flatMap_append, ← appels, ← h.parcouru]
    simp [SacPerso.entree]
  · rw [h₅, h₆, h₇]
    exact ecrit_occupe h.occupe hzL
  · rw [h₅]
    exact h.buti
  · rw [h₅]
    exact h.butj
  · intro x hx hbut
    rcases List.mem_append.1 hx with hx | hx
    · exact absurd hbut (hX x hx)
    · rw [List.mem_singleton.1 hx] at hbut
      have hsac : z.sac = (e.m.buti, e.m.butj) := by rw [h.buti, h.butj]; exact hbut
      rw [continuer, h₅, h₈]
      simp [surEcrit, hsac]

/-! ## The start -/

theorem mem_degage {c : ℤ × ℤ} : c ∈ degage m ↔ m.t.Dans c.1 c.2 ∧
    (m.estPossible c.1 c.2 = true ∨ c = (m.lignePousseur, m.colonnePousseur) ∨ c = (m.saci, m.sacj)) := by
  simp only [degage, List.mem_toFinset, List.mem_filter, Terrain.mem_positions, Bool.or_eq_true, decide_eq_true_eq,
    or_assoc]

/-- without a pusher, a cell is free exactly when `est_possible_sans_pousseur` lets it through -/
theorem Case.traversable_eq {k : Case} (hk : k.contient .pousseur = false) : k.traversable = k.estLibre := by
  cases k <;> first | rfl | exact absurd hk (by decide)

theorem depart_occupe (hP : m.Place) (hs : m.t.Dans m.saci m.sacj) : Occupe (degage m) m.t (depart m) := by
  have hp : m.t.Dans m.lignePousseur m.colonnePousseur := by
    obtain ⟨k, hk, _⟩ := hP.cellule
    exact Terrain.dans_iff.2 ⟨k, hk⟩
  have hlibre : ∀ c, c ≠ (depart m).1 → c ≠ (depart m).2 →
      (c ∈ degage m ↔ ∃ k, m.t.terrain c.1 c.2 = some k ∧ k.estLibre = true) := by
    intro c h₁ h₂
    have h₁ : c ≠ (m.saci, m.sacj) := h₁
    have h₂ : c ≠ (m.lignePousseur, m.colonnePousseur) := h₂
    rw [mem_degage, Moteur.estPossible_iff]
    simp only [h₁, h₂, or_false, and_iff_right_iff_imp]
    rintro ⟨k, hk, _⟩
    exact Terrain.dans_iff.2 ⟨k, hk⟩
  constructor
  · exact Finset.mem_product.2 ⟨mem_degage.2 ⟨hs, .inr (.inr rfl)⟩, mem_degage.2 ⟨hp, .inr (.inl rfl)⟩⟩
  · exact fun c hc => (mem_degage.1 hc).1
  · exact hlibre
  · intro c h₁ h₂
    rw [hlibre c h₁ h₂]
    refine exists_congr fun k => and_congr_right fun hk => ?_
    have hn : k.contient .pousseur = false := by
      rw [← Bool.not_eq_true, ← Terrain.mem_cellules_of hk, hP.ailleurs]
      exact h₂
    rw [Case.traversable_eq hn]

theorem debut_suivi (hP : m.Place) (hs : m.t.Dans m.saci m.sacj) : Suivi m (debut m) [] where
  recherche := .debut
  distance := by
    intro z hz
    obtain rfl : z = _ := by simpa [debut, FileAPriorite.inserer, FileAPriorite.contient] using hz
    rfl
  parcouru := rfl
  objets := by simp [debut]
  occupe := depart_occupe hP hs
  buti := rfl
  butj := rfl
  dernier := by simp

/-! ## The runs -/

/-- a state of the queue that the run goes through -/
def Atteint (m : Moteur) (e : Exploration) : Prop := e = debut m ∨ ∃ k, apresTours m k = .ok e

/-- an entry that was in the queue at some time -/
def Vue (m : Moteur) (x : SacPousseur × ℤ) : Prop :=
  ∃ e z, Atteint m e ∧ z ∈ e.fap ∧ x = z.entree ∧ z.distance = Sokoban.distance (m.buti, m.butj) z.etat

/-- `X` has been extracted, the current entry last -/
structure Course (m : Moteur) (e : Exploration) (X : List (SacPousseur × ℤ)) : Prop where
  suivi : Suivi m e X
  courant : ∃ X', X = X' ++ [e.current.entree]
  vues : ∀ x ∈ X, Vue m x

theorem tour_course (hP : m.Place) (hs : m.t.Dans m.saci m.sacj) (h : Suivi m e X) (hvues : ∀ x ∈ X, Vue m x)
    (ha : Atteint m e) (hX : ∀ x ∈ X, ¬ AuBut m x.1) (hfap : e.fap ≠ []) :
    ∃ e' x, tour e = .ok e' ∧ Course m e' (X ++ [x]) := by
  obtain ⟨e', z, he', hz, hc, h'⟩ := tour_suivi (depart_occupe hP hs).mem h hX hfap
  refine ⟨e', z.entree, he', h', ⟨X, by rw [hc]⟩, ?_⟩
  intro x hx
  rcases List.mem_append.1 hx with hx | hx
  · exact hvues x hx
  · exact ⟨e, z, ha, hz, List.mem_singleton.1 hx, h.distance z hz⟩

/-- every turn of a loop that goes on extracts one more entry -/
theorem apresTours_course (hP : m.Place) (hs : m.t.Dans m.saci m.sacj) (k : ℕ) :
    ∃ e X, apresTours m k = .ok e ∧ Course m e X ∧ (continuer e = true → X.length = k + 1) := by
  induction k with
  | zero =>
    have hfap : (debut m).fap ≠ [] := by simp [debut, FileAPriorite.inserer, FileAPriorite.contient]
    obtain ⟨e, x, he, h⟩ := tour_course hP hs (debut_suivi hP hs) (by simp) (.inl rfl) (by simp) hfap
    exact ⟨e, _, by rw [apresTours, he]; rfl, h, fun _ => rfl⟩
  | succ k ih =>
    obtain ⟨e, X, he, h, hlen⟩ := ih
    obtain ⟨e₁, he₁, ht⟩ := ok_of_bind he
    have hsucc : apresTours m (k + 1) = if continuer e then tour e else .ok e := by
      rw [apresTours, he₁]
      exact tours_succ ht
    by_cases hc : continuer e = true
    · have hX : ∀ x ∈ X, ¬ AuBut m x.1 := fun x hx hbut => by simp [h.suivi.dernier x hx hbut] at hc
      have hfap : e.fap ≠ [] := by
        intro hnil
        simp [continuer, hnil] at hc
      obtain ⟨e', x, he', h'⟩ := tour_course hP hs h.suivi h.vues (.inr ⟨k, he⟩) hX hfap
      refine ⟨e', _, by rw [hsucc, if_pos hc, he'], h', fun _ => ?_⟩
      rw [List.length_append, hlen hc, List.length_singleton]
    · exact ⟨e, X, by rw [hsucc, if_neg hc], h, fun h => absurd h hc⟩

/-- the queue is empty, or the bag of the last position is on the goal -/
theorem continuer_false_iff : continuer e = false ↔ e.fap = [] ∨ e.current.sac = (e.m.buti, e.m.butj) := by
  simp only [continuer, Bool.and_eq_false_iff, Bool.not_eq_false', List.isEmpty_iff, Bool.or_eq_false_iff,
    bne_eq_false_iff_eq, Prod.ext_iff]

/-- what the condition of the loop says of the search -/
theorem Course.finie (h : Course m e X) (hc : continuer e = false) : Finie (AuBut m) X (e.fap.map SacPerso.entree) := by
  obtain ⟨X', rfl⟩ := h.courant
  rcases continuer_false_iff.1 hc with hvide | hbut
  · exact .inl (by rw [hvide, List.map_nil])
  · rw [h.suivi.buti, h.suivi.butj] at hbut
    exact .inr ⟨X', _, rfl, hbut⟩

/-- a bound on the queue along the run is one on all the entries seen -/
theorem Course.sous_borne {c : ℤ} (h : Course m e X) (ha : Atteint m e)
    (hborne : ∀ e, Atteint m e → ∀ z ∈ e.fap, z.poids + z.distance < c) :
    ∀ x ∈ X ++ e.fap.map SacPerso.entree, estime (distance (m.buti, m.butj)) x < c := by
  intro x hx
  rcases List.mem_append.1 hx with hx | hx
  · obtain ⟨e₁, z, ha₁, hz, rfl, hd⟩ := h.vues x hx
    have hlt := hborne e₁ ha₁ z hz
    rwa [hd] at hlt
  · obtain ⟨z, hz, rfl⟩ := List.mem_map.1 hx
    have hlt := hborne e ha z hz
    rwa [h.suivi.distance z hz] at hlt

theorem distance_nonneg (b : ℤ × ℤ) (x : SacPousseur) : 0 ≤ distance b x := by
  have habs : ∀ i, 0 ≤ Moteur.valAbsolue i := by
    intro i
    unfold Moteur.valAbsolue
    split_ifs <;> omega
  exact Int.add_nonneg (habs _) (habs _)

/-- below the bound no sum of the queue overflows an `int`: `Extraire` takes out the same entry -/
theorem extraireInt_atteint (hP : m.Place) (hs : m.t.Dans m.saci m.sacj)
    (hborne : ∀ e, Atteint m e → ∀ z ∈ e.fap, z.poids + z.distance < 10000000) (ha : Atteint m e) :
    FileAPriorite.extraireInt e.fap = FileAPriorite.extraire e.fap := by
  have hsuivi : ∃ X, Suivi m e X ∧
      ∀ x ∈ X ++ e.fap.map SacPerso.entree, estime (distance (m.buti, m.butj)) x < 10000000 := by
    rcases ha with rfl | ⟨k, hk⟩
    · refine ⟨[], debut_suivi hP hs, ?_⟩
      intro x hx
      obtain ⟨z, hz, rfl⟩ := List.mem_map.1 hx
      have hlt := hborne _ (.inl rfl) z hz
      rwa [(debut_suivi hP hs).distance z hz] at hlt
    · obtain ⟨e', X, hk', h, _⟩ := apresTours_course hP hs k
      rw [hk, Except.ok.injEq] at hk'
      subst hk'
      exact ⟨X, h.suivi, h.sous_borne (.inr ⟨k, hk⟩) hborne⟩
  obtain ⟨X, h, hsous⟩ := hsuivi
  have hI := h.recherche.invariant (heuristique_consistante _) (heuristique_parents _) hsous
  apply FileAPriorite.extraireInt_eq
  intro z hz
  obtain ⟨n, hn, _⟩ := hI.atteint z.entree (List.mem_append_right _ (List.mem_map_of_mem hz))
  have hpoids : z.poids = n := hn
  have hdist : 0 ≤ z.distance := h.distance z hz ▸ distance_nonneg _ _
  have hlt := hborne e ha z hz
  constructor <;> omega

/-! ## What the constructor finds -/

theorem nouveau_sac_dans {t : Terrain} (h : (t.cellules .pousseur).card = 1) :
    (Moteur.nouveau t).t.Dans (Moteur.nouveau t).saci (Moteur.nouveau t).sacj := by
  have hkeep : ∀ (l : List (ℤ × ℤ)) (m : Moteur),
      ((l.foldl (Moteur.repere t) m).saci, (l.foldl (Moteur.repere t) m).sacj) ∈ (m.saci, m.sacj) :: l := by
    intro l
    induction l with
    | nil => simp
    | cons p l ih =>
      intro m
      rw [List.foldl_cons]
      rcases List.mem_cons.1 (ih (Moteur.repere t m p)) with he | hin
      · rw [he]
        unfold Moteur.repere
        split_ifs <;> simp
      · exact List.mem_cons_of_mem _ (List.mem_cons_of_mem _ hin)
  obtain ⟨q, hq⟩ := Finset.card_eq_one.1 h
  obtain ⟨k, hk, _⟩ := Terrain.mem_cellules.1 (hq ▸ Finset.mem_singleton_self q)
  obtain ⟨h₁, h₂, h₃, h₄⟩ := Terrain.dans_iff.2 ⟨k, hk⟩
  rw [Moteur.nouveau_t]
  rcases List.mem_cons.1 (hkeep t.positions ⟨t, 0, 0, 0, 0, 0, 0, 0, 0⟩) with he | hin
  · obtain ⟨hi, hj⟩ := Prod.mk.inj he
    have hi : (Moteur.nouveau t).saci = 0 := hi
    have hj : (Moteur.nouveau t).sacj = 0 := hj
    rw [hi, hj]
    exact ⟨le_rfl, by omega, le_rfl, by omega⟩
  · exact Terrain.mem_positions.1 hin

/-- one pusher, one bag and one goal, on three cells -/
structure Niveau (t : Terrain) (p s b : ℤ × ℤ) : Prop where
  pousseur : t.cellules .pousseur = {p}
  sac : t.cellules .sac = {s}
  but : t.cellules .but = {b}
  pousseur_hors_but : p ≠ b
  sac_hors_but : s ≠ b

/-- the cells without an obstacle -/
def sol (t : Terrain) : Finset (ℤ × ℤ) :=
  (t.positions.filter fun c =>
    match t.terrain c.1 c.2 with
    | some k => k ≠ .obstacle ∧ k ≠ .invalide
    | none => false).toFinset

/-- the numbers of pushes of the legal ways to put the bag on the goal -/
def Solutions (t : Terrain) (p s b : ℤ × ℤ) : Set ℕ := {n | ∃ y, Coups (sol t) (s, p) n y ∧ y.1 = b}

namespace Niveau

variable {p s b : ℤ × ℤ}

theorem contientEn_iff {c : Case} {q : ℤ × ℤ} (h : t.cellules c = {q}) (r : ℤ × ℤ) :
    t.contientEn c r = true ↔ r = q := by
  rw [Terrain.contientEn_iff, ← Terrain.mem_cellules, h, Finset.mem_singleton]

theorem contientEn_ne {c : Case} {q r : ℤ × ℤ} (h : t.cellules c = {q}) (hr : r ≠ q) : t.contientEn c r = false := by
  rw [← Bool.not_eq_true, contientEn_iff h]
  exact hr

theorem mem_positions {c : Case} {q : ℤ × ℤ} (h : t.cellules c = {q}) : q ∈ t.positions := by
  obtain ⟨k, hk, _⟩ := Terrain.mem_cellules.1 (h ▸ Finset.mem_singleton_self q)
  exact Terrain.mem_positions.2 (Terrain.dans_iff.2 ⟨k, hk⟩)

/-- a bag and a pusher are never on the same cell -/
theorem sac_ne (hn : Niveau t p s b) : s ≠ p := by
  rintro rfl
  obtain ⟨k, hk, hks⟩ := Terrain.mem_cellules.1 (hn.sac ▸ Finset.mem_singleton_self s)
  obtain ⟨k', hk', hkp⟩ := Terrain.mem_cellules.1 (hn.pousseur ▸ Finset.mem_singleton_self s)
  rw [hk, Option.some.injEq] at hk'
  rw [← hk', (Case.sac_exclut hks).1] at hkp
  cases hkp

theorem ligneColonne (hn : Niveau t p s b) :
    ((Moteur.nouveau t).lignePousseur, (Moteur.nouveau t).colonnePousseur) = p :=
  (contientEn_iff hn.pousseur _).1 (Moteur.nouveau_pousseur ((contientEn_iff hn.pousseur p).2 rfl))

theorem but_eq (hn : Niveau t p s b) : ((Moteur.nouveau t).buti, (Moteur.nouveau t).butj) = b := by
  have hset : ∀ (m : Moteur) q, q ≠ p ∧ q = b → ((Moteur.repere t m q).buti, (Moteur.repere t m q).butj) = q := by
    rintro m q ⟨hqp, hqb⟩
    simp [Moteur.repere, contientEn_ne hn.pousseur hqp, (contientEn_iff hn.but q).2 hqb]
  have hkeep : ∀ (m : Moteur) q, ¬(q ≠ p ∧ q = b) →
      ((Moteur.repere t m q).buti, (Moteur.repere t m q).butj) = (m.buti, m.butj) := by
    intro m q hq
    unfold Moteur.repere
    split_ifs with h₁ h₂
    · rfl
    · exact absurd ⟨fun h => h₁ ((contientEn_iff hn.pousseur q).2 h), (contientEn_iff hn.but q).1 h₂⟩ hq
    · rfl
    · rfl
  exact (Moteur.foldl_repere (fun m => (m.buti, m.butj)) (fun q => q ≠ p ∧ q = b) hset hkeep t.positions _
    (.inr ⟨b, mem_positions hn.but, hn.pousseur_hors_but.symm, rfl⟩)).2

theorem sac_eq (hn : Niveau t p s b) : ((Moteur.nouveau t).saci, (Moteur.nouveau t).sacj) = s := by
  have hset : ∀ (m : Moteur) q, q ≠ p ∧ q ≠ b ∧ q = s →
      ((Moteur.repere t m q).saci, (Moteur.repere t m q).sacj) = q := by
    rintro m q ⟨hqp, hqb, hqs⟩
    simp [Moteur.repere, contientEn_ne hn.pousseur hqp, contientEn_ne hn.but hqb, (contientEn_iff hn.sac q).2 hqs]
  have hkeep : ∀ (m : Moteur) q, ¬(q ≠ p ∧ q ≠ b ∧ q = s) →
      ((Moteur.repere t m q).saci, (Moteur.repere t m q).sacj) = (m.saci, m.sacj) := by
    intro m q hq
    unfold Moteur.repere
    split_ifs with h₁ h₂ h₃
    · rfl
    · rfl
    · exact absurd ⟨fun h => h₁ ((contientEn_iff hn.pousseur q).2 h), fun h => h₂ ((contientEn_iff hn.but q).2 h),
        (contientEn_iff hn.sac q).1 h₃⟩ hq
    · rfl
  exact (Moteur.foldl_repere (fun m => (m.saci, m.sacj)) (fun q => q ≠ p ∧ q ≠ b ∧ q = s) hset hkeep t.positions _
    (.inr ⟨s, mem_positions hn.sac, hn.sac_ne, hn.sac_hors_but, rfl⟩)).2.2

theorem depart_eq (hn : Niveau t p s b) : depart (Moteur.nouveau t) = (s, p) := by
  rw [depart, hn.sac_eq, hn.ligneColonne]

/-- what is free once the pusher and the bag are lifted -/
theorem degage_eq (hn : Niveau t p s b) : degage (Moteur.nouveau t) = sol t := by
  ext c
  rw [mem_degage, hn.sac_eq, hn.ligneColonne, Moteur.nouveau_t, Moteur.estPossible_iff, Moteur.nouveau_t]
  simp only [sol, List.mem_toFinset, List.mem_filter, Terrain.mem_positions]
  refine and_congr_right fun hc => ?_
  obtain ⟨k, hk⟩ := Terrain.dans_iff.1 hc
  have hp : c = p ↔ k = .pousseur ∨ k = .pousseurSurBut := by
    rw [← Case.contient_pousseur_iff, ← Terrain.mem_cellules_of hk, hn.pousseur, Finset.mem_singleton]
  have hs : c = s ↔ k = .sac ∨ k = .sacSurBut := by
    rw [← Case.contient_sac_iff, ← Terrain.mem_cellules_of hk, hn.sac, Finset.mem_singleton]
  rw [hp, hs, hk]
  cases k <;> simp [Case.estLibre_iff]

theorem card_pousseur (hn : Niveau t p s b) : (t.cellules .pousseur).card = 1 := by
  rw [hn.pousseur, Finset.card_singleton]

/-- a solution is a path of the search to the goal -/
theorem mem_solutions (hn : Niveau t p s b) {n : ℕ} : n ∈ Solutions t p s b ↔
    ∃ y, Chemin (suivants (degage (Moteur.nouveau t))) (depart (Moteur.nouveau t)) n y ∧
      AuBut (Moteur.nouveau t) y := by
  have hmem := (depart_occupe (Moteur.nouveau_place hn.card_pousseur) (nouveau_sac_dans hn.card_pousseur)).mem
  rw [Solutions, Set.mem_ofPred_eq, ← hn.degage_eq, ← hn.depart_eq, chemin_iff hmem]
  simp only [AuBut, hn.but_eq]

end Niveau

/-! ## What the search finds -/

/-- below the bound, a stop on the goal gives the least number of pushes, and a stop on an empty queue says that there
is no solution -/
theorem explorer_optimal {p s b : ℤ × ℤ} (hn : Niveau t p s b)
    (hborne : ∀ e, Atteint (Moteur.nouveau t) e → ∀ z ∈ e.fap, z.poids + z.distance < 10000000)
    (he : Arrete (Moteur.nouveau t) e) :
    (e.current.sac = b → ∃ n : ℕ, e.current.poids = n ∧ IsLeast (Solutions t p s b) n) ∧
      (e.fap = [] → e.current.sac ≠ b → Solutions t p s b = ∅) := by
  obtain ⟨k, hk, hc⟩ := he
  obtain ⟨e', X, hk', h, _⟩ := apresTours_course (Moteur.nouveau_place hn.card_pousseur)
    (nouveau_sac_dans hn.card_pousseur) k
  rw [hk, Except.ok.injEq] at hk'
  subst hk'
  have hsous := h.sous_borne (.inr ⟨k, hk⟩) hborne
  obtain ⟨X', rfl⟩ := h.courant
  have hX := h.suivi.recherche
  have hbut := hn.but_eq
  have hcons := heuristique_consistante (L := degage (Moteur.nouveau t))
    ((Moteur.nouveau t).buti, (Moteur.nouveau t).butj)
  have hpar := heuristique_parents (L := degage (Moteur.nouveau t))
    ((Moteur.nouveau t).buti, (Moteur.nouveau t).butj)
  constructor
  · intro hsac
    have hau : AuBut (Moteur.nouveau t) e.current.entree.1 := hsac.trans hbut.symm
    obtain ⟨⟨n, hg, hchemin⟩, hmin⟩ :=
      hX.optimal hcons hpar (fun y hy => distance_zero hy) hsous hau
    refine ⟨n, hg, hn.mem_solutions.2 ⟨_, hchemin, hau⟩, fun n' hn' => ?_⟩
    obtain ⟨y, hy, hyb⟩ := hn.mem_solutions.1 hn'
    have hle := hmin n' y hy hyb
    rw [hg] at hle
    exact_mod_cast hle
  · intro hfap hsac
    rw [hfap, List.map_nil] at hX
    have hnon : ∀ x ∈ X' ++ [e.current.entree], ¬ AuBut (Moteur.nouveau t) x.1 := by
      intro x hx hxb
      obtain ⟨X'', hX''⟩ := hX.but_dernier hx hxb
      obtain ⟨_, hlast⟩ := List.append_inj' hX'' rfl
      obtain rfl : e.current.entree = x := by simpa using hlast
      exact hsac (hxb.trans hbut)
    rw [Set.eq_empty_iff_forall_notMem]
    intro n hmem
    obtain ⟨y, hy, hyb⟩ := hn.mem_solutions.1 hmem
    exact hX.epuise hcons hpar (fun x hx => hsous x (List.mem_append_left _ hx)) hnon hy hyb

/-- the pusher, the bag and the goal in a row -/
def enLigne : Terrain := Terrain.deLignes 3 1 [[.pousseur, .sac, .but]]

theorem niveau_enLigne : Niveau enLigne (0, 0) (0, 1) (0, 2) :=
  ⟨by decide, by decide, by decide, by decide, by decide⟩

/-- the same row with `n` goals to reach; the search does not look at the counter -/
def rangee (n : ℕ) : Terrain := { enLigne with nbBut := n }

theorem depart_rangee (n : ℕ) : Occupe (degage (Moteur.nouveau enLigne)) (Moteur.nouveau (rangee n)).t
    (depart (Moteur.nouveau (rangee n))) :=
  have h := depart_occupe (Moteur.nouveau_place niveau_enLigne.card_pousseur)
    (nouveau_sac_dans niveau_enLigne.card_pousseur)
  ⟨h.mem, h.dans, h.libre, h.traversable⟩

/-- the pusher cannot go round the bag -/
theorem existeChemin_rangee (n : ℕ) :
    (surEcrit (Moteur.nouveau (rangee n)) ((0, 1), (0, 0)) ((0, 1), (0, 0))).existeChemin 0 0 0 2 = .ok false := by
  generalize hm : surEcrit (Moteur.nouveau (rangee n)) ((0, 1), (0, 0)) ((0, 1), (0, 0)) = m
  have hvoisins : m.voisinsLibres (0, 0) = [] := by rw [← hm]; rfl
  have hdans : m.t.Dans 0 0 := by
    rw [← hm]
    exact (by decide : enLigne.Dans 0 0)
  rw [Moteur.existeChemin, if_neg (by decide), Moteur.cherche, dif_pos hdans, hvoisins, if_neg List.not_mem_nil]
  rfl

/-- the first turn finds the push, the second one reaches the goal -/
theorem tours_rangee (n : ℕ) : ∃ e₀ e₁, tour (debut (Moteur.nouveau (rangee n))) = .ok e₀ ∧ tour e₀ = .ok e₁ ∧
    e₀.fap = [⟨(0, 2), (0, 1), 1, 0⟩] ∧ continuer e₀ = true ∧ e₁.fap = [] ∧
    e₁.current = ⟨(0, 2), (0, 1), 1, 0⟩ ∧ continuer e₁ = false := by
  have hs : (surEcrit (Moteur.nouveau (rangee n)) ((0, 1), (0, 0)) ((0, 1), (0, 0))).successeurs
      ⟨(0, 1), (0, 0), 0, 1⟩ = .ok [⟨(0, 2), (0, 1), 0, 0⟩] := by
    generalize hm : surEcrit (Moteur.nouveau (rangee n)) ((0, 1), (0, 0)) ((0, 1), (0, 0)) = m
    have hsud : m.essai ⟨(0, 1), (0, 0), 0, 1⟩ (-1, 1) (1, 1) = .ok [] := by rw [← hm]; rfl
    have hnord : m.essai ⟨(0, 1), (0, 0), 0, 1⟩ (1, 1) (-1, 1) = .ok [] := by rw [← hm]; rfl
    have hest : m.essai ⟨(0, 1), (0, 0), 0, 1⟩ (0, 0) (0, 2) = .ok [⟨(0, 2), (0, 1), 0, 0⟩] := by rw [← hm]; rfl
    have houest : m.essai ⟨(0, 1), (0, 0), 0, 1⟩ (0, 2) (0, 0) = .ok [] := by
      have hp : m.estPossibleSansPousseur 0 2 = true := by rw [← hm]; rfl
      have hc : m.existeChemin 0 0 0 2 = .ok false := by rw [← hm, existeChemin_rangee]
      simp [Moteur.essai, hp, hc, bind, Except.bind, pure, Except.pure]
    simp [Moteur.successeurs, hsud, hnord, houest, hest, bind, Except.bind, pure, Except.pure]
  have ht := tour_eq (e := debut (Moteur.nouveau (rangee n))) (z := ⟨(0, 1), (0, 0), 0, 1⟩) (depart_rangee n)
    (by decide) rfl hs
  refine ⟨_, _, ht, rfl, ?_, ?_, ?_, ?_, ?_⟩
  all_goals rfl

theorem explorer_optimal_enLigne : ∃ e, Arrete (Moteur.nouveau enLigne) e ∧ e.current.sac = (0, 2) ∧
    e.current.poids = 1 ∧ IsLeast (Solutions enLigne (0, 0) (0, 1) (0, 2)) 1 := by
  obtain ⟨e₀, e₁, h₀, h₁, hfap₀, hc₀, hfap₁, hcur, hc₁⟩ := tours_rangee 0
  have h₀ : tour (debut (Moteur.nouveau enLigne)) = .ok e₀ := h₀
  have hzero : apresTours (Moteur.nouveau enLigne) 0 = .ok e₀ := by
    rw [apresTours, h₀]
    rfl
  have hsucc : ∀ k, apresTours (Moteur.nouveau enLigne) (k + 1) = .ok e₁ := by
    intro k
    calc apresTours (Moteur.nouveau enLigne) (k + 1) = tours continuer tour (k + 1) e₀ := by rw [apresTours, h₀]; rfl
      _ = tours continuer tour k e₁ := tours_of_cond hc₀ h₁ k
      _ = .ok e₁ := tours_of_not hc₁ k
  have hborne : ∀ e, Atteint (Moteur.nouveau enLigne) e → ∀ z ∈ e.fap, z.poids + z.distance < 10000000 := by
    intro e ha z hz
    rcases ha with rfl | ⟨_ | k, hk⟩
    · have hdebut : (debut (Moteur.nouveau enLigne)).fap = [⟨(0, 1), (0, 0), 0, 1⟩] := rfl
      rw [hdebut, List.mem_singleton] at hz
      simp [hz]
    · rw [hzero, Except.ok.injEq] at hk
      rw [← hk, hfap₀, List.mem_singleton] at hz
      simp [hz]
    · rw [hsucc k, Except.ok.injEq] at hk
      rw [← hk, hfap₁] at hz
      exact absurd hz List.not_mem_nil
  have harrete : Arrete (Moteur.nouveau enLigne) e₁ := ⟨1, hsucc 0, hc₁⟩
  obtain ⟨n, hn, hmin⟩ := (explorer_optimal niveau_enLigne hborne harrete).1 (by rw [hcur])
  have hun : (1 : ℤ) = n := by
    rw [hcur] at hn
    exact hn
  obtain rfl : n = 1 := by omega
  exact ⟨e₁, harrete, by rw [hcur], by rw [hcur], hmin⟩

/-! ## How long it searches -/

/-- the loop stops, and each position is handed once to the queue: the table `parcouru` holds no position twice -/
def Borne (m : Moteur) : Prop :=
  (∃ e, Arrete m e) ∧ ∀ k e, apresTours m k = .ok e → (e.parcouru.map CoupleDeCouple.etat).Nodup

/-- no two sequences of pushes that come no later than any solution have a next position in common -/
def SansRencontre (m : Moteur) : Prop :=
  Unique (suivants (degage m)) (distance (m.buti, m.butj)) 10000000 (AuBut m) (depart m)

theorem sansRencontre_of_borne (hP : m.Place) (hs : m.t.Dans m.saci m.sacj) (h : Borne m) : SansRencontre m := by
  obtain ⟨⟨e, k, hk, hc⟩, hnd⟩ := h
  obtain ⟨e', X, hk', hcourse, _⟩ := apresTours_course hP hs k
  rw [hk, Except.ok.injEq] at hk'
  subst hk'
  have hn := hnd k e hk
  rw [hcourse.suivi.parcouru] at hn
  exact unique_of_nodup (heuristique_consistante _) suivants_nodup hcourse.suivi.recherche (hcourse.finie hc) hn

/-- the queue cannot take new positions for ever -/
theorem arrete_of_nodup (hP : m.Place) (hs : m.t.Dans m.saci m.sacj)
    (hnd : ∀ k e, apresTours m k = .ok e → (e.parcouru.map CoupleDeCouple.etat).Nodup) : ∃ e, Arrete m e := by
  -- one turn more than there are positions
  obtain ⟨e, X, hk, hcourse, hlen⟩ := apresTours_course hP hs ((degage m ×ˢ degage m).card + 1)
  refine ⟨e, _, hk, ?_⟩
  by_contra hc
  have hlen := hlen (by simpa using hc)
  have hn := hnd _ e hk
  rw [hcourse.suivi.parcouru] at hn
  have hle := hcourse.suivi.recherche.length_le_card (depart_occupe hP hs).mem (fun x hx z hz => suivants_mem hx hz) hn
  omega

theorem borne_of_sansRencontre (hP : m.Place) (hs : m.t.Dans m.saci m.sacj) (h : SansRencontre m) : Borne m := by
  have hnd : ∀ k e, apresTours m k = .ok e → (e.parcouru.map CoupleDeCouple.etat).Nodup := by
    intro k e hk
    obtain ⟨e', X, hk', hcourse, _⟩ := apresTours_course hP hs k
    rw [hk, Except.ok.injEq] at hk'
    subst hk'
    rw [hcourse.suivi.parcouru]
    exact Unique.nodup (heuristique_consistante _) suivants_nodup h hcourse.suivi.recherche
  exact ⟨arrete_of_nodup hP hs hnd, hnd⟩

theorem explorer_borne_iff (h : (t.cellules .pousseur).card = 1) :
    Borne (Moteur.nouveau t) ↔ SansRencontre (Moteur.nouveau t) :=
  ⟨sansRencontre_of_borne (Moteur.nouveau_place h) (nouveau_sac_dans h),
    borne_of_sansRencontre (Moteur.nouveau_place h) (nouveau_sac_dans h)⟩

theorem explorer_borne_iff_enLigne : Borne (Moteur.nouveau enLigne) ↔ SansRencontre (Moteur.nouveau enLigne) :=
  explorer_borne_iff (by decide)

/-- two free rows and no wall; the goal is in the other row than the bag, which cannot leave its own -/
def deuxLignes : Terrain := Terrain.deLignes 4 2 [[.pousseur, .sac, .libre, .libre], [.libre, .libre, .libre, .but]]

theorem niveau_deuxLignes : Niveau deuxLignes (0, 0) (0, 1) (1, 3) :=
  ⟨by decide, by decide, by decide, by decide, by decide⟩

/-- the bag goes to and fro between its two middle cells -/
def Allers (x : SacPousseur) : Prop := x = ((0, 1), (0, 0)) ∨ x = ((0, 2), (0, 1)) ∨ x = ((0, 1), (0, 2))

theorem allers_suivant (x : SacPousseur) (hx : Allers x) :
    ∃ z ∈ suivants (degage (Moteur.nouveau deuxLignes)) x, Allers z := by
  have hpas : ∀ {s p q r : ℤ × ℤ}, ReflTransGen (Pas (degage (Moteur.nouveau deuxLignes)) s) p q →
      r ∈ Moteur.voisins q → r ∈ degage (Moteur.nouveau deuxLignes) → r ≠ s →
      ReflTransGen (Pas (degage (Moteur.nouveau deuxLignes)) s) p r := fun h h₁ h₂ h₃ => h.tail ⟨h₁, h₂, h₃⟩
  rcases hx with rfl | rfl | rfl
  · refine ⟨((0, 2), (0, 1)), mem_suivants.2 ⟨.est, ⟨by decide, .refl, by decide⟩, rfl⟩, .inr (.inl rfl)⟩
  · -- round the bag by the other row
    have hmarche : ReflTransGen (Pas (degage (Moteur.nouveau deuxLignes)) (0, 2)) (0, 1) (0, 3) := by
      have h₁ := hpas .refl (s := (0, 2)) (q := (0, 1)) (r := (1, 1)) (by decide) (by decide) (by decide)
      have h₂ := hpas h₁ (r := (1, 2)) (by decide) (by decide) (by decide)
      have h₃ := hpas h₂ (r := (1, 3)) (by decide) (by decide) (by decide)
      exact hpas h₃ (by decide) (by decide) (by decide)
    refine ⟨((0, 1), (0, 2)), mem_suivants.2 ⟨.ouest, ⟨by decide, hmarche, by decide⟩, rfl⟩, .inr (.inr rfl)⟩
  · have hmarche : ReflTransGen (Pas (degage (Moteur.nouveau deuxLignes)) (0, 1)) (0, 2) (0, 0) := by
      have h₁ := hpas .refl (s := (0, 1)) (q := (0, 2)) (r := (1, 2)) (by decide) (by decide) (by decide)
      have h₂ := hpas h₁ (r := (1, 1)) (by decide) (by decide) (by decide)
      have h₃ := hpas h₂ (r := (1, 0)) (by decide) (by decide) (by decide)
      exact hpas h₃ (by decide) (by decide) (by decide)
    refine ⟨((0, 2), (0, 1)), mem_suivants.2 ⟨.est, ⟨by decide, hmarche, by decide⟩, rfl⟩, .inr (.inl rfl)⟩

/-- the bag against the border stays against it -/
theorem bord_suivant (x : SacPousseur) (hx : x.1.1 = 0) :
    ∀ z ∈ suivants (degage (Moteur.nouveau deuxLignes)) x, z.1.1 = 0 := by
  intro z hz
  obtain ⟨d, ⟨hderriere, _, hdevant⟩, rfl⟩ := mem_suivants.1 hz
  have h₁ : 0 ≤ (x.1 - d.decalage).1 := (mem_degage.1 hderriere).1.1
  have h₂ : 0 ≤ (x.1 + d.decalage).1 := (mem_degage.1 hdevant).1.1
  rw [Prod.fst_sub] at h₁
  rw [Prod.fst_add] at h₂
  show (x.1 + d.decalage).1 = 0
  rw [Prod.fst_add]
  cases d <;> simp only [Direction.decalage] at h₁ h₂ ⊢ <;> omega

/-- a level without solution: the loop never stops, and a position is handed to the queue again -/
theorem va_et_vient : Niveau deuxLignes (0, 0) (0, 1) (1, 3) ∧ (∀ e, ¬ Arrete (Moteur.nouveau deuxLignes) e) ∧
    ∃ k e, apresTours (Moteur.nouveau deuxLignes) k = .ok e ∧ ¬ (e.parcouru.map CoupleDeCouple.etat).Nodup := by
  have hP := Moteur.nouveau_place (t := deuxLignes) (by decide)
  have hs := nouveau_sac_dans (t := deuxLignes) (by decide)
  have hsans : ∀ e, ¬ Arrete (Moteur.nouveau deuxLignes) e := by
    rintro e ⟨k, hk, hc⟩
    obtain ⟨e', X, hk', h, _⟩ := apresTours_course hP hs k
    rw [hk, Except.ok.injEq] at hk'
    subst hk'
    rcases h.finie hc with hvide | ⟨X', x, rfl, hx⟩
    · obtain ⟨x, hx, _⟩ := h.suivi.recherche.vivant (P := Allers) (.inl rfl) allers_suivant
      rw [hvide] at hx
      exact absurd hx List.not_mem_nil
    · have hbord := h.suivi.recherche.forall (P := fun x => x.1.1 = 0) rfl bord_suivant x (by simp)
      rw [hx] at hbord
      exact absurd hbord (by decide)
  refine ⟨niveau_deuxLignes, hsans, ?_⟩
  by_contra hn
  push Not at hn
  obtain ⟨e, he⟩ := arrete_of_nodup hP hs hn
  exact hsans e he

end Semestre6.Sokoban
