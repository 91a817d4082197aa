/-
The text of a level, written as the files of the game are: the models, then the layers, indented by two widths.

- `lisNiveau_texte`: reading it gives the level that it describes: its colors, the dimensions of its layers, and the
  components of each layer;
- `Dessine`: what a layer shows. An object stands at the column of its character, where the walls and the dots do not
  count; a column has one vertical border at most, and a row of walls is one horizontal border.
-/
import Semestre6.Niveaux.Chargeur

namespace Semestre6.Niveaux

open Boucle
open Lecture (splitSur splitSur_deux decimale decimale_ne_nil isDigit_decimale parseInt_decimale)

/-! ## Descriptions -/

inductive Modele where
  /-- the attributes that are written -/
  | brique (resistance : Option ℕ) (couleur : Option (List Char))
  | bonus (nature : Fin 4)
deriving DecidableEq, Repr

structure Couche where
  hauteur : Fin 10
  rangees : List (List Char)
deriving DecidableEq, Repr

structure Description where
  modeles : List (Char × Modele)
  couches : List Couche
deriving DecidableEq, Repr

def couple (nom valeur : List Char) : List Char := nom ++ ':' :: ' ' :: valeur

def espaces (n : ℕ) : List Char := List.replicate n ' '

def Modele.lignes : Modele → List (List Char)
  | brique resistance couleur =>
    couple "type".toList "brique".toList :: (resistance.map fun n : ℕ => couple "resistance".toList (decimale n)).toList ++
      (couleur.map (couple "couleur".toList)).toList
  | bonus nature => [couple "type".toList "bonus".toList, couple "nature".toList (natures.getD nature [])]

def lignesModele (a b : ℕ) (p : Char × Modele) : List (List Char) :=
  (espaces a ++ [p.1, ':']) :: p.2.lignes.map (espaces b ++ ·)

def lignesCouche (a b : ℕ) (k : Couche) : List (List Char) :=
  (espaces a ++ couple (decimale k.hauteur) ['|']) :: k.rangees.map (espaces b ++ ·)

def Description.lignes (a b : ℕ) (d : Description) : List (List Char) :=
  "Composants:".toList :: d.modeles.flatMap (lignesModele a b) ++
    "Couches:".toList :: d.couches.flatMap (lignesCouche a b)

def Description.texte (a b : ℕ) (d : Description) : List Char := (d.lignes a b).flatMap (· ++ ['\n'])

/-- a color that is read as it is written -/
structure Nette (m : List Char) : Prop where
  debut : ∀ c ∈ m.head?, ' ' < c
  fin : ∀ c ∈ m.getLast?, ' ' < c
  ligne : ∀ c ∈ m, c ≠ ':' ∧ finDeLigne c = false

def Modele.Correct : Modele → Prop
  | brique resistance couleur => (∀ n ∈ resistance, n ≤ 2147483647) ∧ ∀ m ∈ couleur, Nette m
  | bonus _ => True

structure Couche.Correcte (noms : List Char) (k : Couche) : Prop where
  premiere : ∃ c l rs, k.rangees = (c :: l) :: rs ∧ c ≠ ' '
  pleines : ∀ r ∈ k.rangees, Pleine r
  larges : ∀ r ∈ k.rangees, ∀ r₀ ∈ k.rangees.head?, r.length ≤ r₀.length * 2
  objets : ∀ r ∈ k.rangees, ∀ c ∈ r, c ∈ ['#', '.', ' '] ∨ c ∈ noms
  /-- the floats of the positions are exact -/
  positions : k.rangees.length ≤ 2 ^ 24 ∧ ∀ r ∈ k.rangees, r.length ≤ 2 ^ 24

/-- the number of colors -/
def Modele.briques : Modele → ℕ
  | brique .. => 1
  | bonus _ => 0

structure Description.Correcte (d : Description) : Prop where
  modeles : d.modeles ≠ []
  couches : d.couches ≠ []
  noms : (d.modeles.map Prod.fst).Nodup
  nom : ∀ p ∈ d.modeles, ' ' < p.1 ∧ p.1 ≠ ':' ∧ p.1.toNat < 256 ∧ finDeLigne p.1 = false
  modele : ∀ p ∈ d.modeles, p.2.Correct
  briques : (d.modeles.map fun p => p.2.briques).sum ≤ 128
  couche : ∀ k ∈ d.couches, k.Correcte (d.modeles.map Prod.fst)

/-! ## Lines read back -/

variable {ea : Bool} {a b n : ℕ} {m nom v : List Char} {ligne : List Char} {ls suite : List (List Char)}

theorem lignes_texte (h : ∀ l ∈ ls, ∀ c ∈ l, finDeLigne c = false) : lignes (ls.flatMap (· ++ ['\n'])) = ls := by
  have hligne : ∀ (l t : List Char), (∀ c ∈ l, finDeLigne c = false) → lignes (l ++ '\n' :: t) = l :: lignes t := by
    intro l t hl
    induction l with
    | nil => rfl
    | cons c l ih =>
      obtain ⟨hc, hl⟩ := List.forall_mem_cons.1 hl
      have hr : c ≠ '\r' := by
        rintro rfl
        exact absurd hc (by decide)
      rw [List.cons_append, lignes, if_neg (by simp [hc]), ih hl]
      exact fun _ hcr _ => hr hcr
  induction ls with
  | nil => rfl
  | cons l ls ih =>
    obtain ⟨hl, hls⟩ := List.forall_mem_cons.1 h
    rw [List.flatMap_cons, List.append_assoc]
    exact (hligne l _ hl).trans (congrArg _ (ih hls))

/-- the reader on the first of the lines `ls` -/
def sur : List (List Char) → Lecteur
  | [] => ⟨[], none, 0⟩
  | l :: ls => ⟨ls, some l, indente l⟩

theorem indentation_sur (l : List Char) (ls : List (List Char)) : (sur (l :: ls)).indentation = indente l := rfl

theorem affirme_true (ea : Bool) : affirme ea true = .ok () := by cases ea <;> rfl

def Pleines (ls : List (List Char)) : Prop := ∀ l ∈ ls, Pleine l

theorem indente_lt (h : Pleine ligne) : indente ligne < ligne.length := by
  obtain ⟨c, hc, hne⟩ := h
  refine lt_of_le_of_ne (List.takeWhile_sublist _).length_le fun he => ?_
  have htous := List.takeWhile_eq_self_iff.1 ((List.takeWhile_prefix _).eq_of_length he)
  exact hne (by simpa using htous c hc)

theorem lisLigne_sur (h : Pleines ls) : lisLigne ls = .ok (sur ls) := by
  cases ls with
  | nil => rfl
  | cons l ls =>
    rw [lisLigne, if_pos (indente_lt (h l (by simp)))]
    rfl

theorem indente_espaces (n : ℕ) (m : List Char) : indente (espaces n ++ m) = n + indente m := by
  rw [indente, espaces, List.takeWhile_append_of_pos (by simp [List.mem_replicate]), List.length_append,
    List.length_replicate]
  rfl

theorem trim_espaces (n : ℕ) (m : List Char) : trim (espaces n ++ m) = trim m := by
  rw [trim, espaces, List.dropWhile_append_of_pos (by simp [List.mem_replicate])]
  rfl

theorem Nette.trim (h : Nette m) : Niveaux.trim m = m := by
  have hd : m.dropWhile (· ≤ ' ') = m := by
    cases m with
    | nil => rfl
    | cons c m =>
      rw [List.dropWhile_cons_of_neg]
      simpa using h.debut c rfl
  rw [Niveaux.trim, hd, List.rdropWhile_eq_self_iff]
  intro hm
  simpa using h.fin _ (List.getLast?_eq_getLast_of_ne_nil hm)

theorem splitSur_un {c : Char} (ha : c ∉ m) (hm : m ≠ []) : splitSur c (m ++ [c]) = [m] := by
  rw [splitSur, if_pos (by simp), List.splitOn_append_cons_self, List.splitOn_eq_singleton ha, List.splitOn_nil]
  rw [List.rdropWhile_concat_pos _ _ _ rfl]
  exact List.rdropWhile_concat_neg _ [] m (by simpa using hm)

theorem trouveCouple_nom (hn : ':' ∉ nom) (hne : nom ≠ []) (hs : Pleines ls) :
    trouveCouple ea (sur ((espaces n ++ nom ++ [':']) :: ls)) = .ok (trim nom, none, sur ls) := by
  have hsplit : splitSur ':' (espaces n ++ nom ++ [':']) = [espaces n ++ nom] := by
    refine splitSur_un ?_ (by simp [hne])
    simp [espaces, List.mem_replicate, hn]
  simp only [sur, trouveCouple, hsplit, lisLigne_sur hs, trim_espaces]
  cases ea <;> rfl

theorem trouveCouple_couple (hn : ':' ∉ nom) (hv : ':' ∉ v) (hs : Pleines ls) :
    trouveCouple ea (sur ((espaces n ++ couple nom v) :: ls)) = .ok (trim nom, some (trim v), sur ls) := by
  have hsplit : splitSur ':' (espaces n ++ couple nom v) = [espaces n ++ nom, ' ' :: v] := by
    rw [couple, ← List.append_assoc]
    refine splitSur_deux ?_ (by simp [hv]) (by simp)
    simp [espaces, List.mem_replicate, hn]
  have hv' : trim (' ' :: v) = trim v := trim_espaces 1 v
  simp only [sur, trouveCouple, hsplit, lisLigne_sur hs, trim_espaces, List.head?_cons, Option.map_some, hv']
  cases ea <;> rfl

/-! ## Components read back -/

def Modele.composant (nb : ℕ) : Modele → ComposantGraphique
  | brique resistance _ => .brique (resistance.getD 1) nb 0 0
  | bonus nature => .bonus nature 0 0

def Modele.couleur? : Modele → Option (List Char)
  | brique _ couleur => some (couleur.getD gris)
  | bonus _ => none

def Modele.peint (nb : ℕ) (couleurs : List (Option (List Char))) (m : Modele) : List (Option (List Char)) :=
  match m.couleur? with
  | some c => couleurs.set nb (some c)
  | none => couleurs

variable {couleurs : List (Option (List Char))} {nb : ℕ}

theorem isDigit_net {c : Char} (h : c.isDigit) : ' ' < c ∧ c ≠ ':' ∧ finDeLigne c = false := by
  have hc := Char.isDigit_iff_toNat.1 h
  simp only [Char.reduceToNat] at hc
  refine ⟨?_, ?_, ?_⟩
  · rw [Char.lt_def, UInt32.lt_iff_toNat_lt]
    exact Nat.lt_of_lt_of_le (by decide) hc.1
  · rintro rfl
    exact absurd h (by decide)
  · by_contra hf
    simp only [finDeLigne, List.mem_cons, List.not_mem_nil, or_false, decide_eq_true_eq, Bool.not_eq_false] at hf
    rcases hf with rfl | rfl | rfl | rfl | rfl <;> exact absurd h (by decide)

theorem nette_decimale (n : ℕ) : Nette (decimale n) where
  debut c hc := (isDigit_net (isDigit_decimale n c (List.mem_of_mem_head? hc))).1
  fin c hc := (isDigit_net (isDigit_decimale n c (List.mem_of_getLast? hc))).1
  ligne c hc := (isDigit_net (isDigit_decimale n c hc)).2

theorem attributBrique_resistance {r : ℤ} (hn : n ≤ 2147483647) (hs : Pleines ls) :
    attributBrique ea nb ⟨sur ((espaces b ++ couple "resistance".toList (decimale n)) :: ls), r, couleurs⟩ =
      .ok ⟨sur ls, n, couleurs⟩ := by
  have hp : ':' ∉ decimale n := fun h => absurd (isDigit_decimale n _ h) (by decide)
  rw [attributBrique, trouveCouple_couple (by decide) hp hs]
  simp only [bind, Except.bind, pure, Except.pure]
  rw [if_pos (by decide), Option.bind_some, (nette_decimale n).trim, parseInt_decimale hn]

theorem attributBrique_couleur {r : ℤ} (hv : Nette v) (hs : Pleines ls) (hnb : nb < couleurs.length) :
    attributBrique ea nb ⟨sur ((espaces b ++ couple "couleur".toList v) :: ls), r, couleurs⟩ =
      .ok ⟨sur ls, r, couleurs.set nb (some v)⟩ := by
  have hp : ':' ∉ v := fun h => (hv.ligne _ h).1 rfl
  rw [attributBrique, trouveCouple_couple (by decide) hp hs]
  simp only [bind, Except.bind, pure, Except.pure]
  rw [if_neg (by decide), if_pos (by decide), hv.trim, hv.trim, colorie, if_pos hnb]

theorem pleine_couple (n : ℕ) (nom v : List Char) : Pleine (espaces n ++ couple nom v) :=
  ⟨':', by simp [couple], by decide⟩

theorem pleines_cons (hl : Pleine ligne) (hs : Pleines ls) : Pleines (ligne :: ls) := List.forall_mem_cons.2 ⟨hl, hs⟩

/-- a line of an attribute is indented like the block -/
theorem indente_couple {c : Char} (hc : c ≠ ' ') (n : ℕ) (nom v : List Char) :
    indente (espaces n ++ couple (c :: nom) v) = n := by
  rw [indente_espaces, indente, couple, List.cons_append, List.takeWhile_cons_of_neg (by simpa using hc)]
  rfl

theorem pleines_attributs (resistance : Option ℕ) (couleur : Option (List Char)) (hs : Pleines suite) :
    Pleines (((resistance.map fun n : ℕ => couple "resistance".toList (decimale n)).toList ++
      (couleur.map (couple "couleur".toList)).toList).map (espaces b ++ ·) ++ suite) := by
  cases resistance <;> cases couleur
  · exact hs
  · exact pleines_cons (pleine_couple b _ _) hs
  · exact pleines_cons (pleine_couple b _ _) hs
  · exact pleines_cons (pleine_couple b _ _) (pleines_cons (pleine_couple b _ _) hs)

variable (ea) in
theorem boucle_brique {resistance : Option ℕ} {couleur : Option (List Char)} {c : List Char}
    (hm : (Modele.brique resistance couleur).Correct) (hnb : nb < couleurs.length) (hs : Pleines suite)
    (hind : (sur suite).indentation < b) :
    boucle EnBrique.lecteur (fun l => decide (b ≤ l.indentation)) (attributBrique ea nb)
        ⟨sur (((resistance.map fun n : ℕ => couple "resistance".toList (decimale n)).toList ++
          (couleur.map (couple "couleur".toList)).toList).map (espaces b ++ ·) ++ suite), 1, couleurs.set nb (some c)⟩ =
      .ok ⟨sur suite, resistance.getD 1, couleurs.set nb (some (couleur.getD c))⟩ := by
  have hpas := @boucle_pas EnBrique EnBrique.lecteur (fun l => decide (b ≤ l.indentation)) (attributBrique ea nb)
  have hcorps : ∀ x y, attributBrique ea nb x = .ok y → Lit x.lecteur y.lecteur := fun _ _ h => (attributBrique_ok h).1
  have hset : nb < (couleurs.set nb (some c)).length := by rwa [List.length_set]
  -- the color, if there is one
  have hcouleur : ∀ r : ℤ, boucle EnBrique.lecteur (fun l => decide (b ≤ l.indentation)) (attributBrique ea nb)
      ⟨sur ((couleur.map (couple "couleur".toList)).toList.map (espaces b ++ ·) ++ suite), r,
        couleurs.set nb (some c)⟩ = .ok ⟨sur suite, r, couleurs.set nb (some (couleur.getD c))⟩ := by
    intro r
    cases couleur with
    | none => exact boucle_arret (by simpa using hind)
    | some v =>
      have hv : Nette v := hm.2 v rfl
      refine (hpas hcorps ?_ (attributBrique_couleur hv hs hset)).trans ?_
      · exact decide_eq_true (indente_couple (by decide) b _ v).ge
      · rw [List.set_set]
        exact boucle_arret (by simpa using hind)
  cases resistance with
  | none => exact hcouleur 1
  | some n =>
    have hn : n ≤ 2147483647 := hm.1 n rfl
    refine (hpas hcorps ?_ (attributBrique_resistance hn (pleines_attributs none couleur hs))).trans (hcouleur n)
    exact decide_eq_true (indente_couple (by decide) b _ (decimale n)).ge

theorem natures_nettes (nature : Fin 4) : ':' ∉ natures.getD nature [] ∧
    trim (natures.getD nature []) = natures.getD nature [] ∧
    findType (natures.getD nature []) = nature := by
  revert nature
  decide

theorem attributBonus_nature {k : ℤ} (nature : Fin 4) (hs : Pleines ls) :
    attributBonus ea ⟨sur ((espaces b ++ couple "nature".toList (natures.getD nature [])) :: ls), k⟩ =
      .ok ⟨sur ls, nature⟩ := by
  obtain ⟨hp, htrim, hfind⟩ := natures_nettes nature
  rw [attributBonus, trouveCouple_couple (by decide) hp hs]
  simp only [bind, Except.bind, pure, Except.pure]
  rw [if_pos (by decide), htrim, htrim, hfind, if_neg (by omega)]

variable {modeles : List (Option ComposantGraphique)}

theorem lisComposant_lignes (m : Modele) (hm : m.Correct) (hnb : nb + m.briques ≤ couleurs.length) (hs : Pleines suite)
    (hind : (sur suite).indentation < b) :
    lisComposant ea ⟨sur (m.lignes.map (espaces b ++ ·) ++ suite), modeles, couleurs, nb⟩ =
      .ok (some (m.composant nb), ⟨sur suite, modeles, m.peint nb couleurs, nb + m.briques⟩) := by
  cases m with
  | brique resistance couleur =>
    have hlt : nb < couleurs.length := hnb
    have hind' : indente (espaces b ++ couple "type".toList "brique".toList) = b := indente_couple (by decide) b _ _
    have hb := boucle_brique ea (b := b) (c := gris) hm hlt hs hind
    have hpleines := pleines_attributs (b := b) resistance couleur hs
    rw [Modele.lignes, List.cons_append, List.map_cons, List.cons_append, lisComposant,
      trouveCouple_couple (by decide) (by decide) hpleines]
    have hn : trim "type".toList = "type".toList := by decide
    have hv : trim "brique".toList = "brique".toList := by decide
    simp only [indentation_sur, hind', hn, hv, bind, Except.bind, pure, Except.pure, decide_true, affirme_true, if_true,
      colorie, if_pos hlt, hb]
    rfl
  | bonus nature =>
    have hind' : indente (espaces b ++ couple "type".toList "bonus".toList) = b := indente_couple (by decide) b _ _
    have hpleine := pleine_couple b "nature".toList (natures.getD nature [])
    have hb : boucle EnBonus.lecteur (fun l => decide (b ≤ l.indentation)) (attributBonus ea)
        ⟨sur ((espaces b ++ couple "nature".toList (natures.getD nature [])) :: suite), -1⟩ = .ok ⟨sur suite, nature⟩ := by
      refine (boucle_pas (fun _ _ h => (attributBonus_ok h).1) ?_ (attributBonus_nature nature hs)).trans ?_
      · exact decide_eq_true (indente_couple (by decide) b _ _).ge
      · exact boucle_arret (by simpa using hind)
    simp only [Modele.lignes, List.map_cons, List.map_nil, List.cons_append, List.nil_append]
    rw [lisComposant, trouveCouple_couple (by decide) (by decide) (pleines_cons hpleine hs)]
    have hv : trim "bonus".toList = "bonus".toList := by decide
    have hn : trim "type".toList = "type".toList := by decide
    have hne : "bonus".toList ≠ "brique".toList := by decide
    have hnature : ((nature : ℕ) : ℤ) ≠ -1 := by omega
    simp only [indentation_sur, hind', hn, hv, bind, Except.bind, pure, Except.pure, decide_true, affirme_true, if_true,
      if_neg hne, hb, hnature, ne_eq, not_false_eq_true]
    rfl

/-- a model declared -/
def Etat.inscrit (e : Etat) (p : Char × Modele) : Etat where
  lecteur := e.lecteur
  modeles := e.modeles.set p.1.toNat (some (p.2.composant e.nbCouleurs))
  couleurs := p.2.peint e.nbCouleurs e.couleurs
  nbCouleurs := e.nbCouleurs + p.2.briques

variable {e : Etat} {p : Char × Modele} {l : List (Char × Modele)}

/-- what the text asks of a declaration -/
def Declarable (p : Char × Modele) : Prop := (' ' < p.1 ∧ p.1 ≠ ':' ∧ p.1.toNat < 256) ∧ p.2.Correct

theorem pleine_entete {c : Char} (n : ℕ) : Pleine (espaces n ++ [c, ':']) := ⟨':', by simp, by decide⟩

theorem pleines_lignesModele (p : Char × Modele) (hs : Pleines suite) : Pleines (lignesModele a b p ++ suite) := by
  obtain ⟨c, m⟩ := p
  refine pleines_cons (pleine_entete a) ?_
  cases m with
  | brique resistance couleur => exact pleines_cons (pleine_couple b _ _) (pleines_attributs resistance couleur hs)
  | bonus nature => exact pleines_cons (pleine_couple b _ _) (pleines_cons (pleine_couple b _ _) hs)

theorem pleines_flatMap {ι : Type} {f : ι → List (List Char)} {l : List ι}
    (hf : ∀ x ∈ l, ∀ s, Pleines s → Pleines (f x ++ s)) (hs : Pleines suite) : Pleines (l.flatMap f ++ suite) := by
  induction l with
  | nil => exact hs
  | cons x l ih =>
    obtain ⟨hx, hl⟩ := List.forall_mem_cons.1 hf
    rw [List.flatMap_cons, List.append_assoc]
    exact hx _ (ih hl)

theorem indentation_modele (hc : p.1 ≠ ' ') : (sur (lignesModele a b p ++ suite)).indentation = a := by
  rw [lignesModele, List.cons_append, indentation_sur, indente_espaces, indente,
    List.takeWhile_cons_of_neg (by simpa using hc)]
  rfl

theorem ne_espace {c : Char} (hc : ' ' < c) : c ≠ ' ' := by
  rintro rfl
  exact absurd hc (by decide)

theorem trim_caractere {c : Char} (hc : ' ' < c) : trim [c] = [c] := by
  have hc' : decide (c ≤ ' ') = false := decide_eq_false (Char.not_le.2 hc)
  rw [trim, List.dropWhile_cons_of_neg (by rw [hc']; exact Bool.false_ne_true), List.rdropWhile_eq_self_iff]
  intro _
  rw [List.getLast_singleton, hc']
  exact Bool.false_ne_true

variable (ea) in
theorem declare_lignes (hp : Declarable p) (hmod : e.modeles.length = 256)
    (hnb : e.nbCouleurs + p.2.briques ≤ e.couleurs.length) (hs : Pleines suite) (hind : (sur suite).indentation < b) :
    declare ea { e with lecteur := sur (lignesModele a b p ++ suite) } =
      .ok { e.inscrit p with lecteur := sur suite } := by
  obtain ⟨c, m⟩ := p
  obtain ⟨⟨hc, hdp, hc256⟩, hm⟩ := hp
  have hpleines : Pleines (m.lignes.map (espaces b ++ ·) ++ suite) := fun l hl =>
    pleines_lignesModele (a := a) (b := b) (c, m) hs l (List.mem_cons_of_mem _ hl)
  have hcouple : trouveCouple ea (sur ((espaces a ++ [c, ':']) :: (m.lignes.map (espaces b ++ ·) ++ suite))) =
      .ok ([c], none, sur (m.lignes.map (espaces b ++ ·) ++ suite)) := by
    have h := @trouveCouple_nom ea a [c] _ (by simpa using hdp.symm) (by simp) hpleines
    rwa [List.append_assoc, trim_caractere hc] at h
  have hcar : trouveCar ea none (sur ((espaces a ++ [c, ':']) :: (m.lignes.map (espaces b ++ ·) ++ suite))) =
      .ok (c, sur (m.lignes.map (espaces b ++ ·) ++ suite)) := by
    have hun : unCar [c] = some c := unCar_singleton (hc256.trans (by decide))
    simp only [trouveCar, hcouple, hun, bind, Except.bind]
    cases ea <;> rfl
  simp only [declare, lignesModele, List.cons_append, hcar, bind, Except.bind, pure, Except.pure,
    lisComposant_lignes m hm hnb hs hind]
  exact if_pos (by rwa [hmod])

theorem length_peint (nb : ℕ) (couleurs : List (Option (List Char))) (m : Modele) :
    (m.peint nb couleurs).length = couleurs.length := by
  cases m with
  | brique => exact List.length_set
  | bonus => rfl

variable (ea) in
/-- the block of the models -/
theorem boucle_declare (hl : ∀ p ∈ l, Declarable p) (hmod : e.modeles.length = 256)
    (hnb : e.nbCouleurs + (l.map fun p => p.2.briques).sum ≤ e.couleurs.length) (hs : Pleines suite)
    (hab : a < b) (hind : (sur suite).indentation < a) :
    boucle Etat.lecteur (fun l => decide (a ≤ l.indentation)) (declare ea)
        { e with lecteur := sur (l.flatMap (lignesModele a b) ++ suite) } =
      .ok { l.foldl Etat.inscrit e with lecteur := sur suite } := by
  induction l generalizing e with
  | nil => exact boucle_arret (by simpa using hind)
  | cons p l ih =>
    obtain ⟨hp, hl⟩ := List.forall_mem_cons.1 hl
    rw [List.map_cons, List.sum_cons] at hnb
    have hs' : Pleines (l.flatMap (lignesModele a b) ++ suite) :=
      pleines_flatMap (fun _ _ _ => pleines_lignesModele _) hs
    have hind' : (sur (l.flatMap (lignesModele a b) ++ suite)).indentation < b := by
      cases l with
      | nil => exact hind.trans hab
      | cons q l =>
        rw [List.flatMap_cons, List.append_assoc, indentation_modele (ne_espace (hl q (by simp)).1.1)]
        exact hab
    have hpas := declare_lignes ea (a := a) hp hmod (by omega) hs' hind'
    rw [List.flatMap_cons, List.append_assoc]
    refine (boucle_pas (fun _ _ h => (declare_ok h).1) ?_ hpas).trans ?_
    · exact decide_eq_true (indentation_modele (ne_espace hp.1.1)).ge
    · exact ih (e := e.inscrit p) hl (List.length_set.trans hmod) (by rw [Etat.inscrit, length_peint]; dsimp only; omega)

/-- the components that the models stand for: a brick has the color of its rank -/
def numerote : ℕ → List (Char × Modele) → List (Char × ComposantGraphique)
  | _, [] => []
  | nb, p :: l => (p.1, p.2.composant nb) :: numerote (nb + p.2.briques) l

theorem inscrits_hors {c : Char} (hc : c ∉ l.map Prod.fst) :
    (l.foldl Etat.inscrit e).modeles[c.toNat]? = e.modeles[c.toNat]? := by
  induction l generalizing e with
  | nil => rfl
  | cons p l ih =>
    rw [List.map_cons, List.mem_cons, not_or] at hc
    refine (ih hc.2).trans (List.getElem?_set_ne fun h => ?_)
    exact hc.1 (Char.toNat_inj.1 h.symm)

/-- a name declared once stands for its model -/
theorem inscrits_modele {c : Char} (hnoms : (l.map Prod.fst).Nodup) (hc : c ∈ l.map Prod.fst)
    (h256 : ∀ p ∈ l, p.1.toNat < e.modeles.length) :
    ∃ nb, ∃ m : Modele, (numerote e.nbCouleurs l).lookup c = some (m.composant nb) ∧
      (l.foldl Etat.inscrit e).modeles[c.toNat]? = some (some (m.composant nb)) := by
  induction l generalizing e with
  | nil => simp at hc
  | cons p l ih =>
    obtain ⟨hp, hnoms⟩ := List.nodup_cons.1 hnoms
    obtain ⟨hp256, h256⟩ := List.forall_mem_cons.1 h256
    by_cases hcp : c = p.1
    · subst hcp
      refine ⟨e.nbCouleurs, p.2, by rw [numerote, List.lookup_cons_self], (inscrits_hors hp).trans ?_⟩
      exact List.getElem?_set_self hp256
    · obtain ⟨nb, m, hl, hm⟩ := ih (e := e.inscrit p) hnoms ((List.mem_cons.1 hc).resolve_left hcp)
        (by simpa [Etat.inscrit] using h256)
      refine ⟨nb, m, ?_, hm⟩
      rw [numerote, List.lookup_cons, beq_eq_false_iff_ne.2 hcp]
      exact hl

theorem inscrits_couleurs (hnb : e.nbCouleurs + (l.map fun p => p.2.briques).sum ≤ e.couleurs.length) :
    (l.foldl Etat.inscrit e).couleurs.take (l.foldl Etat.inscrit e).nbCouleurs =
      e.couleurs.take e.nbCouleurs ++ (l.filterMap fun p => p.2.couleur?).map some := by
  induction l generalizing e with
  | nil => simp
  | cons p l ih =>
    rw [List.map_cons, List.sum_cons] at hnb
    have hpas : (e.inscrit p).couleurs.take (e.inscrit p).nbCouleurs =
        e.couleurs.take e.nbCouleurs ++ p.2.couleur?.toList.map some := by
      obtain ⟨c, m⟩ := p
      cases m with
      | brique resistance couleur =>
        have hlt : e.nbCouleurs < e.couleurs.length := by simp [Modele.briques] at hnb; omega
        change (e.couleurs.set e.nbCouleurs _).take (e.nbCouleurs + 1) = _
        rw [List.take_add_one, List.take_set_of_le le_rfl, List.getElem?_set_self hlt]
        rfl
      | bonus nature => simp [Etat.inscrit, Modele.peint, Modele.couleur?, Modele.briques]
    have hsuite := ih (e := e.inscrit p) (by rw [Etat.inscrit, length_peint]; dsimp only; omega)
    rw [List.foldl_cons, hsuite, hpas, List.append_assoc, ← List.map_append]
    congr 2
    cases hc : p.2.couleur? <;> simp [hc]

/-! ## Layers -/

/-- the column of what comes after `avant` on a row -/
def colonne (avant : List Char) : ℕ := avant.countP fun c => c ≠ '#' && c ≠ '.'

def ComposantGraphique.place (x y : ℕ) : ComposantGraphique → ComposantGraphique
  | brique resistance couleur _ _ => brique resistance couleur x y
  | bonus nature _ _ => bonus nature x y
  | bord => bord

/-- the objects of a row: the walls, the dots and the spaces are none -/
def objetsRangee (table : List (Char × ComposantGraphique)) (i : ℕ) (r : List Char) : List ComposantGraphique :=
  r.zipIdx.filterMap fun (c, p) =>
    if c ∈ ['#', '.', ' '] then none else (table.lookup c).map (·.place (colonne (r.take p)) i)

/-- a row of walls only -/
def murs (r : List Char) : Bool := r.all (· = '#')

/-- a wall at the column `p` of a row that has something else -/
def BordeRangee (r : List Char) (p : ℕ) : Prop := ∃ avant apres, r = avant ++ '#' :: apres ∧ colonne avant = p

def Borde (rs : List (List Char)) (p : ℕ) : Prop := ∃ r ∈ rs, murs r = false ∧ BordeRangee r p

def ComposantGraphique.objet : ComposantGraphique → Bool
  | brique .. | bonus .. => true
  | _ => false

def ComposantGraphique.horizontal : ComposantGraphique → Bool
  | bordHorizontal .. => true
  | _ => false

def ComposantGraphique.vertical : ComposantGraphique → Bool
  | bordVertical .. => true
  | _ => false

/-- the components of a layer: its objects and its borders -/
structure Dessin (h : ℤ) (objets horizontaux : List ComposantGraphique) (verticaux : ℕ → Prop)
    (L : List (ℤ × ComposantGraphique)) : Prop where
  hauteur : ∀ x ∈ L, x.1 = h
  objets : (L.map Prod.snd).filter ComposantGraphique.objet = objets
  horizontaux : (L.map Prod.snd).filter ComposantGraphique.horizontal = horizontaux
  unique : ((L.map Prod.snd).filter ComposantGraphique.vertical).Nodup
  verticaux : ∀ p d, .bordVertical p d ∈ L.map Prod.snd ↔ d = cote p ∧ verticaux p

/-- what a layer shows -/
def Dessine (table : List (Char × ComposantGraphique)) (k : Couche) (L : List (ℤ × ComposantGraphique)) : Prop :=
  Dessin (k.hauteur : ℕ) (k.rangees.zipIdx.flatMap fun (r, i) => objetsRangee table i r)
    (k.rangees.zipIdx.filterMap fun (r, i) => if murs r then some (.bordHorizontal i (cote i)) else none)
    (Borde k.rangees) L

/-- the width of the last row that is not of walls only, and the number of rows -/
def Couche.dimensions (k : Couche) : ℕ × ℕ :=
  (((k.rangees.filter fun r => !murs r).getLast?.map colonne).getD 0, k.rangees.length)

section

variable {h : ℤ} {objets horizontaux : List ComposantGraphique} {verticaux : ℕ → Prop}
variable {L : List (ℤ × ComposantGraphique)}

theorem Dessin.objet {o : ComposantGraphique} (hL : Dessin h objets horizontaux verticaux L) (ho : o.objet = true) :
    Dessin h (objets ++ [o]) horizontaux verticaux (L ++ [(h, o)]) := by
  have hh : o.horizontal = false := by cases o <;> first | rfl | cases ho
  have hv : o.vertical = false := by cases o <;> first | rfl | cases ho
  have hne : ∀ p d, o ≠ .bordVertical p d := by rintro p d rfl; cases ho
  refine ⟨?_, ?_, ?_, ?_, ?_⟩
  · simpa [or_imp, forall_and] using hL.hauteur
  · simp [ho, ← hL.objets]
  · simp [hh, ← hL.horizontaux]
  · simpa [hv] using hL.unique
  · intro p d
    have hvert := hL.verticaux p d
    simp only [List.map_append, List.map_cons, List.map_nil, List.mem_append, List.mem_singleton, (hne p d).symm,
      or_false]
    exact hvert

theorem Dessin.horizontal {i : ℕ} (hL : Dessin h objets horizontaux verticaux L) :
    Dessin h objets (horizontaux ++ [.bordHorizontal i (cote i)]) verticaux (L ++ [(h, .bordHorizontal i (cote i))]) := by
  refine ⟨?_, ?_, ?_, ?_, ?_⟩
  · simpa [or_imp, forall_and] using hL.hauteur
  · simp [ComposantGraphique.objet, ← hL.objets]
  · simp [ComposantGraphique.horizontal, ← hL.horizontaux]
  · simpa [ComposantGraphique.vertical] using hL.unique
  · intro p d
    simpa using hL.verticaux p d

theorem Dessin.vertical {p : ℕ} (hL : Dessin h objets horizontaux verticaux L) (hp : ¬ verticaux p) :
    Dessin h objets horizontaux (fun q => verticaux q ∨ p = q) (L ++ [(h, .bordVertical p (cote p))]) := by
  have hnew : .bordVertical p (cote p) ∉ L.map Prod.snd := fun hm => hp ((hL.verticaux p (cote p)).1 hm).2
  refine ⟨?_, ?_, ?_, ?_, ?_⟩
  · simpa [or_imp, forall_and] using hL.hauteur
  · simp [ComposantGraphique.objet, ← hL.objets]
  · simp [ComposantGraphique.horizontal, ← hL.horizontaux]
  · rw [List.map_append, List.filter_append]
    refine List.Nodup.append hL.unique (List.nodup_singleton _) ?_
    intro x hx hx'
    obtain rfl := List.mem_singleton.1 (List.mem_of_mem_filter hx')
    exact hnew (List.mem_of_mem_filter hx)
  · intro q d
    rw [List.map_append, List.mem_append, hL.verticaux q d]
    simp only [List.map_cons, List.map_nil, List.mem_singleton, ComposantGraphique.bordVertical.injEq]
    constructor
    · rintro (⟨hd, hq⟩ | ⟨rfl, rfl⟩)
      · exact ⟨hd, .inl hq⟩
      · exact ⟨rfl, .inr rfl⟩
    · rintro ⟨rfl, hq | rfl⟩
      · exact .inl ⟨rfl, hq⟩
      · exact .inr ⟨rfl, rfl⟩

end

section

variable {table : List (Char × ComposantGraphique)} {c : Char} {avant r : List Char} {i p N : ℕ}

theorem colonne_concat (avant : List Char) (c : Char) :
    colonne (avant ++ [c]) = colonne avant + if c = '#' ∨ c = '.' then 0 else 1 := by
  rw [colonne, List.countP_append]
  congr 1
  by_cases hm : c = '#' <;> by_cases hp : c = '.' <;> simp [hm, hp]

theorem colonne_le (avant : List Char) : colonne avant ≤ avant.length := List.countP_le_length

theorem objetsRangee_concat : objetsRangee table i (avant ++ [c]) = objetsRangee table i avant ++
    (if c ∈ ['#', '.', ' '] then none else (table.lookup c).map (·.place (colonne avant) i)).toList := by
  rw [objetsRangee, List.zipIdx_append, List.filterMap_append]
  congr 1
  · refine List.filterMap_congr fun x hx => ?_
    obtain ⟨c', k⟩ := x
    have hk : k < avant.length := by
      have := (List.mem_zipIdx hx).2.1
      omega
    dsimp only
    rw [List.take_append_of_le_length hk.le]
  · have htake : (avant ++ [c]).take avant.length = avant := by
      rw [List.take_append_of_le_length le_rfl, List.take_length]
    simp only [List.zipIdx_cons, List.zipIdx_nil, Nat.zero_add, List.filterMap_cons, List.filterMap_nil, htake]
    cases (if c ∈ ['#', '.', ' '] then none else (table.lookup c).map (·.place (colonne avant) i)) <;> rfl

theorem bordeRangee_concat : BordeRangee (avant ++ [c]) p ↔ BordeRangee avant p ∨ (c = '#' ∧ colonne avant = p) := by
  constructor
  · rintro ⟨u, v, h, hp⟩
    rcases List.eq_nil_or_concat v with rfl | ⟨v, d, rfl⟩
    · obtain ⟨rfl, hc⟩ := List.append_inj' h rfl
      exact .inr ⟨by simpa using hc, hp⟩
    · rw [List.concat_eq_append, ← List.cons_append, ← List.append_assoc] at h
      exact .inl ⟨u, v, (List.append_inj' h rfl).1, hp⟩
  · rintro (⟨u, v, rfl, hp⟩ | ⟨rfl, hp⟩)
    · exact ⟨u, v ++ [c], by simp, hp⟩
    · exact ⟨avant, [], rfl, hp⟩

variable {h : ℤ} {debut : List (ℤ × ComposantGraphique)} {objets horizontaux : List ComposantGraphique}
variable {verticaux : ℕ → Prop} {x : EnCouche}

/-- what a layer has so far: the components after `debut`, and the columns with a border -/
structure Avancee (h : ℤ) (debut : List (ℤ × ComposantGraphique)) (objets horizontaux : List ComposantGraphique)
    (verticaux : ℕ → Prop) (N : ℕ) (x : EnCouche) : Prop where
  dessin : ∃ L, x.composants = debut ++ L ∧ Dessin h objets horizontaux verticaux L
  bords : ∀ p, x.bordsVerticaux[p]? = some true ↔ verticaux p
  taille : x.bordsVerticaux.length = N

theorem Avancee.congr {verticaux' : ℕ → Prop} (hx : Avancee h debut objets horizontaux verticaux N x)
    (hv : ∀ p, verticaux p ↔ verticaux' p) : Avancee h debut objets horizontaux verticaux' N x := by
  obtain rfl : verticaux = verticaux' := funext fun p => propext (hv p)
  exact hx

/-- a character of a row that the models know -/
def Connu (table : List (Char × ComposantGraphique)) (modeles : List (Option ComposantGraphique)) (c : Char) : Prop :=
  c ∈ ['#', '.', ' '] ∨ ∃ nb, ∃ m : Modele, table.lookup c = some (m.composant nb) ∧
    modeles[c.toNat]? = some (some (m.composant nb))

theorem lisCar_mur (hx : Avancee h debut objets horizontaux verticaux N x) (hN : x.j < N) :
    ∃ y, lisCar modeles h x '#' = .ok y ∧ y.lecteur = x.lecteur ∧ y.i = x.i ∧ y.j = x.j ∧
      Avancee h debut objets horizontaux (fun p => verticaux p ∨ x.j = p) N y := by
  obtain ⟨vu, hvu⟩ : ∃ vu, x.bordsVerticaux[x.j]? = some vu := ⟨_, List.getElem?_eq_getElem (by rwa [hx.taille])⟩
  have hiff := hx.bords x.j
  cases vu with
  | true =>
    refine ⟨x, by rw [lisCar, if_pos rfl, hvu], rfl, rfl, rfl, hx.congr fun p => ⟨.inl, ?_⟩⟩
    rintro (hp | rfl)
    · exact hp
    · exact hiff.1 hvu
  | false =>
    have hv : ¬ verticaux x.j := fun hv => by simp [hiff.2 hv] at hvu
    obtain ⟨L, hL, hd⟩ := hx.dessin
    refine ⟨{ x with
        composants := x.composants ++ [(h, .bordVertical x.j (cote x.j))]
        bordsVerticaux := x.bordsVerticaux.set x.j true },
      by rw [lisCar, if_pos rfl, hvu], rfl, rfl, rfl, ⟨_, ?_, hd.vertical hv⟩, ?_, ?_⟩
    · rw [hL, List.append_assoc]
    · intro p
      by_cases hp : x.j = p
      · subst hp
        rw [List.getElem?_set_self (by rwa [hx.taille])]
        simp
      · rw [List.getElem?_set_ne hp, hx.bords p]
        simp [hp]
    · rw [List.length_set, hx.taille]

theorem objet_composant (nb x y : ℕ) (m : Modele) :
    (m.composant nb).copieVers x y = .ok ((m.composant nb).place x y) ∧ ((m.composant nb).place x y).objet = true := by
  cases m <;> exact ⟨rfl, rfl⟩

theorem lisCar_objet {nb : ℕ} {m : Modele} (hc : c ∉ ['#', '.', ' '])
    (hm : modeles[c.toNat]? = some (some (m.composant nb))) (hx : Avancee h debut objets horizontaux verticaux N x) :
    ∃ y, lisCar modeles h x c = .ok y ∧ y.lecteur = x.lecteur ∧ y.i = x.i ∧ y.j = x.j + 1 ∧
      Avancee h debut (objets ++ [(m.composant nb).place x.j x.i]) horizontaux verticaux N y := by
  simp only [List.mem_cons, List.not_mem_nil, or_false, not_or] at hc
  obtain ⟨hcopie, hobjet⟩ := objet_composant nb x.j x.i m
  obtain ⟨L, hL, hd⟩ := hx.dessin
  refine ⟨{ x with composants := x.composants ++ [(h, (m.composant nb).place x.j x.i)], j := x.j + 1 }, ?_, rfl, rfl, rfl,
    ⟨_, ?_, hd.objet hobjet⟩, hx.bords, hx.taille⟩
  · rw [lisCar, if_neg hc.1, if_neg hc.2.1, if_neg hc.2.2, hm]
    simp only [hcopie, bind, Except.bind, pure, Except.pure]
  · rw [hL, List.append_assoc]

theorem lisCar_avance (hc : Connu table modeles c) (hx : Avancee h debut objets horizontaux verticaux N x)
    (hj : x.j = colonne avant) (hN : x.j < N) : ∃ y, lisCar modeles h x c = .ok y ∧ y.lecteur = x.lecteur ∧ y.i = x.i ∧
      y.j = colonne (avant ++ [c]) ∧ Avancee h debut (objets ++
        (if c ∈ ['#', '.', ' '] then none else (table.lookup c).map (·.place (colonne avant) x.i)).toList) horizontaux
        (fun p => verticaux p ∨ (c = '#' ∧ colonne avant = p)) N y := by
  rw [colonne_concat, ← hj]
  by_cases hc' : c ∈ ['#', '.', ' ']
  · rw [if_pos hc', Option.toList_none, List.append_nil]
    simp only [List.mem_cons, List.not_mem_nil, or_false] at hc'
    rcases hc' with rfl | rfl | rfl
    · simpa using lisCar_mur hx hN
    · exact ⟨x, rfl, rfl, rfl, rfl, hx.congr (by simp)⟩
    · exact ⟨{ x with j := x.j + 1 }, rfl, rfl, rfl, rfl, (hx.congr (by simp)).dessin,
        fun p => (hx.bords p).trans (by simp),
        hx.taille⟩
  · obtain ⟨nb, m, hl, hm⟩ := hc.resolve_left hc'
    obtain ⟨y, hy, hlect, hi, hyj, ha⟩ := lisCar_objet hc' hm hx
    simp only [List.mem_cons, List.not_mem_nil, or_false, not_or] at hc'
    refine ⟨y, hy, hlect, hi, by simp [hyj, hc'], ?_⟩
    rw [if_neg (by simp [hc']), hl]
    exact ha.congr (by simp [hc'])

/-- a row that is not of walls only -/
theorem rangee_avance (hr : ∀ c ∈ r, Connu table modeles c) (hN : r.length ≤ N)
    (hx : Avancee h debut objets horizontaux verticaux N x) :
    ∃ y, r.foldlM (lisCar modeles h) { x with j := 0 } = .ok y ∧ y.lecteur = x.lecteur ∧ y.i = x.i ∧ y.j = colonne r ∧
      Avancee h debut (objets ++ objetsRangee table x.i r) horizontaux (fun p => verticaux p ∨ BordeRangee r p) N y := by
  have hdebut : Avancee h debut (objets ++ objetsRangee table x.i []) horizontaux
      (fun p => verticaux p ∨ BordeRangee [] p) N { x with j := 0 } := by
    have hobjets : objets ++ objetsRangee table x.i [] = objets := by simp [objetsRangee]
    have hbords : ∀ p, verticaux p ↔ verticaux p ∨ BordeRangee [] p := by simp [BordeRangee]
    rw [hobjets]
    have hx' := hx.congr hbords
    exact ⟨hx'.dessin, hx'.bords, hx'.taille⟩
  refine foldlM_inv (fun avant y => y.lecteur = x.lecteur ∧ y.i = x.i ∧ y.j = colonne avant ∧
    Avancee h debut (objets ++ objetsRangee table x.i avant) horizontaux
      (fun p => verticaux p ∨ BordeRangee avant p) N y) r ?_ ⟨rfl, rfl, rfl, hdebut⟩
  rintro avant c apres y hrow ⟨hl, hi, hj, ha⟩
  have hlen : avant.length < r.length := by rw [← hrow]; simp
  have hcol := colonne_le avant
  obtain ⟨z, hz, hzl, hzi, hzj, hza⟩ := lisCar_avance (hr c (by rw [← hrow]; simp)) ha hj (by omega)
  refine ⟨z, hz, hzl.trans hl, hzi.trans hi, hzj, ?_⟩
  rw [hi] at hza
  rw [objetsRangee_concat, ← List.append_assoc]
  exact hza.congr fun p => by rw [bordeRangee_concat, or_assoc]

/-- what a layer has after the rows `rs` -/
structure Lue (table : List (Char × ComposantGraphique)) (h : ℤ) (debut : List (ℤ × ComposantGraphique)) (N : ℕ)
    (rs : List (List Char)) (x : EnCouche) : Prop where
  i : x.i = rs.length
  j : x.j = ((rs.filter fun r => !murs r).getLast?.map colonne).getD 0
  avancee : Avancee h debut (rs.zipIdx.flatMap fun (r, i) => objetsRangee table i r)
    (rs.zipIdx.filterMap fun (r, i) => if murs r then some (.bordHorizontal i (cote i)) else none) (Borde rs) N x

theorem objetsRangee_murs (hr : murs r = true) : objetsRangee table i r = [] := by
  refine List.filterMap_eq_nil_iff.2 fun x hx => if_pos ?_
  have hc : x.1 ∈ r := List.fst_mem_of_mem_zipIdx hx
  have hmur : x.1 = '#' := by simpa using List.all_eq_true.1 hr _ hc
  simp [hmur]

theorem borde_concat {rs : List (List Char)} :
    Borde (rs ++ [r]) p ↔ Borde rs p ∨ (murs r = false ∧ BordeRangee r p) := by
  simp [Borde, or_and_right, exists_or]

theorem Lue.rangee {rs : List (List Char)} (hx : Lue table h debut N rs x) (hr : ∀ c ∈ r, Connu table modeles c)
    (hN : r.length ≤ N) : ∃ y, lisRangee modeles h r x = .ok y ∧ y.lecteur = x.lecteur ∧
      Lue table h debut N (rs ++ [r]) { y with i := y.i + 1 } := by
  have hi := hx.i
  have hzip : (rs ++ [r]).zipIdx = rs.zipIdx ++ [(r, x.i)] := by rw [List.zipIdx_append, hi, Nat.zero_add]; rfl
  have ha := hx.avancee
  unfold lisRangee
  cases hm : murs r with
  | true =>
    obtain ⟨L, hL, hd⟩ := ha.dessin
    refine ⟨_, if_pos hm, rfl, by simp [hi], by simpa [hm] using hx.j, ?_⟩
    rw [hzip, List.flatMap_append, List.filterMap_append]
    simp only [List.flatMap_cons, List.flatMap_nil, List.filterMap_cons, List.filterMap_nil, objetsRangee_murs hm, hm,
      if_true, List.append_nil]
    refine Avancee.congr ⟨⟨_, ?_, hd.horizontal⟩, ha.bords, ha.taille⟩ fun p => ?_
    · rw [hL, List.append_assoc]
    · rw [borde_concat, hm]
      simp
  | false =>
    obtain ⟨y, hy, hl, hyi, hj, hya⟩ := rangee_avance hr hN ha
    refine ⟨y, (if_neg (by simpa [murs] using hm)).trans hy, hl, by simp [hyi, hi], by simp [hm, hj], ?_⟩
    rw [hzip, List.flatMap_append, List.filterMap_append]
    simp only [List.flatMap_cons, List.flatMap_nil, List.filterMap_cons, List.filterMap_nil, hm, Bool.false_eq_true,
      if_false, List.append_nil]
    refine Avancee.congr ⟨hya.dessin, hya.bords, hya.taille⟩ fun p => ?_
    rw [borde_concat, hm]
    simp

theorem Lue.avec {rs : List (List Char)} (hx : Lue table h debut N rs x) (l : Lecteur) :
    Lue table h debut N rs { x with lecteur := l } :=
  ⟨hx.i, hx.j, hx.avancee.dessin, hx.avancee.bords, hx.avancee.taille⟩

/-- what the text asks of a row -/
def Rangeable (table : List (Char × ComposantGraphique)) (modeles : List (Option ComposantGraphique)) (N : ℕ)
    (r : List Char) : Prop :=
  Pleine r ∧ (∀ c ∈ r, Connu table modeles c) ∧ r.length ≤ N

theorem pleine_espaces (n : ℕ) (hr : Pleine r) : Pleine (espaces n ++ r) := by
  obtain ⟨c, hc, hne⟩ := hr
  exact ⟨c, List.mem_append_right _ hc, hne⟩

theorem pleines_rangees {rs : List (List Char)} (hrs : ∀ r ∈ rs, Pleine r) (hs : Pleines suite) :
    Pleines (rs.map (espaces b ++ ·) ++ suite) := by
  intro l hl
  rcases List.mem_append.1 hl with hl | hl
  · obtain ⟨r, hr, rfl⟩ := List.mem_map.1 hl
    exact pleine_espaces b (hrs r hr)
  · exact hs l hl

theorem rangee_lue {y : EnCouche} {l : Lecteur} (hl : x.lecteur.ligne = some ligne)
    (hy : lisRangee modeles h (ligne.drop b) x = .ok y) (hs : lisLigne y.lecteur.s = .ok l) :
    rangee modeles h b x = .ok { y with lecteur := l, i := y.i + 1 } := by
  simp only [rangee, hl, hy, hs, bind, Except.bind, pure, Except.pure]

/-- the rows of a layer -/
theorem boucle_rangees {rs faites : List (List Char)} (hrs : ∀ r ∈ rs, Rangeable table modeles N r) (hs : Pleines suite)
    (hind : (sur suite).indentation < b) (hx : Lue table h debut N faites x) :
    ∃ y, boucle EnCouche.lecteur (fun l => decide (b ≤ l.indentation) && l.ligne.isSome) (rangee modeles h b)
        { x with lecteur := sur (rs.map (espaces b ++ ·) ++ suite) } = .ok y ∧ y.lecteur = sur suite ∧
      Lue table h debut N (faites ++ rs) y := by
  induction rs generalizing faites x with
  | nil =>
    refine ⟨{ x with lecteur := sur suite }, boucle_arret ?_, rfl, by simpa using hx.avec (sur suite)⟩
    simp [hind]
  | cons r rs ih =>
    obtain ⟨⟨hr, hconnu, hN⟩, hrs⟩ := List.forall_mem_cons.1 hrs
    have hpleines : Pleines (rs.map (espaces b ++ ·) ++ suite) := pleines_rangees (fun r hr => (hrs r hr).1) hs
    have hx' := hx.avec (sur ((espaces b ++ r) :: (rs.map (espaces b ++ ·) ++ suite)))
    obtain ⟨y, hy, hl, hlue⟩ := hx'.rangee hconnu hN
    have hpas : rangee modeles h b { x with lecteur := sur ((espaces b ++ r) :: (rs.map (espaces b ++ ·) ++ suite)) } =
        .ok { y with lecteur := sur (rs.map (espaces b ++ ·) ++ suite), i := y.i + 1 } := by
      have hdrop : (espaces b ++ r).drop b = r := List.drop_left' List.length_replicate
      refine rangee_lue rfl (hdrop.symm ▸ hy) ?_
      rw [hl]
      exact lisLigne_sur hpleines
    obtain ⟨z, hz, hzl, hzlue⟩ := ih hrs hlue
    refine ⟨z, (boucle_pas (fun _ _ h => (rangee_ok true 0 h).1) ?_ hpas).trans hz, hzl, ?_⟩
    · simp [indente_espaces, sur]
    · rwa [List.append_assoc] at hzlue

theorem lue_debut : Lue table h debut N [] ⟨sur suite, debut, 0, 0, List.replicate N false⟩ where
  i := rfl
  j := rfl
  avancee := by
    refine ⟨⟨[], (List.append_nil _).symm, ?_⟩, fun p => ?_, List.length_replicate⟩
    · exact ⟨by simp, rfl, rfl, List.nodup_nil, by simp [Borde]⟩
    · simp [Borde, List.getElem?_replicate]

/-- the models that the layers use are those of the table -/
def Connus (table : List (Char × ComposantGraphique)) (modeles : List (Option ComposantGraphique)) (k : Couche) : Prop :=
  ∀ r ∈ k.rangees, ∀ c ∈ r, Connu table modeles c

variable {n : Niveau} {k : Couche} {noms : List Char}

theorem lisCouche_lue {l : Lecteur} {y : EnCouche} (hl : l.ligne = some ligne)
    (hy : boucle EnCouche.lecteur (fun l' => decide (l.indentation ≤ l'.indentation) && l'.ligne.isSome)
      (rangee modeles h l.indentation)
      ⟨l, n.composants, 0, 0, List.replicate ((ligne.length - l.indentation) * 2) false⟩ = .ok y) :
    lisCouche modeles h n l =
      .ok ({ n with composants := y.composants, dimensions := n.dimensions ++ [(y.j, y.i)] }, y.lecteur) := by
  simp only [lisCouche, hl, hy, bind, Except.bind, pure, Except.pure]

theorem lisCouche_lignes (hk : k.Correcte noms) (hc : Connus table modeles k) (hs : Pleines suite)
    (hind : (sur suite).indentation < b) :
    ∃ L, lisCouche modeles (k.hauteur : ℕ) n (sur (k.rangees.map (espaces b ++ ·) ++ suite)) =
        .ok ({ n with composants := n.composants ++ L, dimensions := n.dimensions ++ [k.dimensions] }, sur suite) ∧
      Dessine table k L := by
  obtain ⟨c, l, rs, hrs, hce⟩ := hk.premiere
  have hic : indente (espaces b ++ c :: l) = b := by
    rw [indente_espaces, indente, List.takeWhile_cons_of_neg (by simpa using hce)]
    rfl
  have hlen : (espaces b ++ c :: l).length - b = (c :: l).length := by simp [espaces]
  have hrange : ∀ r ∈ k.rangees, Rangeable table modeles ((c :: l).length * 2) r := by
    intro r hr
    exact ⟨hk.pleines r hr, hc r hr, hk.larges r hr (c :: l) (by rw [hrs]; rfl)⟩
  have hdebut : Lue table (k.hauteur : ℕ) n.composants ((c :: l).length * 2) []
      ⟨sur suite, n.composants, 0, 0, List.replicate ((c :: l).length * 2) false⟩ := lue_debut
  obtain ⟨y, hy, hyl, hlue⟩ := boucle_rangees hrange hs hind hdebut
  obtain ⟨L, hL, hd⟩ := hlue.avancee.dessin
  refine ⟨L, ?_, hd⟩
  have hdim : (y.j, y.i) = k.dimensions := Prod.ext hlue.j hlue.i
  rw [hrs, List.map_cons, List.cons_append] at hy ⊢
  rw [lisCouche_lue rfl (by rw [indentation_sur, hic, hlen]; exact hy), hyl, hL, hdim]

theorem hauteur_lue (hauteur : Fin 10) : ∃ c, decimale (hauteur : ℕ) = [c] ∧ ' ' < c ∧ c ≠ ':' ∧
    unCar [c] = some c ∧ ('0' ≤ c && c ≤ '9') = true ∧ chiffre c = (hauteur : ℕ) := by
  have hc : ∀ hauteur : Fin 10, decimale (hauteur : ℕ) = [Char.ofNat (48 + hauteur)] ∧ ' ' < Char.ofNat (48 + hauteur) ∧
      Char.ofNat (48 + hauteur) ≠ ':' ∧ unCar [Char.ofNat (48 + hauteur)] = some (Char.ofNat (48 + hauteur)) ∧
      ('0' ≤ Char.ofNat (48 + hauteur) && Char.ofNat (48 + hauteur) ≤ '9') = true ∧
      chiffre (Char.ofNat (48 + hauteur)) = (hauteur : ℕ) := by decide
  exact ⟨_, hc hauteur⟩

theorem pleines_lignesCouche (hk : k.Correcte noms) (hs : Pleines suite) : Pleines (lignesCouche a b k ++ suite) :=
  pleines_cons (pleine_couple a _ _) (pleines_rangees hk.pleines hs)

theorem indentation_couche : (sur (lignesCouche a b k ++ suite)).indentation = a := by
  obtain ⟨c, hd, hc, -⟩ := hauteur_lue k.hauteur
  rw [lignesCouche, hd, List.cons_append, indentation_sur]
  exact indente_couple (ne_espace hc) a [] _

variable (ea) in
/-- a turn of the block of the layers -/
theorem couche_lignes {e : Etat} (hk : k.Correcte noms) (hc : Connus table e.modeles k) (hs : Pleines suite)
    (hind : (sur suite).indentation < b) :
    ∃ L, couche ea ⟨n, { e with lecteur := sur (lignesCouche a b k ++ suite) }⟩ =
        .ok ⟨{ n with composants := n.composants ++ L, dimensions := n.dimensions ++ [k.dimensions] },
          { e with lecteur := sur suite }⟩ ∧ Dessine table k L := by
  obtain ⟨L, hL, hd⟩ := lisCouche_lignes (n := n) hk hc hs hind
  refine ⟨L, ?_, hd⟩
  obtain ⟨c, hdec, hce, hdp, hun, hborne, hval⟩ := hauteur_lue k.hauteur
  have hpleines : Pleines (k.rangees.map (espaces b ++ ·) ++ suite) := pleines_rangees hk.pleines hs
  have hbarre : trim ['|'] = ['|'] := trim_caractere (by decide)
  have hcar : trouveCar ea (some ['|']) (sur (lignesCouche a b k ++ suite)) =
      .ok (c, sur (k.rangees.map (espaces b ++ ·) ++ suite)) := by
    have h := @trouveCouple_couple ea a [c] ['|'] _ (by simpa using hdp.symm) (by decide) hpleines
    rw [trim_caractere hce, hbarre] at h
    simp only [lignesCouche, hdec, trouveCar, List.cons_append, h, hun, bind, Except.bind, decide_true, affirme_true]
    rfl
  simp only [couche, hcar, hborne, affirme_true, hval, hL, bind, Except.bind, pure, Except.pure]

variable (ea) in
/-- the block of the layers -/
theorem boucle_couche {e : Etat} {ks : List Couche} (hks : ∀ k ∈ ks, k.Correcte noms)
    (hc : ∀ k ∈ ks, Connus table e.modeles k) (hs : Pleines suite) (hab : a < b) (hind : (sur suite).indentation < a) :
    ∃ L : List (List (ℤ × ComposantGraphique)),
      boucle (fun x : EnNiveau => x.e.lecteur) (fun l => decide (a ≤ l.indentation)) (couche ea)
        ⟨n, { e with lecteur := sur (ks.flatMap (lignesCouche a b) ++ suite) }⟩ =
        .ok ⟨{ n with
            composants := n.composants ++ L.flatten
            dimensions := n.dimensions ++ ks.map Couche.dimensions },
          { e with lecteur := sur suite }⟩ ∧ List.Forall₂ (Dessine table) ks L := by
  induction ks generalizing n with
  | nil =>
    refine ⟨[], ?_, .nil⟩
    rw [boucle_arret (by simpa using hind)]
    simp
  | cons k ks ih =>
    obtain ⟨hk, hks⟩ := List.forall_mem_cons.1 hks
    obtain ⟨hck, hc⟩ := List.forall_mem_cons.1 hc
    have hs' : Pleines (ks.flatMap (lignesCouche a b) ++ suite) :=
      pleines_flatMap (fun k hk _ => pleines_lignesCouche (hks k hk)) hs
    have hind' : (sur (ks.flatMap (lignesCouche a b) ++ suite)).indentation < b := by
      cases ks with
      | nil => exact hind.trans hab
      | cons k ks =>
        rw [List.flatMap_cons, List.append_assoc, indentation_couche]
        exact hab
    obtain ⟨L, hL, hd⟩ := couche_lignes ea (a := a) (n := n) hk hck hs' hind'
    obtain ⟨L', hL', hd'⟩ := ih
      (n := { n with composants := n.composants ++ L, dimensions := n.dimensions ++ [k.dimensions] })
      hks hc
    refine ⟨L :: L', ?_, .cons hd hd'⟩
    rw [List.flatMap_cons, List.append_assoc]
    refine (boucle_pas (fun _ _ h => (couche_ok h).1) ?_ hL).trans (hL'.trans ?_)
    · exact decide_eq_true indentation_couche.ge
    · simp

end

/-! ## Levels -/

section

variable {d : Description} {n : Niveau} {e : Etat}

variable (ea) in
theorem partie_composants (hl : ∀ p ∈ l, Declarable p) (hne : l ≠ []) (hmod : e.modeles.length = 256)
    (hnb : e.nbCouleurs + (l.map fun p => p.2.briques).sum ≤ e.couleurs.length) (hs : Pleines suite) (hab : a < b)
    (hind : (sur suite).indentation < a) :
    partie ea ⟨n, { e with lecteur := sur ("Composants:".toList :: l.flatMap (lignesModele a b) ++ suite) }⟩ =
      .ok ⟨n, { l.foldl Etat.inscrit e with lecteur := sur suite }⟩ := by
  have hpleines : Pleines (l.flatMap (lignesModele a b) ++ suite) :=
    pleines_flatMap (fun _ _ _ => pleines_lignesModele _) hs
  have hnom := @trouveCouple_nom ea 0 "Composants".toList _ (by decide) (by decide) hpleines
  have hind' : (sur (l.flatMap (lignesModele a b) ++ suite)).indentation = a := by
    obtain ⟨p, l, rfl⟩ := List.exists_cons_of_ne_nil hne
    rw [List.flatMap_cons, List.append_assoc, indentation_modele (ne_espace (hl p (by simp)).1.1)]
  have hb := boucle_declare ea (b := b) hl hmod hnb hs hab hind
  have htrim : trim "Composants".toList = "Composants".toList := by decide
  have hlu : trouveNom ea (sur ("Composants:".toList :: l.flatMap (lignesModele a b) ++ suite)) =
      .ok ("Composants".toList, sur (l.flatMap (lignesModele a b) ++ suite)) := by
    rw [htrim] at hnom
    refine (congrArg (· >>= _) hnom).trans ?_
    cases ea <;> rfl
  simp only [partie, hlu, hind', hb, bind, Except.bind, pure, Except.pure, if_true]

variable (ea) in
theorem partie_couches {table : List (Char × ComposantGraphique)} {noms : List Char} {ks : List Couche}
    (hks : ∀ k ∈ ks, k.Correcte noms) (hc : ∀ k ∈ ks, Connus table e.modeles k) (hne : ks ≠ []) (hs : Pleines suite)
    (hab : a < b) (hind : (sur suite).indentation < a) :
    ∃ L : List (List (ℤ × ComposantGraphique)),
      partie ea ⟨n, { e with lecteur := sur ("Couches:".toList :: ks.flatMap (lignesCouche a b) ++ suite) }⟩ =
        .ok ⟨{ n with
            composants := n.composants ++ L.flatten
            dimensions := n.dimensions ++ ks.map Couche.dimensions },
          { e with lecteur := sur suite }⟩ ∧ List.Forall₂ (Dessine table) ks L := by
  obtain ⟨L, hL, hd⟩ := boucle_couche ea (b := b) (n := n) hks hc hs hab hind
  refine ⟨L, ?_, hd⟩
  have hpleines : Pleines (ks.flatMap (lignesCouche a b) ++ suite) :=
    pleines_flatMap (fun k hk _ => pleines_lignesCouche (hks k hk)) hs
  have hnom := @trouveCouple_nom ea 0 "Couches".toList _ (by decide) (by decide) hpleines
  have hind' : (sur (ks.flatMap (lignesCouche a b) ++ suite)).indentation = a := by
    obtain ⟨k, ks, rfl⟩ := List.exists_cons_of_ne_nil hne
    rw [List.flatMap_cons, List.append_assoc, indentation_couche]
  have htrim : trim "Couches".toList = "Couches".toList := by decide
  have hlu : trouveNom ea (sur ("Couches:".toList :: ks.flatMap (lignesCouche a b) ++ suite)) =
      .ok ("Couches".toList, sur (ks.flatMap (lignesCouche a b) ++ suite)) := by
    rw [htrim] at hnom
    refine (congrArg (· >>= _) hnom).trans ?_
    cases ea <;> rfl
  have hautre : "Couches".toList ≠ "Composants".toList := by decide
  simp only [partie, hlu, hind', hL, bind, Except.bind, if_true, if_neg hautre]

/-- a text of the description stays on its lines -/
theorem finDeLigne_lignes (hd : d.Correcte) : ∀ l ∈ d.lignes a b, ∀ c ∈ l, finDeLigne c = false := by
  have hespaces : ∀ n, ∀ c ∈ espaces n, finDeLigne c = false := by
    intro n c hc
    obtain rfl := List.eq_of_mem_replicate hc
    decide
  have hcouple : ∀ nom v : List Char, (∀ c ∈ nom, finDeLigne c = false) → (∀ c ∈ v, finDeLigne c = false) →
      ∀ n, ∀ c ∈ espaces n ++ couple nom v, finDeLigne c = false := by
    intro nom v hn hv n c hc
    simp only [couple, List.mem_append, List.mem_cons] at hc
    rcases hc with hc | hc | rfl | rfl | hc
    · exact hespaces n c hc
    · exact hn c hc
    · decide
    · decide
    · exact hv c hc
  -- the words of the format
  have hfixe : ∀ m : List Char, m.all (fun c => !finDeLigne c) = true → ∀ c ∈ m, finDeLigne c = false := by
    intro m hm c hc
    simpa using List.all_eq_true.1 hm c hc
  intro l hl
  simp only [Description.lignes, List.cons_append, List.mem_cons, List.mem_append, List.mem_flatMap] at hl
  rcases hl with rfl | ⟨p, hp, hl⟩ | rfl | ⟨k, hk, hl⟩
  · exact hfixe _ (by decide)
  · simp only [lignesModele, List.mem_cons, List.mem_map] at hl
    rcases hl with rfl | ⟨m, hm, rfl⟩
    · intro c hc
      simp only [List.mem_append, List.mem_cons, List.not_mem_nil, or_false] at hc
      rcases hc with hc | rfl | rfl
      · exact hespaces a c hc
      · exact (hd.nom p hp).2.2.2
      · decide
    · have hcor := hd.modele p hp
      cases hp2 : p.2 with
      | brique resistance couleur =>
        rw [hp2] at hm hcor
        simp only [Modele.lignes, List.mem_append, List.mem_cons, Option.mem_toList, Option.map_eq_some_iff] at hm
        rcases hm with (rfl | ⟨n, -, rfl⟩) | ⟨v, hv, rfl⟩
        · exact hcouple _ _ (hfixe _ (by decide)) (hfixe _ (by decide)) b
        · exact hcouple _ _ (hfixe _ (by decide)) (fun c hc => (isDigit_net (isDigit_decimale n c hc)).2.2) b
        · exact hcouple _ _ (hfixe _ (by decide)) (fun c hc => ((hcor.2 v hv).ligne c hc).2) b
      | bonus nature =>
        rw [hp2] at hm
        simp only [Modele.lignes, List.mem_cons, List.not_mem_nil, or_false] at hm
        rcases hm with rfl | rfl
        · exact hcouple _ _ (hfixe _ (by decide)) (hfixe _ (by decide)) b
        · refine hcouple _ _ (hfixe _ (by decide)) (hfixe _ ?_) b
          clear hp2
          revert nature
          decide
  · exact hfixe _ (by decide)
  · have hcor := hd.couche k hk
    simp only [lignesCouche, List.mem_cons, List.mem_map] at hl
    rcases hl with rfl | ⟨r, hr, rfl⟩
    · exact hcouple _ _ (fun c hc => (isDigit_net (isDigit_decimale _ c hc)).2.2) (hfixe _ (by decide)) a
    · intro c hc
      rcases List.mem_append.1 hc with hc | hc
      · exact hespaces b c hc
      · rcases hcor.objets r hr c hc with hc | hc
        · simp only [List.mem_cons, List.not_mem_nil, or_false] at hc
          rcases hc with rfl | rfl | rfl <;> decide
        · obtain ⟨p, hp, rfl⟩ := List.mem_map.1 hc
          exact (hd.nom p hp).2.2.2

theorem Description.Correcte.declarable (hd : d.Correcte) : ∀ p ∈ d.modeles, Declarable p := by
  intro p hp
  obtain ⟨h1, h2, h3, -⟩ := hd.nom p hp
  exact ⟨⟨h1, h2, h3⟩, hd.modele p hp⟩

/-- **What is written is read back**: the level has the colors of the bricks in order, the dimensions of the layers, and
the components that each layer shows, layer after layer. -/
theorem lisNiveau_texte (hd : d.Correcte) (ha : 0 < a) (hab : a < b) : ∃ n, lisNiveau ea (d.texte a b) = .ok n ∧
    n.couleurs = (d.modeles.filterMap fun p => p.2.couleur?).map some ∧
    n.dimensions = d.couches.map Couche.dimensions ∧
    ∃ L : List (List (ℤ × ComposantGraphique)), n.composants = L.flatten ∧
      List.Forall₂ (Dessine (numerote 0 d.modeles)) d.couches L := by
  generalize he : (⟨sur [], List.replicate 256 none, List.replicate 128 none, 0⟩ : Etat) = e
  have hnb : e.nbCouleurs = 0 := by rw [← he]
  have hmod : e.modeles.length = 256 := by rw [← he]; exact List.length_replicate
  have hcoul : e.couleurs.length = 128 := by rw [← he]; exact List.length_replicate
  have hbriques : e.nbCouleurs + (d.modeles.map fun p => p.2.briques).sum ≤ e.couleurs.length := by
    rw [hnb, hcoul, Nat.zero_add]
    exact hd.briques
  have hconnus : ∀ k ∈ d.couches, Connus (numerote 0 d.modeles) (d.modeles.foldl Etat.inscrit e).modeles k := by
    intro k hk r hr c hc
    refine ((hd.couche k hk).objets r hr c hc).imp_right fun hnom => ?_
    rw [← hnb]
    exact inscrits_modele hd.noms hnom fun p hp => hmod ▸ (hd.nom p hp).2.2.1
  have hcouches : Pleines ("Couches:".toList :: d.couches.flatMap (lignesCouche a b) ++ []) :=
    pleines_cons ⟨'C', by decide, by decide⟩
      (pleines_flatMap (fun k hk _ => pleines_lignesCouche (hd.couche k hk)) (by simp [Pleines]))
  have hlignes : d.lignes a b = "Composants:".toList :: d.modeles.flatMap (lignesModele a b) ++
      ("Couches:".toList :: d.couches.flatMap (lignesCouche a b) ++ []) := by
    rw [List.append_nil]
    rfl
  have hmodeles : Pleines (d.lignes a b) := by
    rw [hlignes]
    exact pleines_cons ⟨'C', by decide, by decide⟩ (pleines_flatMap (fun _ _ _ => pleines_lignesModele _) hcouches)
  have h1 := partie_composants ea (n := ⟨[], [], []⟩) hd.declarable hd.modeles hmod hbriques hcouches hab ha
  obtain ⟨L, h2, hL⟩ := partie_couches ea (n := ⟨[], [], []⟩) (e := d.modeles.foldl Etat.inscrit e)
    (fun k hk => hd.couche k hk) hconnus hd.couches (by simp [Pleines] : Pleines []) hab ha
  rw [← hlignes] at h1
  have hpartie : ∀ x y : EnNiveau, partie ea x = .ok y → Lit x.e.lecteur y.e.lecteur := fun _ _ h => (partie_ok h).1
  have hb : boucle (fun x : EnNiveau => x.e.lecteur) (fun l => l.ligne.isSome) (partie ea)
      ⟨⟨[], [], []⟩, { e with lecteur := sur (d.lignes a b) }⟩ = .ok ⟨⟨L.flatten, d.couches.map Couche.dimensions, []⟩,
        { d.modeles.foldl Etat.inscrit e with lecteur := sur [] }⟩ := by
    refine (boucle_pas hpartie ?_ h1).trans ((boucle_pas hpartie rfl h2).trans (boucle_arret rfl))
    rw [hlignes]
    rfl
  refine ⟨⟨L.flatten, d.couches.map Couche.dimensions, (d.modeles.foldl Etat.inscrit e).couleurs.take
    (d.modeles.foldl Etat.inscrit e).nbCouleurs⟩, ?_, ?_, rfl, L, rfl, hL⟩
  · subst he
    rw [lisNiveau, Description.texte, lignes_texte (finDeLigne_lignes hd), lisLigne_sur hmodeles]
    simp only [bind, Except.bind, pure, Except.pure]
    rw [hb]
  · rw [inscrits_couleurs hbriques, hnb]
    rfl

/-- a brick and a bonus on a layer with walls, bonuses on a layer with dots -/
def deuxCouches : Description where
  modeles := [('1', .brique (some 2) none), ('3', .bonus 3)]
  couches := [⟨1, ["####".toList, "#1 3#".toList, "#   #".toList]⟩, ⟨0, [".3.".toList, "3 3".toList]⟩]

theorem correcte_deuxCouches : deuxCouches.Correcte where
  modeles := List.cons_ne_nil _ _
  couches := List.cons_ne_nil _ _
  noms := by decide
  nom := by decide
  modele := by
    intro p hp
    simp only [deuxCouches, List.mem_cons, List.not_mem_nil, or_false] at hp
    rcases hp with rfl | rfl
    · exact ⟨by simp, by simp⟩
    · trivial
  briques := by decide
  couche := by
    intro k hk
    simp only [deuxCouches, List.mem_cons, List.not_mem_nil, or_false] at hk
    rcases hk with rfl | rfl
    · exact ⟨⟨'#', "###".toList, _, rfl, by decide⟩, by simp [Pleine], by decide, by simp [deuxCouches], by decide⟩
    · exact ⟨⟨'.', "3.".toList, _, rfl, by decide⟩, by simp [Pleine], by decide, by simp [deuxCouches], by decide⟩

theorem lisNiveau_texte_deuxCouches : ∃ n, lisNiveau true (deuxCouches.texte 4 8) = .ok n ∧
    n.couleurs = [some gris] ∧ n.dimensions = [(3, 3), (3, 2)] ∧
    ∃ L : List (List (ℤ × ComposantGraphique)), n.composants = L.flatten ∧
      List.Forall₂ (Dessine (numerote 0 deuxCouches.modeles)) deuxCouches.couches L :=
  lisNiveau_texte correcte_deuxCouches (by decide) (by decide)

end

end Semestre6.Niveaux
