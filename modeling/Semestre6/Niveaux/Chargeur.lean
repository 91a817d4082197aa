/-
ChargeurNiveaux.java: the reader of the levels, with the components that it makes (Brique, Bonus and the two borders)
and the calls that it makes on Niveau.

A block of the text goes on as long as the lines are indented at least like its first one. A `char` is a character of
the text (a row that has one of two `char` throws at it either way), and `ea` says whether the assertions are checked.
`nom` and `valeur` are returned by the call that sets them. A coordinate is an integer, as the float of it is up to
2^24. The classes of the two sets that Niveau fills are not in the repository: their calls are taken to return.

- `boucle_fini`, `boucle_pas`: a loop that reads a line at each turn stops, and is what its turns do in order;
- `lisNiveau_sain`: what is accepted has no line of spaces only and makes a level whose colors, bonuses and borders are
  right.
-/
import Semestre6.Lib.Boucle
import Semestre6.Texte.Lecture

namespace Semestre6.Niveaux

open Boucle
open Lecture (splitSur parseInt digit digit_isDigit)

inductive JException where
  | nullPointer
  | stringIndexOutOfBounds
  | arrayIndexOutOfBounds
  | numberFormat
  | unsupportedOperation (message : String)
  | runtime (message : String)
  | assertion
deriving DecidableEq, Repr

inductive ComposantGraphique where
  | brique (resistance : ℤ) (couleur : ℕ) (x y : ℕ)
  | bonus (nature : ℤ) (x y : ℕ)
  | bordHorizontal (position : ℕ) (direction : ℤ)
  | bordVertical (position : ℕ) (direction : ℤ)
deriving DecidableEq, Repr

def ComposantGraphique.copieVers (x y : ℕ) : ComposantGraphique → Except JException ComposantGraphique
  | brique resistance couleur _ _ => .ok (brique resistance couleur x y)
  | bonus nature _ _ => .ok (bonus nature x y)
  | _ => .error (.unsupportedOperation "Not supported yet.")

/-- `Bonus.natures` -/
def natures : List (List Char) := ["Elargit", "Retrecit", "Multiballes", "Laser"].map String.toList

/-- `Bonus.findType` -/
def findType (name : List Char) : ℤ :=
  match natures.idxOf? name with
  | some i => i
  | none => -1

/-- the calls of `ajouteComposant`, `fixerDimensionsMax` and `fixeCouleurs` -/
structure Niveau where
  composants : List (ℤ × ComposantGraphique)
  dimensions : List (ℕ × ℕ)
  couleurs : List (Option (List Char))
deriving DecidableEq, Repr

/-! ## Lines -/

/-- the characters that end a line for java.util.Scanner -/
def finDeLigne (c : Char) : Bool := c ∈ ['\n', '\r', '\u2028', '\u2029', '\u0085']

/-- the lines that `nextLine` gives while `hasNextLine` -/
def lignes : List Char → List (List Char)
  | [] => []
  | '\r' :: '\n' :: cs => [] :: lignes cs
  | c :: cs =>
    if finDeLigne c then [] :: lignes cs
    else
      match lignes cs with
      | [] => [[c]]
      | l :: ls => (c :: l) :: ls

structure Lecteur where
  /-- the lines that the scanner has not given -/
  s : List (List Char)
  ligne : Option (List Char)
  indentation : ℕ
deriving DecidableEq, Repr

def indente (ligne : List Char) : ℕ := (ligne.takeWhile (· = ' ')).length

/-- the walk over the spaces leaves a line that has nothing else -/
def lisLigne (s : List (List Char)) : Except JException Lecteur :=
  match s with
  | [] => .ok ⟨[], none, 0⟩
  | ligne :: s =>
    if indente ligne < ligne.length then .ok ⟨s, some ligne, indente ligne⟩ else .error .stringIndexOutOfBounds

/-- `String.trim` -/
def trim (m : List Char) : List Char := (m.dropWhile (· ≤ ' ')).rdropWhile (· ≤ ' ')

def affirme (ea : Bool) (b : Bool) : Except JException Unit := if ea && !b then .error .assertion else .ok ()

/-- the name and the value of a line, and the reader on the next one -/
def trouveCouple (ea : Bool) (l : Lecteur) : Except JException (List Char × Option (List Char) × Lecteur) :=
  match l.ligne with
  | none => .error .nullPointer
  | some ligne => do
    let mots := splitSur ':' ligne
    affirme ea (mots.length ≤ 2)
    match mots with
    | [] => .error .arrayIndexOutOfBounds
    | mot :: mots => return (trim mot, mots.head?.map trim, ← lisLigne l.s)

def trouveNom (ea : Bool) (l : Lecteur) : Except JException (List Char × Lecteur) := do
  let (nom, valeur, l) ← trouveCouple ea l
  affirme ea valeur.isNone
  return (nom, l)

/-- `nom.charAt(0)`, where `nom.length()` is 1: outside the basic plane a character counts for two -/
def unCar (nom : List Char) : Option Char :=
  match nom with
  | [c] => if c.toNat < 2 ^ 16 then some c else none
  | _ => none

/-- `valeur != val` compares references: a value that was read is never the literal. Only an assertion calls its
`equals`. -/
def trouveCar (ea : Bool) (val : Option (List Char)) (l : Lecteur) : Except JException (Char × Lecteur) := do
  let (nom, valeur, l) ← trouveCouple ea l
  match unCar nom with
  | some c =>
    match valeur with
    | none => if ea && val.isSome then .error .nullPointer else return (c, l)
    | some v =>
      affirme ea (val = some v)
      return (c, l)
  | none =>
    affirme ea false
    return ('0', l)

/-! ## Loops -/

/-- what a loop has left to read -/
def Lecteur.reste (l : Lecteur) : ℕ := l.s.length + l.ligne.toList.length

/-- a loop that reads a line at each turn -/
def boucle {σ : Type} (lecteur : σ → Lecteur) (cond : Lecteur → Bool) (corps : σ → Except JException σ) (x : σ) :
    Except JException σ :=
  tours (fun x => cond (lecteur x)) corps ((lecteur x).reste + 1) x

/-! ## Components -/

/-- the static variables -/
structure Etat where
  lecteur : Lecteur
  modeles : List (Option ComposantGraphique)
  couleurs : List (Option (List Char))
  nbCouleurs : ℕ
deriving DecidableEq, Repr

def gris : List Char := "rgba(50%,50%,50%,1.0)".toList

/-- `couleurs[i] = c` -/
def colorie (couleurs : List (Option (List Char))) (i : ℕ) (c : List Char) :
    Except JException (List (Option (List Char))) :=
  if i < couleurs.length then .ok (couleurs.set i (some c)) else .error .arrayIndexOutOfBounds

/-- the case "brique" of `lisComposant`, in its loop -/
structure EnBrique where
  lecteur : Lecteur
  resistance : ℤ
  couleurs : List (Option (List Char))

def attributBrique (ea : Bool) (nbCouleurs : ℕ) (x : EnBrique) : Except JException EnBrique := do
  let (nom, valeur, lecteur) ← trouveCouple ea x.lecteur
  if nom = "resistance".toList then
    match valeur.bind parseInt with
    | some resistance => return { x with lecteur, resistance }
    | none => .error .numberFormat
  else if nom = "couleur".toList then
    match valeur with
    | some v => return { x with lecteur, couleurs := ← colorie x.couleurs nbCouleurs (trim v) }
    | none => .error .nullPointer
  else
    affirme ea false
    return { x with lecteur }

/-- the case "bonus" -/
structure EnBonus where
  lecteur : Lecteur
  nature : ℤ

def attributBonus (ea : Bool) (x : EnBonus) : Except JException EnBonus := do
  let (nom, valeur, lecteur) ← trouveCouple ea x.lecteur
  if nom = "nature".toList then
    match valeur with
    | some v =>
      if findType (trim v) = -1 then .error (.runtime ("Bonus invalide : " ++ String.ofList v))
      else return ⟨lecteur, findType (trim v)⟩
    | none => .error .nullPointer
  else
    affirme ea false
    return { x with lecteur }

def lisComposant (ea : Bool) (e : Etat) : Except JException (Option ComposantGraphique × Etat) := do
  let indentationCourante := e.lecteur.indentation
  let dedans (l : Lecteur) : Bool := indentationCourante ≤ l.indentation
  let (nom, valeur, lecteur) ← trouveCouple ea e.lecteur
  affirme ea (nom = "type".toList)
  match valeur with
  | none => .error .nullPointer
  | some v =>
    if v = "brique".toList then
      let couleurs ← colorie e.couleurs e.nbCouleurs gris
      let x ← boucle EnBrique.lecteur dedans (attributBrique ea e.nbCouleurs) ⟨lecteur, 1, couleurs⟩
      return (some (.brique x.resistance e.nbCouleurs 0 0), ⟨x.lecteur, e.modeles, x.couleurs, e.nbCouleurs + 1⟩)
    else if v = "bonus".toList then
      let x ← boucle EnBonus.lecteur dedans (attributBonus ea) ⟨lecteur, -1⟩
      affirme ea (x.nature ≠ -1)
      return (some (.bonus x.nature 0 0), { e with lecteur := x.lecteur })
    else
      affirme ea false
      return (none, { e with lecteur })

/-- a turn of the loop of "Composants" -/
def declare (ea : Bool) (e : Etat) : Except JException Etat := do
  let (c, lecteur) ← trouveCar ea none e.lecteur
  let (modele, e) ← lisComposant ea { e with lecteur }
  if c.toNat < e.modeles.length then return { e with modeles := e.modeles.set c.toNat modele }
  else .error .arrayIndexOutOfBounds

/-! ## Layers -/

/-- `lisCouche` in its loop -/
structure EnCouche where
  lecteur : Lecteur
  composants : List (ℤ × ComposantGraphique)
  i : ℕ
  j : ℕ
  bordsVerticaux : List Bool

def cote (position : ℕ) : ℤ := if position = 0 then -1 else 1

/-- one character of a row -/
def lisCar (modeles : List (Option ComposantGraphique)) (couche : ℤ) (x : EnCouche) (car : Char) :
    Except JException EnCouche :=
  if car = '#' then
    match x.bordsVerticaux[x.j]? with
    | none => .error .arrayIndexOutOfBounds
    | some true => .ok x
    | some false =>
      .ok { x with
        composants := x.composants ++ [(couche, .bordVertical x.j (cote x.j))]
        bordsVerticaux := x.bordsVerticaux.set x.j true }
  else if car = '.' then .ok x
  else if car = ' ' then .ok { x with j := x.j + 1 }
  else
    match modeles[car.toNat]? with
    | none => .error .arrayIndexOutOfBounds
    | some none => .error .nullPointer
    | some (some modele) => do
      let nouveau ← modele.copieVers x.j x.i
      return { x with composants := x.composants ++ [(couche, nouveau)], j := x.j + 1 }

/-- one row, without the indentation of the first one -/
def lisRangee (modeles : List (Option ComposantGraphique)) (couche : ℤ) (ligne : List Char) (x : EnCouche) :
    Except JException EnCouche :=
  if ligne.all (· = '#') then .ok { x with composants := x.composants ++ [(couche, .bordHorizontal x.i (cote x.i))] }
  else ligne.foldlM (lisCar modeles couche) { x with j := 0 }

/-- a turn of the loop of `lisCouche` -/
def rangee (modeles : List (Option ComposantGraphique)) (couche : ℤ) (indentationCourante : ℕ) (x : EnCouche) :
    Except JException EnCouche :=
  match x.lecteur.ligne with
  | none => .error .nullPointer
  | some ligne => do
    let x ← lisRangee modeles couche (ligne.drop indentationCourante) x
    return { x with lecteur := ← lisLigne x.lecteur.s, i := x.i + 1 }

def lisCouche (modeles : List (Option ComposantGraphique)) (couche : ℤ) (n : Niveau) (l : Lecteur) :
    Except JException (Niveau × Lecteur) :=
  match l.ligne with
  | none => .error .nullPointer
  | some ligne => do
    let x ← boucle EnCouche.lecteur (fun l' => l.indentation ≤ l'.indentation && l'.ligne.isSome)
      (rangee modeles couche l.indentation)
      ⟨l, n.composants, 0, 0, List.replicate ((ligne.length - l.indentation) * 2) false⟩
    return ({ n with composants := x.composants, dimensions := n.dimensions ++ [(x.j, x.i)] }, x.lecteur)

/-! ## Levels -/

/-- `lisNiveau` in its loop -/
structure EnNiveau where
  n : Niveau
  e : Etat

/-- `Character.digit(c, 10)` -/
def chiffre (c : Char) : ℤ :=
  match digit c with
  | some d => d
  | none => -1

/-- a turn of the loop of "Couches" -/
def couche (ea : Bool) (x : EnNiveau) : Except JException EnNiveau := do
  let (c, lecteur) ← trouveCar ea (some ['|']) x.e.lecteur
  affirme ea ('0' ≤ c && c ≤ '9')
  let (n, lecteur) ← lisCouche x.e.modeles (chiffre c) x.n lecteur
  return ⟨n, { x.e with lecteur }⟩

/-- a turn of the loop of `lisNiveau` -/
def partie (ea : Bool) (x : EnNiveau) : Except JException EnNiveau := do
  let (nom, lecteur) ← trouveNom ea x.e.lecteur
  let dedans (l : Lecteur) : Bool := lecteur.indentation ≤ l.indentation
  if nom = "Composants".toList then
    let e ← boucle Etat.lecteur dedans (declare ea) { x.e with lecteur }
    return { x with e }
  else if nom = "Couches".toList then
    boucle (fun x => x.e.lecteur) dedans (couche ea) { x with e := { x.e with lecteur } }
  else
    affirme ea false
    return { x with e := { x.e with lecteur } }

def lisNiveau (ea : Bool) (texte : List Char) : Except JException Niveau := do
  let lecteur ← lisLigne (lignes texte)
  let x ← boucle (fun x => x.e.lecteur) (fun l => l.ligne.isSome) (partie ea)
    ⟨⟨[], [], []⟩, ⟨lecteur, List.replicate 256 none, List.replicate 128 none, 0⟩⟩
  return { x.n with couleurs := x.e.couleurs.take x.e.nbCouleurs }

/-! ## What is read -/

def Pleine (ligne : List Char) : Prop := ∃ c ∈ ligne, c ≠ ' '

/-- from `l` to `l'`, one line or more were read, none of them of spaces only -/
structure Lit (l l' : Lecteur) : Prop where
  lues : ∃ lus, l.s = lus ++ l'.s ∧ ∀ ligne ∈ lus, Pleine ligne
  fin : l'.ligne = none → l'.s = []
  reste : l'.reste < l.reste

variable {ea : Bool} {l l' l'' : Lecteur} {s : List (List Char)} {nom : List Char} {valeur : Option (List Char)}

theorem Lit.trans (h : Lit l l') (h' : Lit l' l'') : Lit l l'' where
  lues := by
    obtain ⟨lus, hs, hlus⟩ := h.lues
    obtain ⟨lus', hs', hlus'⟩ := h'.lues
    refine ⟨lus ++ lus', by rw [hs, hs', List.append_assoc], ?_⟩
    intro ligne hl
    exact (List.mem_append.1 hl).elim (hlus ligne) (hlus' ligne)
  fin := h'.fin
  reste := h'.reste.trans h.reste

theorem pleine_of_indente {ligne : List Char} (h : indente ligne < ligne.length) : Pleine ligne := by
  by_contra hp
  have htous : ∀ c ∈ ligne, c = ' ' := by simpa [Pleine] using hp
  rw [indente, List.takeWhile_eq_self_iff.2 (by simpa using htous)] at h
  exact lt_irrefl _ h

theorem lisLigne_ok (h : lisLigne s = .ok l') : (∃ lus, s = lus ++ l'.s ∧ ∀ ligne ∈ lus, Pleine ligne) ∧
    (l'.ligne = none → l'.s = []) ∧ l'.reste = s.length := by
  unfold lisLigne at h
  split at h
  · obtain rfl := Except.ok.inj h
    exact ⟨⟨[], rfl, by simp⟩, by simp, rfl⟩
  · split_ifs at h with hi
    obtain rfl := Except.ok.inj h
    exact ⟨⟨[_], rfl, by simpa using pleine_of_indente hi⟩, by simp, rfl⟩

theorem affirme_ok {b : Bool} (h : affirme ea b = .ok ()) (hea : ea = true) : b = true := by
  subst hea
  cases b
  · cases h
  · rfl

theorem trouveCouple_ok (h : trouveCouple ea l = .ok (nom, valeur, l')) : Lit l l' := by
  unfold trouveCouple at h
  split at h
  · cases h
  · rename_i ligne hl
    obtain ⟨_, -, h⟩ := ok_of_bind h
    split at h
    · cases h
    · obtain ⟨l₁, hs, h⟩ := ok_of_bind h
      simp only [pure, Except.pure, Except.ok.injEq, Prod.mk.injEq] at h
      obtain ⟨-, -, rfl⟩ := h
      obtain ⟨hlues, hfin, hreste⟩ := lisLigne_ok hs
      exact ⟨hlues, hfin, by rw [hreste, Lecteur.reste, hl]; simp⟩

theorem trouveNom_ok (h : trouveNom ea l = .ok (nom, l')) : Lit l l' := by
  obtain ⟨⟨nom', valeur, l₁⟩, hx, h⟩ := ok_of_bind h
  obtain ⟨_, -, h⟩ := ok_of_bind h
  simp only [pure, Except.pure, Except.ok.injEq, Prod.mk.injEq] at h
  exact h.2 ▸ trouveCouple_ok hx

theorem unCar_singleton {c : Char} (h : c.toNat < 2 ^ 16) : unCar [c] = some c := if_pos h

theorem trouveCar_ok {val : Option (List Char)} {c : Char} (h : trouveCar ea val l = .ok (c, l')) : Lit l l' := by
  obtain ⟨⟨nom, valeur, l₁⟩, hx, h⟩ := ok_of_bind h
  suffices l₁ = l' from this ▸ trouveCouple_ok hx
  dsimp only at h
  split at h
  · split at h
    · split_ifs at h
      exact (Prod.mk.inj (Except.ok.inj h)).2
    · obtain ⟨_, -, h⟩ := ok_of_bind h
      exact (Prod.mk.inj (Except.ok.inj h)).2
  · obtain ⟨_, -, h⟩ := ok_of_bind h
    exact (Prod.mk.inj (Except.ok.inj h)).2

/-- **The loops stop**: none goes on for lack of turns. -/
theorem boucle_fini {σ : Type} {lecteur : σ → Lecteur} {cond : Lecteur → Bool} {corps : σ → Except JException σ}
    {x y : σ} (hcorps : ∀ x y, corps x = .ok y → Lit (lecteur x) (lecteur y))
    (h : boucle lecteur cond corps x = .ok y) :
    cond (lecteur y) = false ∧ (lecteur y = lecteur x ∨ Lit (lecteur x) (lecteur y)) := by
  refine ⟨tours_fini (t := y) (fun x => (lecteur x).reste) (fun x y _ hxy => (hcorps x y hxy).reste)
    (Nat.lt_succ_self _) h, ?_⟩
  refine tours_inv_of_ok (fun y => lecteur y = lecteur x ∨ Lit (lecteur x) (lecteur y)) ?_ (.inl rfl) h
  intro y z hy _ hyz
  rcases hy with hy | hy
  · exact .inr (hy ▸ hcorps y z hyz)
  · exact .inr (hy.trans (hcorps y z hyz))

theorem boucle_pas {σ : Type} {lecteur : σ → Lecteur} {cond : Lecteur → Bool} {corps : σ → Except JException σ}
    {x y : σ} (hcorps : ∀ x y, corps x = .ok y → Lit (lecteur x) (lecteur y)) (hc : cond (lecteur x) = true)
    (hx : corps x = .ok y) : boucle lecteur cond corps x = boucle lecteur cond corps y := by
  have hlt := (hcorps x y hx).reste
  rw [boucle, tours_of_cond (s := x) hc hx]
  refine tours_suffit (s := y) (fun x => (lecteur x).reste) ?_ hlt (Nat.lt_succ_self _)
  exact fun x y _ hxy => (hcorps x y hxy).reste

theorem boucle_arret {σ : Type} {lecteur : σ → Lecteur} {cond : Lecteur → Bool} {corps : σ → Except JException σ}
    {x : σ} (hc : cond (lecteur x) = false) : boucle lecteur cond corps x = .ok x :=
  tours_of_not (s := x) hc _

/-! ## What is made -/

/-- what a component holds, with the colors set so far -/
def ComposantGraphique.Valable (ea : Bool) (nb : ℕ) : ComposantGraphique → Prop
  | brique _ couleur _ _ => couleur < nb
  | bonus nature _ _ => nature < 4 ∧ (-1 ≤ nature ∧ (ea = true → nature ≠ -1))
  | bordHorizontal position direction => direction = cote position
  | bordVertical position direction => direction = cote position

/-- the first `nb` colors are set -/
structure Peinte (couleurs : List (Option (List Char))) (nb : ℕ) : Prop where
  taille : couleurs.length = 128
  borne : nb ≤ 128
  peintes : ∀ i < nb, ∃ c, couleurs[i]? = some (some c)

structure Etat.Sain (ea : Bool) (e : Etat) : Prop where
  modeles : ∀ m, some m ∈ e.modeles → m.Valable ea e.nbCouleurs
  couleurs : Peinte e.couleurs e.nbCouleurs

variable {e e' : Etat} {couleurs couleurs' : List (Option (List Char))} {nb i : ℕ} {c : List Char}

theorem ComposantGraphique.Valable.mono {m : ComposantGraphique} {nb' : ℕ} (h : m.Valable ea nb) (hnb : nb ≤ nb') :
    m.Valable ea nb' := by
  cases m with
  | brique => exact Nat.lt_of_lt_of_le h hnb
  | bonus | bordHorizontal | bordVertical => exact h

theorem Peinte.colorie (h : Peinte couleurs nb) (hc : Niveaux.colorie couleurs i c = .ok couleurs') :
    Peinte couleurs' nb ∧ (i = nb → Peinte couleurs' (nb + 1)) := by
  unfold Niveaux.colorie at hc
  split_ifs at hc with hi
  obtain rfl := Except.ok.inj hc
  rw [h.taille] at hi
  have hset : ∀ k, (∃ c, couleurs[k]? = some (some c)) ∨ k = i →
      ∃ c', (couleurs.set i (some c))[k]? = some (some c') := by
    intro k hk
    by_cases hik : i = k
    · subst hik
      exact ⟨c, List.getElem?_set_self (by rwa [h.taille])⟩
    · rw [List.getElem?_set_ne hik]
      exact hk.resolve_right (Ne.symm hik)
  refine ⟨⟨by rw [List.length_set, h.taille], h.borne, fun k hk => hset k (.inl (h.peintes k hk))⟩, ?_⟩
  rintro rfl
  refine ⟨by rw [List.length_set, h.taille], hi, fun k hk => hset k ?_⟩
  rcases Nat.lt_succ_iff_lt_or_eq.1 hk with hk | hk
  · exact .inl (h.peintes k hk)
  · exact .inr hk

theorem findType_borne (name : List Char) : -1 ≤ findType name ∧ findType name < 4 := by
  unfold findType
  split
  · rename_i i hi
    have hlt := (List.findIdx?_eq_some_iff_getElem.1 hi).1
    simp only [natures, List.length_map, List.length_cons, List.length_nil] at hlt
    omega
  · decide

theorem attributBrique_ok {x y : EnBrique} (h : attributBrique ea i x = .ok y) :
    Lit x.lecteur y.lecteur ∧ ∀ nb, Peinte x.couleurs nb → Peinte y.couleurs nb := by
  obtain ⟨⟨nom, valeur, l⟩, hx, h⟩ := ok_of_bind h
  have hlit := trouveCouple_ok hx
  dsimp only at h
  split_ifs at h
  · split at h
    · obtain rfl := Except.ok.inj h
      exact ⟨hlit, fun _ hp => hp⟩
    · cases h
  · split at h
    · obtain ⟨couleurs', hc, h⟩ := ok_of_bind h
      obtain rfl := Except.ok.inj h
      exact ⟨hlit, fun _ hp => (hp.colorie hc).1⟩
    · cases h
  · obtain ⟨_, -, h⟩ := ok_of_bind h
    obtain rfl := Except.ok.inj h
    exact ⟨hlit, fun _ hp => hp⟩

theorem attributBonus_ok {x y : EnBonus} (h : attributBonus ea x = .ok y) :
    Lit x.lecteur y.lecteur ∧ (-1 ≤ x.nature ∧ x.nature < 4 → -1 ≤ y.nature ∧ y.nature < 4) := by
  obtain ⟨⟨nom, valeur, l⟩, hx, h⟩ := ok_of_bind h
  have hlit := trouveCouple_ok hx
  dsimp only at h
  split_ifs at h
  · split at h
    · split_ifs at h
      obtain rfl := Except.ok.inj h
      exact ⟨hlit, fun _ => findType_borne _⟩
    · cases h
  · obtain ⟨_, -, h⟩ := ok_of_bind h
    obtain rfl := Except.ok.inj h
    exact ⟨hlit, fun hn => hn⟩

theorem lit_of_boucle {l l₁ l₂ : Lecteur} (h : Lit l l₁) (hb : l₂ = l₁ ∨ Lit l₁ l₂) : Lit l l₂ :=
  hb.elim (fun he => he ▸ h) h.trans

/-- what `lisComposant` returns, with the models as they were -/
theorem lisComposant_ok {m : Option ComposantGraphique} (h : lisComposant ea e = .ok (m, e')) :
    Lit e.lecteur e'.lecteur ∧ e'.modeles = e.modeles ∧ (Peinte e.couleurs e.nbCouleurs →
      Peinte e'.couleurs e'.nbCouleurs ∧ e.nbCouleurs ≤ e'.nbCouleurs ∧
        ∀ m', m = some m' → m'.Valable ea e'.nbCouleurs) := by
  obtain ⟨⟨nom, valeur, l⟩, hx, h⟩ := ok_of_bind h
  have hlit := trouveCouple_ok hx
  obtain ⟨_, -, h⟩ := ok_of_bind h
  split at h
  · cases h
  split_ifs at h
  · obtain ⟨couleurs', hc, h⟩ := ok_of_bind h
    obtain ⟨x, hb, h⟩ := ok_of_bind h
    obtain ⟨rfl, rfl⟩ := Prod.mk.inj (Except.ok.inj h)
    refine ⟨lit_of_boucle hlit (boucle_fini (fun _ _ h => (attributBrique_ok h).1) hb).2, rfl, fun hp => ?_⟩
    have hp' := (hp.colorie hc).2 rfl
    refine ⟨?_, Nat.le_succ _, ?_⟩
    · exact tours_inv_of_ok (fun x => Peinte x.couleurs (e.nbCouleurs + 1))
        (fun x y hp _ hy => (attributBrique_ok hy).2 _ hp) hp' hb
    · rintro m' ⟨⟩
      exact Nat.lt_succ_self _
  · obtain ⟨x, hb, h⟩ := ok_of_bind h
    obtain ⟨_, hn, h⟩ := ok_of_bind h
    obtain ⟨rfl, rfl⟩ := Prod.mk.inj (Except.ok.inj h)
    refine ⟨lit_of_boucle hlit (boucle_fini (fun _ _ h => (attributBonus_ok h).1) hb).2, rfl, fun hp => ?_⟩
    refine ⟨hp, le_rfl, ?_⟩
    rintro m' ⟨⟩
    have hborne := tours_inv_of_ok (fun x => -1 ≤ x.nature ∧ x.nature < 4)
      (fun x y hx _ hy => (attributBonus_ok hy).2 hx)
      (by decide : -1 ≤ (-1 : ℤ) ∧ (-1 : ℤ) < 4) hb
    exact ⟨hborne.2, hborne.1, fun hea => by simpa using affirme_ok hn hea⟩
  · obtain ⟨_, -, h⟩ := ok_of_bind h
    obtain ⟨rfl, rfl⟩ := Prod.mk.inj (Except.ok.inj h)
    exact ⟨hlit, rfl, fun hp => ⟨hp, le_rfl, by simp⟩⟩

theorem declare_ok (h : declare ea e = .ok e') :
    Lit e.lecteur e'.lecteur ∧ (e.Sain ea → e'.Sain ea ∧ e.nbCouleurs ≤ e'.nbCouleurs) := by
  obtain ⟨⟨c, l⟩, hx, h⟩ := ok_of_bind h
  obtain ⟨⟨m, e₁⟩, hm, h⟩ := ok_of_bind h
  dsimp only at h
  split_ifs at h with hc
  obtain rfl := Except.ok.inj h
  obtain ⟨hlit, hmod, hval⟩ := lisComposant_ok hm
  refine ⟨(trouveCar_ok hx).trans hlit, fun he => ?_⟩
  obtain ⟨hp, hle, hm'⟩ := hval he.couleurs
  refine ⟨⟨fun m' hmem => ?_, hp⟩, hle⟩
  rcases List.mem_or_eq_of_mem_set hmem with hmem | hmem
  · rw [hmod] at hmem
    exact (he.modeles m' hmem).mono hle
  · exact hm' m' hmem.symm

/-! ## What is placed -/

/-- the components placed so far -/
def Places (ea : Bool) (nb : ℕ) (composants : List (ℤ × ComposantGraphique)) : Prop :=
  ∀ x ∈ composants, x.2.Valable ea nb ∧ (ea = true → 0 ≤ x.1 ∧ x.1 ≤ 9)

theorem Places.ajoute {composants : List (ℤ × ComposantGraphique)} {x : ℤ × ComposantGraphique}
    (h : Places ea nb composants) (hx : x.2.Valable ea nb) (hh : ea = true → 0 ≤ x.1 ∧ x.1 ≤ 9) :
    Places ea nb (composants ++ [x]) := by
  intro y hy
  rcases List.mem_append.1 hy with hy | hy
  · exact h y hy
  · rw [List.mem_singleton.1 hy]
    exact ⟨hx, hh⟩

theorem Places.mono {composants : List (ℤ × ComposantGraphique)} {nb' : ℕ} (h : Places ea nb composants)
    (hnb : nb ≤ nb') : Places ea nb' composants :=
  fun x hx => ⟨(h x hx).1.mono hnb, (h x hx).2⟩

theorem copieVers_ok {m m' : ComposantGraphique} {x y : ℕ} (h : m.copieVers x y = .ok m') (hm : m.Valable ea nb) :
    m'.Valable ea nb := by
  cases m with
  | brique | bonus =>
    obtain rfl := Except.ok.inj h
    exact hm
  | bordHorizontal | bordVertical => cases h

variable {modeles : List (Option ComposantGraphique)} {couche : ℤ} {x y : EnCouche} {car : Char} {ligne : List Char}

theorem lisCar_ok (h : lisCar modeles couche x car = .ok y) :
    y.lecteur = x.lecteur ∧ y.i = x.i ∧ ((∀ m, some m ∈ modeles → m.Valable ea nb) →
      (ea = true → 0 ≤ couche ∧ couche ≤ 9) → Places ea nb x.composants → Places ea nb y.composants) := by
  unfold lisCar at h
  split_ifs at h
  · split at h
    · cases h
    · obtain rfl := Except.ok.inj h
      exact ⟨rfl, rfl, fun _ _ hp => hp⟩
    · obtain rfl := Except.ok.inj h
      exact ⟨rfl, rfl, fun _ hh hp => hp.ajoute rfl hh⟩
  · obtain rfl := Except.ok.inj h
    exact ⟨rfl, rfl, fun _ _ hp => hp⟩
  · obtain rfl := Except.ok.inj h
    exact ⟨rfl, rfl, fun _ _ hp => hp⟩
  · split at h
    · cases h
    · cases h
    · rename_i m hm
      obtain ⟨nouveau, hn, h⟩ := ok_of_bind h
      obtain rfl := Except.ok.inj h
      exact ⟨rfl, rfl, fun hmod hh hp => hp.ajoute (copieVers_ok hn (hmod m (List.mem_of_getElem? hm))) hh⟩

variable (ea nb) in
theorem lisRangee_ok (h : lisRangee modeles couche ligne x = .ok y) :
    y.lecteur = x.lecteur ∧ y.i = x.i ∧ ((∀ m, some m ∈ modeles → m.Valable ea nb) →
      (ea = true → 0 ≤ couche ∧ couche ≤ 9) → Places ea nb x.composants → Places ea nb y.composants) := by
  have hsuite : ∀ (ligne : List Char) (x : EnCouche), ligne.foldlM (lisCar modeles couche) x = .ok y →
      y.lecteur = x.lecteur ∧ y.i = x.i ∧ ((∀ m, some m ∈ modeles → m.Valable ea nb) →
        (ea = true → 0 ≤ couche ∧ couche ≤ 9) → Places ea nb x.composants → Places ea nb y.composants) := by
    intro ligne
    induction ligne with
    | nil =>
      intro x h
      obtain rfl := Except.ok.inj h
      exact ⟨rfl, rfl, fun _ _ hp => hp⟩
    | cons car ligne ih =>
      intro x h
      rw [List.foldlM_cons] at h
      obtain ⟨x', hx, h⟩ := ok_of_bind h
      obtain ⟨hl, hi, hp⟩ := lisCar_ok hx
      obtain ⟨hl', hi', hp'⟩ := ih x' h
      exact ⟨hl'.trans hl, hi'.trans hi, fun hm hh h => hp' hm hh (hp hm hh h)⟩
  unfold lisRangee at h
  split_ifs at h
  · obtain rfl := Except.ok.inj h
    exact ⟨rfl, rfl, fun _ hh hp => hp.ajoute rfl hh⟩
  · obtain ⟨hl, hi, hp⟩ := hsuite ligne _ h
    exact ⟨hl, hi, hp⟩

variable (ea nb) in
theorem rangee_ok (h : rangee modeles couche i x = .ok y) :
    Lit x.lecteur y.lecteur ∧ ((∀ m, some m ∈ modeles → m.Valable ea nb) →
      (ea = true → 0 ≤ couche ∧ couche ≤ 9) → Places ea nb x.composants → Places ea nb y.composants) := by
  unfold rangee at h
  split at h
  · cases h
  rename_i ligne hl
  obtain ⟨x₁, hx, h⟩ := ok_of_bind h
  obtain ⟨l, hs, h⟩ := ok_of_bind h
  obtain rfl := Except.ok.inj h
  obtain ⟨hx₁, -, hp⟩ := lisRangee_ok ea nb hx
  rw [hx₁] at hs
  obtain ⟨hlues, hfin, hreste⟩ := lisLigne_ok hs
  exact ⟨⟨hlues, hfin, by rw [hreste, Lecteur.reste, hl]; simp⟩, hp⟩

variable (ea nb) in
theorem lisCouche_ok {n n' : Niveau} (h : lisCouche modeles couche n l = .ok (n', l')) :
    (l' = l ∨ Lit l l') ∧ ((∀ m, some m ∈ modeles → m.Valable ea nb) →
      (ea = true → 0 ≤ couche ∧ couche ≤ 9) → Places ea nb n.composants → Places ea nb n'.composants) := by
  unfold lisCouche at h
  split at h
  · cases h
  obtain ⟨x, hb, h⟩ := ok_of_bind h
  obtain ⟨rfl, rfl⟩ := Prod.mk.inj (Except.ok.inj h)
  refine ⟨(boucle_fini (fun _ _ h => (rangee_ok ea nb h).1) hb).2, fun hm hh hp => ?_⟩
  exact tours_inv_of_ok (fun x => Places ea nb x.composants) (fun _ _ hp _ hy => (rangee_ok ea nb hy).2 hm hh hp) hp hb

/-! ## What is accepted -/

/-- a level whose colors, bonuses and borders are right -/
structure Niveau.Sain (ea : Bool) (n : Niveau) : Prop where
  couleurs : n.couleurs.length ≤ 128 ∧ ∀ c ∈ n.couleurs, c ≠ none
  composants : Places ea n.couleurs.length n.composants

/-- the same while the level is read -/
structure EnNiveau.Sain (ea : Bool) (x : EnNiveau) : Prop where
  etat : x.e.Sain ea
  composants : Places ea x.e.nbCouleurs x.n.composants

theorem chiffre_borne {c : Char} (h : ('0' ≤ c && c ≤ '9') = true) : 0 ≤ chiffre c ∧ chiffre c ≤ 9 := by
  have hb : 48 ≤ c.toNat ∧ c.toNat ≤ 57 := by
    simpa [Char.le_def, UInt32.le_iff_toNat_le] using h
  have hd : c.isDigit := Char.isDigit_iff_toNat.2 (by simpa using hb)
  rw [chiffre, digit_isDigit hd]
  dsimp only
  omega

theorem couche_ok {x y : EnNiveau} (h : Niveaux.couche ea x = .ok y) :
    Lit x.e.lecteur y.e.lecteur ∧ (x.Sain ea → y.Sain ea) := by
  obtain ⟨⟨c, l⟩, hx, h⟩ := ok_of_bind h
  obtain ⟨_, hc, h⟩ := ok_of_bind h
  obtain ⟨⟨n, l'⟩, hn, h⟩ := ok_of_bind h
  obtain rfl := Except.ok.inj h
  obtain ⟨hlit, hp⟩ := lisCouche_ok ea x.e.nbCouleurs hn
  refine ⟨lit_of_boucle (trouveCar_ok hx) hlit, fun hs => ⟨⟨hs.etat.modeles, hs.etat.couleurs⟩, ?_⟩⟩
  exact hp hs.etat.modeles (fun hea => chiffre_borne (affirme_ok hc hea)) hs.composants

theorem partie_ok {x y : EnNiveau} (h : partie ea x = .ok y) :
    Lit x.e.lecteur y.e.lecteur ∧ (x.Sain ea → y.Sain ea) := by
  obtain ⟨⟨nom, l⟩, hx, h⟩ := ok_of_bind h
  have hlit := trouveNom_ok hx
  dsimp only at h
  split_ifs at h
  · obtain ⟨e, hb, h⟩ := ok_of_bind h
    obtain rfl := Except.ok.inj h
    refine ⟨lit_of_boucle hlit (boucle_fini (fun _ _ h => (declare_ok h).1) hb).2, fun hs => ?_⟩
    have hinv : e.Sain ea ∧ x.e.nbCouleurs ≤ e.nbCouleurs := by
      refine tours_inv_of_ok (fun e => e.Sain ea ∧ x.e.nbCouleurs ≤ e.nbCouleurs) ?_ ?_ hb
      · intro e e' he _ he'
        obtain ⟨hs, hle⟩ := (declare_ok he').2 he.1
        exact ⟨hs, he.2.trans hle⟩
      · exact ⟨⟨hs.etat.modeles, hs.etat.couleurs⟩, le_rfl⟩
    exact ⟨hinv.1, hs.composants.mono hinv.2⟩
  · refine ⟨lit_of_boucle hlit (boucle_fini (fun _ _ h => (couche_ok h).1) h).2, fun hs => ?_⟩
    refine tours_inv_of_ok (EnNiveau.Sain ea) (fun _ _ hs _ hy => (couche_ok hy).2 hs) ?_ h
    exact ⟨⟨hs.etat.modeles, hs.etat.couleurs⟩, hs.composants⟩
  · obtain ⟨_, -, h⟩ := ok_of_bind h
    obtain rfl := Except.ok.inj h
    exact ⟨hlit, fun hs => ⟨⟨hs.etat.modeles, hs.etat.couleurs⟩, hs.composants⟩⟩

/-- **What is accepted is well formed**: no line of the text is empty or only spaces, the colors are at most 128 and all
set, a brick has one of them, a bonus one of the four natures when the assertions are checked, and a border faces its
side. -/
theorem lisNiveau_sain {texte : List Char} {n : Niveau} (h : lisNiveau ea texte = .ok n) :
    (∀ ligne ∈ lignes texte, Pleine ligne) ∧ n.Sain ea := by
  obtain ⟨l, hl, h⟩ := ok_of_bind h
  obtain ⟨x, hb, h⟩ := ok_of_bind h
  obtain rfl := Except.ok.inj h
  obtain ⟨⟨lus, htexte, hlus⟩, hfin, -⟩ := lisLigne_ok hl
  apply And.intro
  · -- at the end the reader has no line left
    obtain ⟨hc, hlit⟩ := boucle_fini (fun _ _ h => (partie_ok h).1) hb
    have hnone : x.e.lecteur.ligne = none := by simpa using hc
    rw [htexte]
    rcases hlit with hlit | hlit
    · rw [hlit] at hnone
      rw [hfin hnone, List.append_nil]
      exact hlus
    · obtain ⟨lus', hs, hlus'⟩ := hlit.lues
      rw [hs, hlit.fin hnone, List.append_nil]
      intro ligne hmem
      exact (List.mem_append.1 hmem).elim (hlus ligne) (hlus' ligne)
  · have hdebut : EnNiveau.Sain ea ⟨⟨[], [], []⟩, ⟨l, List.replicate 256 none, List.replicate 128 none, 0⟩⟩ :=
      ⟨⟨fun m hm => absurd (List.eq_of_mem_replicate hm) (by simp), rfl, Nat.zero_le _,
        fun i hi => absurd hi (Nat.not_lt_zero i)⟩, fun x hx => absurd hx List.not_mem_nil⟩
    have hs := tours_inv_of_ok (EnNiveau.Sain ea) (fun _ _ hs _ hy => (partie_ok hy).2 hs) hdebut hb
    have hp := hs.etat.couleurs
    have hlen : (x.e.couleurs.take x.e.nbCouleurs).length = x.e.nbCouleurs := by
      rw [List.length_take, hp.taille]
      exact min_eq_left hp.borne
    refine ⟨⟨by simpa [hlen] using hp.borne, ?_⟩, by simpa [hlen] using hs.composants⟩
    intro c hc
    obtain ⟨i, hi⟩ := List.mem_iff_getElem?.1 hc
    have hlt : i < x.e.nbCouleurs := by
      rw [← hlen]
      exact (List.getElem?_eq_some_iff.1 hi).1
    obtain ⟨c', hc'⟩ := hp.peintes i hlt
    rw [List.getElem?_take_of_lt hlt, hc', Option.some.injEq] at hi
    simp [← hi]

/-- a bonus between two walls -/
def unBonus : List Char := "Composants:\n 3:\n  type: bonus\n  nature: Laser\nCouches:\n 0: |\n  #3#\n".toList

theorem lisNiveau_sain_bonus : (∀ ligne ∈ lignes unBonus, Pleine ligne) ∧ Niveau.Sain true
    ⟨[(0, .bordVertical 0 (-1)), (0, .bonus 3 0 0), (0, .bordVertical 1 1)], [(1, 1)], []⟩ :=
  lisNiveau_sain (by decide +kernel)

end Semestre6.Niveaux
