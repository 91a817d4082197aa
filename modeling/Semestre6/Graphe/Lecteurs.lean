/-
The readers of Graphe.java and GraphePondere.java (RO): a header with the number of vertices, then a line for each edge.

- `boucle_eq`: the loop goes through the e lines in order;
- `Lecteur.conforme_iff`: a reader conforms to its documentation exactly when the first thing that is wrong in the text,
  if there is one, is of a kind that it reports;
- `read_iff`: this for the two readers.
Witness: `entete_courte`, a header of two fields.
-/
import Semestre6.Graphe.NonOriente
import Semestre6.Texte.Lecture

namespace Semestre6.Lecteurs

open Boucle Lecture Multigraphe NonOriente

abbrev Ligne := List Char
abbrev Champ := List Char

/-! ## Graphs with weights -/

section Pondere

variable {P : Type}

structure Arete (P : Type) where
  v : ℕ
  w : ℕ
  poids : P

/-- the constructor, for a test of the weights that are not a number -/
def Arete.nouveau (isNaN : P → Bool) (v w : ℤ) (poids : P) : Except JException (Arete P) :=
  if v < 0 then .error (.indexOutOfBounds "Le nom d'un sommet doit etre un entier non negatif")
  else if w < 0 then .error (.indexOutOfBounds "Le nom d'un sommet doit etre un entier non negatif")
  else if isNaN poids then .error (.illegalArgument "le poids n'est pas un nombre")
  else .ok ⟨v.toNat, w.toNat, poids⟩

structure GraphePondere (P : Type) where
  n : ℕ
  m : ℕ
  /-- the edges incident to each vertex below `n` -/
  adjacence : ℕ → List (Arete P)

namespace GraphePondere

def nouveau (n : ℤ) : Except JException (GraphePondere P) :=
  if n < 1 then .error (.illegalArgument "le nombre de sommets doit etre strictement positif")
  else .ok ⟨n.toNat, 0, fun _ => []⟩

def verifieSommet (g : GraphePondere P) (v : ℤ) : Except JException Unit :=
  if v ≥ g.n ∨ v < 0 then .error (.illegalArgument ("Le sommet " ++ toString v ++ " n'est pas valide")) else .ok ()

/-- `unSommet()` is `v`, `autreSommet(unSommet())` is `w` -/
def ajouteArete (g : GraphePondere P) (e : Arete P) : Except JException (GraphePondere P) := do
  g.verifieSommet e.v
  g.verifieSommet e.w
  let adjacence := Function.update g.adjacence e.v (g.adjacence e.v ++ [e])
  let adjacence := Function.update adjacence e.w (adjacence e.w ++ [e])
  return { g with adjacence := adjacence, m := g.m + 1 }

end GraphePondere

end Pondere

/-! ## The readers -/

/-- `items[k]` -/
def champ (items : List Champ) (k : ℕ) : Except JException Champ :=
  match items[k]? with
  | some s => .ok s
  | none => .error .arrayIndexOutOfBounds

def toInt (s : Champ) : Except JException ℤ :=
  match parseInt s with
  | some v => .ok v
  | none => .error (.grapheReader ("'" ++ String.ofList s ++ "' n'est pas un entier"))

theorem champ_some {items : List Champ} {k : ℕ} {s : Champ} (h : items[k]? = some s) : champ items k = .ok s := by
  rw [champ, h]

theorem champ_none {items : List Champ} {k : ℕ} (h : items[k]? = none) :
    champ items k = .error .arrayIndexOutOfBounds := by
  rw [champ, h]

theorem toInt_some {s : Champ} {v : ℤ} (h : parseInt s = some v) : toInt s = .ok v := by
  rw [toInt, h]

theorem toInt_none {s : Champ} (h : parseInt s = none) :
    toInt s = .error (.grapheReader ("'" ++ String.ofList s ++ "' n'est pas un entier")) := by
  rw [toInt, h]

def commentaire (line : Ligne) : Bool := line.head? = some 'c'

/-- the fields of the next line that is not a comment, and the lines left; `none` is null -/
def readNextLine (reader : List Ligne) : Option (List Champ × List Ligne) :=
  match reader.dropWhile commentaire with
  | [] => none
  | line :: reader => some (split line, reader)

/-- what the two readers do differently: the letter of the header, its message, the constructor and an e line -/
structure Lecteur (G : Type) where
  lettre : Champ
  manque : String
  nouveau : ℤ → Except JException G
  ligneE : G → List Champ → Except JException G

def estE (items : List Champ) : Bool := items[0]? = some ['e']

theorem length_readNextLine {reader suite : List Ligne} {items : List Champ}
    (h : readNextLine reader = some (items, suite)) : suite.length < reader.length := by
  unfold readNextLine at h
  have hle := (List.dropWhile_sublist commentaire (l := reader)).length_le
  split at h
  · cases h
  · rename_i line reader' heq
    obtain ⟨-, rfl⟩ := Prod.mk.inj (Option.some.inj h)
    rw [heq] at hle
    exact hle

namespace Lecteur

variable {G : Type}

/-- `while (items != null)` -/
def boucle (r : Lecteur G) (g : G) (reader : List Ligne) : Except JException G :=
  match _h : readNextLine reader with
  | none => .ok g
  | some (items, suite) => do
    let g ← if estE items then r.ligneE g items else .ok g
    boucle r g suite
termination_by reader.length
decreasing_by exact length_readNextLine _h

/-- the graph that the header asks for -/
def entete (r : Lecteur G) (items : List Champ) : Except JException G :=
  if items.length < 2 ∨ items[0]? ≠ some r.lettre then .error (.grapheReader r.manque)
  else do
    let s ← champ items 2
    let n ← toInt s
    r.nouveau n

def read (r : Lecteur G) (texte : List Char) : Except JException G :=
  match readNextLine (lignes texte) with
  | none => .error (.grapheReader r.manque)
  | some (items, reader) => do
    let g ← r.entete items
    r.boucle g reader

end Lecteur

/-- the first two arguments of an edge -/
def extremites (items : List Champ) : Except JException (ℤ × ℤ) := do
  let s ← champ items 1
  let i ← toInt s
  let s ← champ items 2
  let j ← toInt s
  return (i, j)

/-- `Graphe.Reader` -/
def Reader : Lecteur Graphe where
  lettre := ['p']
  manque := "il manque la ligne p"
  nouveau := Graphe.nouveau
  ligneE g items := do
    let p ← extremites items
    g.ajouteArete p.1 p.2

def toDouble {P : Type} (parseDouble : Champ → Option P) (s : Champ) : Except JException P :=
  match parseDouble s with
  | some poids => .ok poids
  | none => .error .numberFormat

/-- the third argument -/
def troisieme {P : Type} (parseDouble : Champ → Option P) (items : List Champ) : Except JException P := do
  let s ← champ items 3
  toDouble parseDouble s

/-- `GraphePondere.GPReader`, for the words that `Double.parseDouble` accepts and the weights they are -/
def GPReader {P : Type} (parseDouble : Champ → Option P) (isNaN : P → Bool) : Lecteur (GraphePondere P) where
  lettre := ['w']
  manque := "il manque la ligne w"
  nouveau := GraphePondere.nouveau
  ligneE g items := do
    let p ← extremites items
    let poids ← troisieme parseDouble items
    let e ← Arete.nouveau isNaN p.1 p.2 poids
    g.ajouteArete e

/-! ## The lines of a text -/

/-- the fields of the lines that are not comments -/
def lus (reader : List Ligne) : List (List Champ) := (reader.filter fun line => !commentaire line).map split

theorem lus_of_none {reader : List Ligne} (h : readNextLine reader = none) : lus reader = [] := by
  induction reader with
  | nil => rfl
  | cons line reader ih =>
    unfold readNextLine at h ih
    by_cases hc : commentaire line
    · rw [List.dropWhile_cons_of_pos hc] at h
      rw [lus, List.filter_cons_of_neg (by simpa using hc)]
      exact ih h
    · rw [List.dropWhile_cons_of_neg hc] at h
      cases h

theorem lus_of_some {reader suite : List Ligne} {items : List Champ} (h : readNextLine reader = some (items, suite)) :
    lus reader = items :: lus suite := by
  induction reader with
  | nil => cases h
  | cons line reader ih =>
    unfold readNextLine at h ih
    by_cases hc : commentaire line
    · rw [List.dropWhile_cons_of_pos hc] at h
      rw [lus, List.filter_cons_of_neg (by simpa using hc)]
      exact ih h
    · rw [List.dropWhile_cons_of_neg hc] at h
      obtain ⟨rfl, rfl⟩ := Prod.mk.inj (Option.some.inj h)
      rw [lus, List.filter_cons_of_pos (by simpa using hc)]
      rfl

/-- the loop goes through the e lines in order -/
theorem boucle_eq {G : Type} (r : Lecteur G) (g : G) (reader : List Ligne) :
    r.boucle g reader = ((lus reader).filter estE).foldlM r.ligneE g := by
  induction hn : reader.length using Nat.strong_induction_on generalizing g reader with
  | h n ih =>
    rw [Lecteur.boucle]
    split
    · rename_i hnone
      rw [lus_of_none hnone]
      rfl
    · rename_i items suite hsome
      have hlt := length_readNextLine hsome
      rw [lus_of_some hsome]
      by_cases he : estE items = true
      · rw [if_pos he, List.filter_cons_of_pos he, List.foldlM_cons]
        cases hg : r.ligneE g items with
        | error e => rfl
        | ok g' => exact ih _ (hn ▸ hlt) g' suite rfl
      · rw [if_neg he, List.filter_cons_of_neg he]
        exact ih _ (hn ▸ hlt) g suite rfl

/-! ## What a text describes -/

/-- the edge that an e line of a graph of `n` vertices describes, and the graph of a list of edges -/
structure Description (G : Type) where
  Arete : Type
  arete : ℤ → List Champ → Option Arete
  graphe : ℤ → List Arete → G

/-- the exception that the readers document -/
def EstLecture : JException → Prop
  | .grapheReader _ => True
  | _ => False

/-- an end of the edge is there and is not an int -/
def Illisible (items : List Champ) : Prop := ∃ s ∈ (items.drop 1).take 2, parseInt s = none

/-- the header misses, has a single field or another letter, or its number of vertices is not an int -/
def EnteteSignalee (lettre : Champ) (items : List Champ) : Prop :=
  items.length < 2 ∨ items[0]? ≠ some lettre ∨ ∃ s, items[2]? = some s ∧ parseInt s = none

/-- the first thing that is wrong, in the header or in an e line, is of a kind that the readers report -/
def Signale {G : Type} (lettre : Champ) (d : Description G) (texte : List Char) : Prop :=
  ∀ items suite, lus (lignes texte) = items :: suite → EnteteSignalee lettre items ∨
    ∃ n, items[2]?.bind parseInt = some n ∧ 1 ≤ n ∧
      ∀ x, (suite.filter estE).find? (fun x => (d.arete n x).isNone) = some x → Illisible x

namespace Lecteur

variable {G : Type} {r : Lecteur G} {d : Description G} {n : ℤ} {items suite : List Champ}

/-- the graph of the edges of the e lines, or the exception of the documentation -/
def Conforme (r : Lecteur G) (d : Description G) (texte : List Char) : Prop :=
  (∃ e, r.read texte = .error e ∧ EstLecture e) ∨
    ∃ items suite n L, lus (lignes texte) = items :: suite ∧ items[2]?.bind parseInt = some n ∧
      (suite.filter estE).mapM (d.arete n) = some L ∧ r.read texte = .ok (d.graphe n L)

/-- a reader that adds the edge that an e line describes, and throws when it describes none -/
structure Suit (r : Lecteur G) (d : Description G) : Prop where
  nouveau_ok : ∀ n, 1 ≤ n → r.nouveau n = .ok (d.graphe n [])
  nouveau_error : ∀ n, n < 1 → ∃ e, r.nouveau n = .error e ∧ ¬ EstLecture e
  ligneE_ok : ∀ n L items a, 1 ≤ n → d.arete n items = some a →
    r.ligneE (d.graphe n L) items = .ok (d.graphe n (L ++ [a]))
  ligneE_error : ∀ n L items, 1 ≤ n → d.arete n items = none →
    ∃ e, r.ligneE (d.graphe n L) items = .error e ∧ (EstLecture e ↔ Illisible items)

theorem read_of_none {texte : List Char} (h : lus (lignes texte) = []) :
    r.read texte = .error (.grapheReader r.manque) := by
  unfold read
  cases hr : readNextLine (lignes texte) with
  | none => rfl
  | some p =>
    rw [lus_of_some hr] at h
    cases h

theorem read_of_cons {texte : List Char} {items : List Champ} {suite : List (List Champ)}
    (h : lus (lignes texte) = items :: suite) :
    r.read texte = (r.entete items).bind ((suite.filter estE).foldlM r.ligneE) := by
  unfold read
  cases hr : readNextLine (lignes texte) with
  | none =>
    rw [lus_of_none hr] at h
    cases h
  | some p =>
    obtain ⟨items', reader⟩ := p
    rw [lus_of_some hr] at h
    obtain ⟨rfl, rfl⟩ := List.cons.inj h
    simp only [boucle_eq]
    rfl

/-- the header gives the graph, or an exception that is reported or not -/
theorem entete_cases (hr : r.Suit d) (items : List Champ) :
    (∃ n, r.entete items = .ok (d.graphe n []) ∧ ¬ EnteteSignalee r.lettre items ∧
      items[2]?.bind parseInt = some n ∧ 1 ≤ n) ∨
    ∃ e, r.entete items = .error e ∧ (EstLecture e ↔ EnteteSignalee r.lettre items) ∧
      (¬ EnteteSignalee r.lettre items → ∀ n, items[2]?.bind parseInt = some n → n < 1) := by
  unfold entete EnteteSignalee
  by_cases hentete : items.length < 2 ∨ items[0]? ≠ some r.lettre
  · refine .inr ⟨_, if_pos hentete, iff_of_true trivial (hentete.imp id .inl), ?_⟩
    intro h
    exact absurd (hentete.imp id .inl) h
  rw [if_neg hentete, ← or_assoc, or_iff_right hentete]
  cases hs : items[2]? with
  | none =>
    rw [champ_none hs]
    exact .inr ⟨_, rfl, by simp [EstLecture], by simp⟩
  | some s =>
    simp only [champ_some hs, Option.bind_some, Option.some.injEq, exists_eq_left']
    cases hv : parseInt s with
    | none =>
      refine .inr ⟨.grapheReader ("'" ++ String.ofList s ++ "' n'est pas un entier"), ?_, by simp [EstLecture], by simp⟩
      exact congrArg (· >>= r.nouveau) (toInt_none hv)
    | some n =>
      have hentete : (Except.ok s >>= fun s => toInt s >>= fun n => r.nouveau n) = r.nouveau n :=
        congrArg (· >>= r.nouveau) (toInt_some hv)
      rw [hentete]
      by_cases hn : 1 ≤ n
      · exact .inl ⟨n, hr.nouveau_ok n hn, by simp, rfl, hn⟩
      · obtain ⟨e, he, hlecture⟩ := hr.nouveau_error n (by omega)
        refine .inr ⟨e, he, iff_of_false hlecture (by simp), ?_⟩
        rintro - _ ⟨⟩
        omega

theorem conforme_of_error {texte : List Char} {e : JException} (h : r.read texte = .error e) :
    r.Conforme d texte ↔ EstLecture e := by
  unfold Conforme
  rw [h]
  apply Iff.intro
  · rintro (⟨e', he, hlecture⟩ | ⟨_, _, _, _, _, _, _, hok⟩)
    · rwa [Except.error.inj he]
    · cases hok
  · exact fun he => .inl ⟨e, rfl, he⟩

theorem signale_of_cons {lettre : Champ} {texte : List Char} {items : List Champ} {suite : List (List Champ)}
    (h : lus (lignes texte) = items :: suite) : Signale lettre d texte ↔ EnteteSignalee lettre items ∨
      ∃ n, items[2]?.bind parseInt = some n ∧ 1 ≤ n ∧
        ∀ x, (suite.filter estE).find? (fun x => (d.arete n x).isNone) = some x → Illisible x := by
  apply Iff.intro
  · exact fun hs => hs items suite h
  · intro hs items' suite' h'
    obtain ⟨rfl, rfl⟩ := List.cons.inj (h.symm.trans h')
    exact hs

/-- the e lines, once the graph is there -/
theorem foldlM_ligneE (hr : r.Suit d) (hn : 1 ≤ n) (l : List (List Champ)) :
    (∃ L, l.mapM (d.arete n) = some L ∧ l.foldlM r.ligneE (d.graphe n []) = .ok (d.graphe n L) ∧
      ∀ x, l.find? (fun x => (d.arete n x).isNone) = some x → Illisible x) ∨
    ∃ e, l.foldlM r.ligneE (d.graphe n []) = .error e ∧
      (EstLecture e ↔ ∀ x, l.find? (fun x => (d.arete n x).isNone) = some x → Illisible x) := by
  have hok : ∀ L x a, d.arete n x = some a → r.ligneE (d.graphe n L) x = .ok (d.graphe n (L ++ [a])) :=
    fun L x a => hr.ligneE_ok n L x a hn
  cases hfind : l.find? fun x => (d.arete n x).isNone with
  | none =>
    obtain ⟨L, hL⟩ := exists_mapM_of_find? hfind
    refine .inl ⟨L, hL, foldlM_decrit hok hL, ?_⟩
    intro x hx
    cases hx
  | some x =>
    obtain ⟨hx, L, hfold⟩ := foldlM_decrit_error (L := []) hok hfind
    obtain ⟨e, he, hlecture⟩ := hr.ligneE_error n L x hn hx
    exact .inr ⟨e, hfold e he, by simpa using hlecture⟩

/-- **When a reader conforms to its documentation**: exactly when it reports the first thing that is wrong. -/
theorem conforme_iff (hr : r.Suit d) (texte : List Char) : r.Conforme d texte ↔ Signale r.lettre d texte := by
  cases hlus : lus (lignes texte) with
  | nil =>
    refine iff_of_true (.inl ⟨_, read_of_none hlus, trivial⟩) ?_
    intro items suite h
    rw [hlus] at h
    cases h
  | cons items suite =>
    have hread := read_of_cons (r := r) hlus
    rw [signale_of_cons hlus]
    rcases entete_cases hr items with ⟨n, hentete, hs, hn, hpos⟩ | ⟨e, hentete, hlecture, hn⟩
    · rw [hentete] at hread
      rw [or_iff_right hs]
      simp only [hn, Option.some.injEq, exists_eq_left', hpos, true_and]
      rcases foldlM_ligneE hr hpos (suite.filter estE) with ⟨L, hL, hfold, hfind⟩ | ⟨e, hfold, hlecture⟩
      · exact iff_of_true (.inr ⟨items, suite, n, L, hlus, hn, hL, hread.trans hfold⟩) hfind
      · rw [conforme_of_error (hread.trans hfold)]
        exact hlecture
    · rw [hentete] at hread
      rw [conforme_of_error hread, hlecture]
      refine ⟨.inl, ?_⟩
      rintro (h | ⟨n, hs, hpos, -⟩)
      · exact h
      · by_contra hnot
        have := hn hnot n hs
        omega

end Lecteur

/-! ## The two readers -/

/-- the vertex in a field -/
def sommet (n : ℤ) (items : List Champ) (k : ℕ) : Option ℕ :=
  (items[k]?.bind parseInt).bind fun v => if 0 ≤ v ∧ v < n then some v.toNat else none

def descriptionGraphe : Description Graphe where
  Arete := ℕ × ℕ
  arete n items := (sommet n items 1).bind fun i => (sommet n items 2).map fun j => (i, j)
  graphe n L := ⟨n.toNat, Graphe.voisinsDe L⟩

section

variable {P : Type} (parseDouble : Champ → Option P) (isNaN : P → Bool)

/-- where the list of vertex `i` holds the edge, once for each end -/
def Arete.places (i : ℕ) (e : Arete P) : List (Arete P) := (if e.v = i then [e] else []) ++ if e.w = i then [e] else []

def poidsLu (items : List Champ) : Option P :=
  (items[3]?.bind parseDouble).bind fun poids => if isNaN poids then none else some poids

def descriptionPondere : Description (GraphePondere P) where
  Arete := Arete P
  arete n items :=
    (sommet n items 1).bind fun v => (sommet n items 2).bind fun w =>
      (poidsLu parseDouble isNaN items).map fun p => ⟨v, w, p⟩
  graphe n L := ⟨n.toNat, L.length, fun i => L.flatMap (Arete.places i)⟩

end

section Arguments

variable {items : List Champ} {i j n : ℤ} {k v : ℕ}

theorem illisible_iff : Illisible items ↔
    (∃ s, items[1]? = some s ∧ parseInt s = none) ∨ ∃ s, items[2]? = some s ∧ parseInt s = none := by
  have hends : (items.drop 1).take 2 = items[1]?.toList ++ items[2]?.toList := by
    match items with
    | [] | [_] | [_, _] | _ :: _ :: _ :: _ => rfl
  rw [Illisible, hends]
  simp [or_and_right, exists_or]

theorem extremites_ok (hi : items[1]?.bind parseInt = some i) (hj : items[2]?.bind parseInt = some j) :
    extremites items = .ok (i, j) := by
  obtain ⟨s, hs, hi⟩ := Option.bind_eq_some_iff.1 hi
  obtain ⟨t, ht, hj⟩ := Option.bind_eq_some_iff.1 hj
  simp [extremites, champ_some hs, toInt_some hi, champ_some ht, toInt_some hj, bind, Except.bind, pure, Except.pure]

/-- an exception is reported when one of the two numbers is there and is not an int -/
theorem extremites_cases (items : List Champ) :
    (∃ p, extremites items = .ok p ∧ items[1]?.bind parseInt = some p.1 ∧ items[2]?.bind parseInt = some p.2 ∧
      ¬ Illisible items) ∨
    ∃ e, extremites items = .error e ∧ (EstLecture e ↔ Illisible items) := by
  rw [illisible_iff]
  cases hs : items[1]? with
  | none =>
    have ht : items[2]? = none := List.getElem?_eq_none (by have := List.getElem?_eq_none_iff.1 hs; omega)
    refine .inr ⟨.arrayIndexOutOfBounds, ?_, by simp [EstLecture, ht]⟩
    simp [extremites, champ_none hs, bind, Except.bind]
  | some s =>
    cases hi : parseInt s with
    | none =>
      refine .inr ⟨.grapheReader ("'" ++ String.ofList s ++ "' n'est pas un entier"), ?_, ?_⟩
      · simp [extremites, champ_some hs, toInt_none hi, bind, Except.bind]
      · simp [EstLecture, hi]
    | some i =>
      cases ht : items[2]? with
      | none =>
        refine .inr ⟨.arrayIndexOutOfBounds, ?_, by simp [EstLecture, hi]⟩
        simp [extremites, champ_some hs, toInt_some hi, champ_none ht, bind, Except.bind]
      | some t =>
        cases hj : parseInt t with
        | none =>
          refine .inr ⟨.grapheReader ("'" ++ String.ofList t ++ "' n'est pas un entier"), ?_, by simp [EstLecture, hj]⟩
          simp [extremites, champ_some hs, toInt_some hi, champ_some ht, toInt_none hj, bind, Except.bind]
        | some j =>
          refine .inl ⟨(i, j), extremites_ok (by simp [hs, hi]) (by simp [ht, hj]), by simp [hi], by simp [hj], ?_⟩
          simp [hi, hj]

theorem extremites_of_ok {p : ℤ × ℤ} (h : extremites items = .ok p) :
    items[1]?.bind parseInt = some p.1 ∧ items[2]?.bind parseInt = some p.2 := by
  rcases extremites_cases items with ⟨q, hq, h₁, h₂, -⟩ | ⟨e, he, -⟩
  · obtain rfl := Except.ok.inj (hq.symm.trans h)
    exact ⟨h₁, h₂⟩
  · rw [he] at h
    cases h

theorem sommet_some : sommet n items k = some v ↔
    ∃ a, items[k]?.bind parseInt = some a ∧ (0 ≤ a ∧ a < n) ∧ a.toNat = v := by
  rw [sommet, Option.bind_eq_some_iff]
  refine exists_congr fun a => and_congr_right fun _ => ?_
  split_ifs with h
  · simp [h]
  · simp [h]

/-- a computation that throws nothing that the readers report -/
def Muet {α : Type} (x : Except JException α) : Prop := ∀ e, x = .error e → ¬ EstLecture e

theorem Muet.bind {α β : Type} {x : Except JException α} {f : α → Except JException β} (hx : Muet x)
    (hf : ∀ a, Muet (f a)) : Muet (x >>= f) := by
  intro e he
  cases x with
  | error e' => exact hx e (congrArg _ (Except.error.inj he))
  | ok a => exact hf a e he

theorem muet_ok {α : Type} (a : α) : Muet (.ok a) := by
  intro e he
  cases he

theorem muet_error {α : Type} {e : JException} (h : ¬ EstLecture e) : Muet (.error e : Except JException α) := by
  intro e' he
  rwa [← Except.error.inj he]

theorem muet_ite {α : Type} {c : Prop} [Decidable c] {x y : Except JException α} (hx : Muet x) (hy : Muet y) :
    Muet (if c then x else y) := by
  split_ifs
  · exact hx
  · exact hy

/-- the exception of an e line -/
theorem estLecture_iff {G : Type} {suite : ℤ × ℤ → Except JException G} (hsuite : ∀ p, Muet (suite p)) {e : JException}
    (h : (extremites items >>= suite) = .error e) : EstLecture e ↔ Illisible items := by
  rcases extremites_cases items with ⟨p, hp, -, -, hnot⟩ | ⟨e', he', hlecture⟩
  · rw [hp] at h
    exact iff_of_false (hsuite p e h) hnot
  · rw [he'] at h
    rwa [← Except.error.inj h]

end Arguments

theorem muet_ajouteArete (g : Graphe) (a b : ℤ) : Muet (g.ajouteArete a b) := by
  have hsommet : ∀ v, Muet (g.verifieSommet v) := fun v => muet_ite (muet_error id) (muet_ok ())
  exact (hsommet a).bind fun _ => (hsommet b).bind fun _ => muet_ok _

theorem reader_suit : Reader.Suit descriptionGraphe where
  nouveau_ok n hn := by
    change Graphe.nouveau n = _
    rw [Graphe.nouveau, if_neg (by omega)]
    rfl
  nouveau_error n hn := ⟨_, if_pos hn, id⟩
  ligneE_ok n L items e hn he := by
    obtain ⟨v, hv, he⟩ := Option.bind_eq_some_iff.1 he
    obtain ⟨w, hw, rfl⟩ := Option.map_eq_some_iff.1 he
    obtain ⟨a, ha, hav, rfl⟩ := sommet_some.1 hv
    obtain ⟨b, hb, hbw, rfl⟩ := sommet_some.1 hw
    change (extremites items >>= fun p => Graphe.ajouteArete _ p.1 p.2) = _
    rw [extremites_ok ha hb]
    refine Graphe.ajouteArete_iff.2 ⟨?_, ?_⟩
    · simp only [descriptionGraphe]
      omega
    · refine congrArg (Graphe.mk n.toNat) (funext fun v => ?_)
      exact (List.flatMap_append ..).trans (congrArg _ (List.flatMap_singleton ..))
  ligneE_error n L items hn he := by
    cases h : Reader.ligneE (descriptionGraphe.graphe n L) items with
    | ok g =>
      -- the line describes an edge
      obtain ⟨p, hp, hg⟩ := ok_of_bind h
      obtain ⟨ha, hb⟩ := extremites_of_ok hp
      obtain ⟨⟨hi, hj⟩, -⟩ := Graphe.ajouteArete_iff.1 hg
      have hcast : ((n.toNat : ℕ) : ℤ) = n := Int.toNat_of_nonneg (by omega)
      simp only [descriptionGraphe, hcast] at hi hj
      simp [descriptionGraphe, sommet_some.2 ⟨p.1, ha, hi, rfl⟩, sommet_some.2 ⟨p.2, hb, hj, rfl⟩] at he
    | error e => exact ⟨e, rfl, estLecture_iff (fun p => muet_ajouteArete _ p.1 p.2) h⟩

section

variable {P : Type} {g g' : GraphePondere P} {e : Arete P} (parseDouble : Champ → Option P) (isNaN : P → Bool)

theorem GraphePondere.verifieSommet_ok {v : ℕ} : g.verifieSommet v = .ok () ↔ v < g.n := by
  unfold verifieSommet
  split_ifs with h
  · simp only [false_iff]
    omega
  · simp only [true_iff]
    omega

theorem GraphePondere.ajouteArete_iff : g.ajouteArete e = .ok g' ↔
    (e.v < g.n ∧ e.w < g.n) ∧ g' = ⟨g.n, g.m + 1, fun i => g.adjacence i ++ Arete.places i e⟩ := by
  have hadj : Function.update (Function.update g.adjacence e.v (g.adjacence e.v ++ [e])) e.w
      (Function.update g.adjacence e.v (g.adjacence e.v ++ [e]) e.w ++ [e]) =
      fun i => g.adjacence i ++ Arete.places i e := update_deux _ _ _ _ _
  apply Iff.intro
  · intro h
    obtain ⟨_, hv, h⟩ := ok_of_bind h
    obtain ⟨_, hw, h⟩ := ok_of_bind h
    obtain rfl := Except.ok.inj h
    exact ⟨⟨verifieSommet_ok.1 hv, verifieSommet_ok.1 hw⟩, by rw [hadj]⟩
  · rintro ⟨⟨hv, hw⟩, rfl⟩
    rw [ajouteArete, verifieSommet_ok.2 hv, verifieSommet_ok.2 hw, ← hadj]
    rfl

theorem Arete.nouveau_iff {v w : ℤ} {poids : P} : Arete.nouveau isNaN v w poids = .ok e ↔
    0 ≤ v ∧ 0 ≤ w ∧ isNaN poids = false ∧ e = ⟨v.toNat, w.toNat, poids⟩ := by
  unfold nouveau
  split_ifs with hv hw hN
  · simp [hv]
  · simp [hw]
  · simp [hN]
  · simp [Int.le_of_not_gt hv, Int.le_of_not_gt hw, hN, eq_comm]

variable {parseDouble isNaN}

theorem troisieme_ok {items : List Champ} {p : P} :
    troisieme parseDouble items = .ok p ↔ items[3]?.bind parseDouble = some p := by
  unfold troisieme
  cases hs : items[3]? with
  | none => simp [champ_none hs, bind, Except.bind]
  | some s =>
    rw [champ_some hs]
    change toDouble parseDouble s = _ ↔ parseDouble s = _
    unfold toDouble
    cases parseDouble s <;> simp

theorem muet_troisieme (items : List Champ) : Muet (troisieme parseDouble items) := by
  refine Muet.bind ?_ ?_
  · unfold champ
    split
    · exact muet_ok _
    · exact muet_error id
  · intro s
    unfold toDouble
    split
    · exact muet_ok _
    · exact muet_error id

theorem muet_nouveau (v w : ℤ) (poids : P) : Muet (Arete.nouveau isNaN v w poids) := by
  exact muet_ite (muet_error id) (muet_ite (muet_error id) (muet_ite (muet_error id) (muet_ok _)))

theorem muet_ajouteArete_pondere (g : GraphePondere P) (e : Arete P) : Muet (g.ajouteArete e) := by
  have hsommet : ∀ v, Muet (g.verifieSommet v) := fun v => muet_ite (muet_error id) (muet_ok ())
  exact (hsommet _).bind fun _ => (hsommet _).bind fun _ => muet_ok _

theorem gpReader_suit : (GPReader parseDouble isNaN).Suit (descriptionPondere parseDouble isNaN) where
  nouveau_ok n hn := by
    change GraphePondere.nouveau n = _
    rw [GraphePondere.nouveau, if_neg (by omega)]
    rfl
  nouveau_error n hn := ⟨_, if_pos hn, id⟩
  ligneE_ok n L items e hn he := by
    obtain ⟨v, hv, he⟩ := Option.bind_eq_some_iff.1 he
    obtain ⟨w, hw, he⟩ := Option.bind_eq_some_iff.1 he
    obtain ⟨p, hp, rfl⟩ := Option.map_eq_some_iff.1 he
    obtain ⟨a, ha, hav, rfl⟩ := sommet_some.1 hv
    obtain ⟨b, hb, hbw, rfl⟩ := sommet_some.1 hw
    obtain ⟨q, hq, hN⟩ := Option.bind_eq_some_iff.1 hp
    split_ifs at hN with hNaN
    obtain rfl := Option.some.inj hN
    change (extremites items >>= fun p => troisieme parseDouble items >>= fun poids =>
      Arete.nouveau isNaN p.1 p.2 poids >>= GraphePondere.ajouteArete _) = _
    rw [extremites_ok ha hb]
    change (troisieme parseDouble items >>= fun poids =>
      Arete.nouveau isNaN a b poids >>= GraphePondere.ajouteArete _) = _
    rw [troisieme_ok.2 hq]
    change (Arete.nouveau isNaN a b q >>= GraphePondere.ajouteArete _) = _
    rw [(Arete.nouveau_iff isNaN).2 ⟨hav.1, hbw.1, by simpa using hNaN, rfl⟩]
    refine GraphePondere.ajouteArete_iff.2 ⟨?_, ?_⟩
    · simp only [descriptionPondere]
      omega
    · refine congrArg₂ (GraphePondere.mk n.toNat) (List.length_append ..) (funext fun i => ?_)
      exact (List.flatMap_append ..).trans (congrArg _ (List.flatMap_singleton ..))
  ligneE_error n L items hn he := by
    cases h : (GPReader parseDouble isNaN).ligneE ((descriptionPondere parseDouble isNaN).graphe n L) items with
    | ok g =>
      -- the line describes an edge
      obtain ⟨p, hp, h⟩ := ok_of_bind h
      obtain ⟨q, hq, h⟩ := ok_of_bind h
      obtain ⟨e, hnouveau, hg⟩ := ok_of_bind h
      obtain ⟨ha, hb⟩ := extremites_of_ok hp
      obtain ⟨hv, hw, hNaN, rfl⟩ := (Arete.nouveau_iff isNaN).1 hnouveau
      obtain ⟨⟨hi, hj⟩, -⟩ := GraphePondere.ajouteArete_iff.1 hg
      simp only [descriptionPondere] at hi hj
      have hpoids : poidsLu parseDouble isNaN items = some q := by
        rw [poidsLu, troisieme_ok.1 hq, Option.bind_some, if_neg (by simp [hNaN])]
      have h₁ : sommet n items 1 = some p.1.toNat := sommet_some.2 ⟨p.1, ha, by omega, rfl⟩
      have h₂ : sommet n items 2 = some p.2.toNat := sommet_some.2 ⟨p.2, hb, by omega, rfl⟩
      simp [descriptionPondere, h₁, h₂, hpoids] at he
    | error e =>
      refine ⟨e, rfl, estLecture_iff (fun p => ?_) h⟩
      exact (muet_troisieme items).bind fun q => (muet_nouveau p.1 p.2 q).bind fun e => muet_ajouteArete_pondere _ e

end

/-- **When the two readers conform**: exactly when the header, or else the first e line that describes no edge, has a
fault that the readers report. -/
theorem read_iff {P : Type} (parseDouble : Champ → Option P) (isNaN : P → Bool) (texte : List Char) :
    (Reader.Conforme descriptionGraphe texte ↔ Signale ['p'] descriptionGraphe texte) ∧
    ((GPReader parseDouble isNaN).Conforme (descriptionPondere parseDouble isNaN) texte ↔
      Signale ['w'] (descriptionPondere parseDouble isNaN) texte) :=
  ⟨Lecteur.conforme_iff reader_suit texte, Lecteur.conforme_iff gpReader_suit texte⟩

/-- **A header of two fields** passes the test of its length. -/
theorem entete_courte : Reader.read "p edge".toList = .error .arrayIndexOutOfBounds ∧
    ¬ Reader.Conforme descriptionGraphe "p edge".toList := by
  have h : Reader.read "p edge".toList = .error .arrayIndexOutOfBounds := rfl
  refine ⟨h, ?_⟩
  rw [Lecteur.conforme_of_error h]
  exact id

end Semestre6.Lecteurs
