/-
Joiner.java: the join of two files of tab-separated lines, by a nested loop and through a Hashtable of the second file.
A join gives the lines printed and the exception that its try block caught, if any.

- `nestedJoin_eq`, `hashJoin_eq`: on files of the shape the program expects the first prints every pair of lines with
  the same key, the second the last line of f2 with the key, both for the lines of f1 before the first one that throws;
- `memes_lignes_iff`: they print the same lines exactly when no such line of f1 has two lines of f2 with its key.
Witness that the condition is needed: `clef_repetee`, a key that f2 holds twice.
-/
import Mathlib.Data.List.DropRight
import Semestre6.Lib.Jointure
import Semestre6.Texte.Scanner

namespace Semestre6.Joiner

open Jointure Scanner

/-- a line of a file, without its separator -/
abbrev Ligne := List Char

inductive JException where
  | arrayIndexOutOfBounds
deriving DecidableEq, Repr

def champs (t : Ligne) : List Ligne := t.splitOn '\t'

/-- `t.split("\t")`: a line without a tab is its only field, else the empty fields at the end are dropped -/
def split (t : Ligne) : List Ligne := if '\t' ∈ t then (champs t).rdropWhile (·.isEmpty) else [t]

/-- a line of the result -/
def collee (t1 t2 : Ligne) : Ligne := t1 ++ '\t' :: t2

/-! ## NestedJoin -/

/-- the loop on in2 for one line of f1 -/
def boucle2 (t1 : Ligne) : List Ligne → List Ligne × Option JException
  | [] => ([], none)
  | t2 :: in2 =>
    if hasNext (t2 :: in2) then
      match (split t1)[1]?, (split t2)[0]? with
      | some a, some b =>
        let r := boucle2 t1 in2
        (if a = b then collee t1 t2 :: r.1 else r.1, r.2)
      | _, _ => ([], some .arrayIndexOutOfBounds)
    else ([], none)

/-- the loop on in1; in2 is opened again after each line -/
def boucle1 (f2 : List Ligne) : List Ligne → List Ligne × Option JException
  | [] => ([], none)
  | t1 :: in1 =>
    if hasNext (t1 :: in1) then
      match boucle2 t1 f2 with
      | (lignes, some e) => (lignes, some e)
      | (lignes, none) =>
        let r := boucle1 f2 in1
        (lignes ++ r.1, r.2)
    else ([], none)

def nestedJoin (f1 f2 : List Ligne) : List Ligne × Option JException := boucle1 f2 f1

/-! ## HashJoin -/

abbrev Table := Ligne → Option Ligne

/-- the loop that fills the table; an exception leaves it as it is then -/
def remplit (table : Table) : List Ligne → Table
  | [] => table
  | t2 :: in2 =>
    if hasNext (t2 :: in2) then
      match (split t2)[0]?, (split t2)[1]?, (split t2)[2]? with
      | some a, some b, some c => remplit (Function.update table a (some (collee (collee a b) c))) in2
      | _, _, _ => table
    else table

/-- the loop on in1 through the table -/
def sonde (table : Table) : List Ligne → List Ligne × Option JException
  | [] => ([], none)
  | t1 :: in1 =>
    if hasNext (t1 :: in1) then
      match (split t1)[1]? with
      | some k =>
        let r := sonde table in1
        match table k with
        | some v => (collee t1 v :: r.1, r.2)
        | none => r
      | none => ([], some .arrayIndexOutOfBounds)
    else ([], none)

def hashJoin (f1 f2 : List Ligne) : List Ligne × Option JException := sonde (remplit (fun _ => none) f2) f1

/-! ## The shape of the files -/

def NonBlanche (t : Ligne) : Prop := ∃ c ∈ t, estBlanc c = false

/-- a line of f2: three fields, none empty -/
def Triplet (t : Ligne) : Prop := (champs t).length = 3 ∧ ∀ c ∈ champs t, c ≠ []

instance (t : Ligne) : Decidable (NonBlanche t) := List.decidableBEx (estBlanc · = false) t

instance (t : Ligne) : Decidable (Triplet t) := by unfold Triplet; infer_instance

/-- the field of f1 and the field of f2 that the joins compare -/
def clef1 (t : Ligne) : Ligne := (split t).getD 1 []
def clef2 (t : Ligne) : Ligne := (split t).getD 0 []

/-- the lines of f1 before the first one whose second field `split` does not give -/
def lues (f1 : List Ligne) : List Ligne := f1.takeWhile fun t => 2 ≤ (split t).length

theorem hasNext_cons {t : Ligne} (h : NonBlanche t) (fichier : List Ligne) : hasNext (t :: fichier) = true := by
  obtain ⟨c, hc, hblanc⟩ := h
  rw [hasNext, List.any_cons, Bool.or_eq_true]
  exact .inl (List.any_eq_true.2 ⟨c, hc, by rw [hblanc]; rfl⟩)

/-- the table holds the lines of f2 themselves: the fields put together again are the line -/
theorem Triplet.split_eq {t : Ligne} (h : Triplet t) : ∃ a b c, split t = [a, b, c] ∧ collee (collee a b) c = t := by
  obtain ⟨hlen, hvide⟩ := h
  obtain ⟨a, b, c, habc⟩ := List.length_eq_three.1 hlen
  have htab : '\t' ∈ t := by
    by_contra hn
    rw [champs, List.splitOn_eq_singleton hn] at habc
    cases habc
  have hc : c ≠ [] := hvide c (by simp [habc])
  have hdrop : [a, b, c].rdropWhile (·.isEmpty) = [a, b, c] := by
    rw [List.rdropWhile_eq_self_iff]
    intro _
    simpa using hc
  refine ⟨a, b, c, by rw [split, if_pos htab, habc, hdrop], ?_⟩
  calc collee (collee a b) c = ['\t'].intercalate [a, b, c] := by simp [collee, List.intercalate]
    _ = t := by rw [← habc, champs, List.intercalate_splitOn]

variable {t t1 : Ligne} {f1 f2 : List Ligne}

theorem clef1_of_lue (h : 2 ≤ (split t1).length) : (split t1)[1]? = some (clef1 t1) := by
  rw [clef1, List.getD, List.getElem?_eq_getElem h, Option.getD_some]

/-! ## What the joins print -/

/-- on a line that has its second field, the inner loop prints every match -/
theorem boucle2_eq (h1 : 2 ≤ (split t1).length) (h2 : ∀ t ∈ f2, NonBlanche t ∧ Triplet t) :
    boucle2 t1 f2 = ((deClef clef2 f2 (clef1 t1)).map (collee t1), none) := by
  induction f2 with
  | nil => rfl
  | cons t2 in2 ih =>
    obtain ⟨hblanche, htriplet⟩ := h2 t2 List.mem_cons_self
    obtain ⟨a, b, c, hsplit, -⟩ := htriplet.split_eq
    have hclef : clef2 t2 = a := by rw [clef2, hsplit]; rfl
    have ih := ih fun t ht => h2 t (List.mem_cons_of_mem t2 ht)
    rw [boucle2, if_pos (hasNext_cons hblanche in2), clef1_of_lue h1, hsplit, deClef_cons, hclef]
    simp only [List.getElem?_cons_zero, ih]
    by_cases ha : a = clef1 t1
    · rw [if_pos ha, if_pos ha.symm, List.map_cons]
    · rw [if_neg ha, if_neg (Ne.symm ha)]

/-- on a line without it, it throws, unless f2 is empty -/
theorem boucle2_of_lt (h1 : (split t1).length < 2) (h2 : ∀ t ∈ f2, NonBlanche t) (hne : f2 ≠ []) :
    boucle2 t1 f2 = ([], some .arrayIndexOutOfBounds) := by
  obtain ⟨t2, in2, rfl⟩ := List.exists_cons_of_ne_nil hne
  have hnone : (split t1)[1]? = none := List.getElem?_eq_none (by omega)
  rw [boucle2, if_pos (hasNext_cons (h2 t2 List.mem_cons_self) in2), hnone]

theorem boucle1_eq (h1 : ∀ t ∈ f1, NonBlanche t) (h2 : ∀ t ∈ f2, NonBlanche t ∧ Triplet t) :
    (boucle1 f2 f1).1 = jointure clef1 clef2 collee (lues f1) f2 := by
  induction f1 with
  | nil => rfl
  | cons t1 in1 ih =>
    have ih := ih fun t ht => h1 t (List.mem_cons_of_mem t1 ht)
    rw [boucle1, if_pos (hasNext_cons (h1 t1 List.mem_cons_self) in1), lues, List.takeWhile_cons]
    by_cases hlue : 2 ≤ (split t1).length
    · rw [boucle2_eq hlue h2, if_pos (by simpa using hlue)]
      exact congrArg (_ ++ ·) ih
    · rw [if_neg (by simpa using hlue)]
      by_cases hne : f2 = []
      · subst hne
        rw [boucle2]
        refine ih.trans ?_
        simp [jointure, deClef]
      · rw [boucle2_of_lt (by omega) (fun t ht => (h2 t ht).1) hne]
        rfl

/-- **NestedJoin prints the join** of f2 with the lines of f1 that it reads without an exception. -/
theorem nestedJoin_eq (h1 : ∀ t ∈ f1, NonBlanche t) (h2 : ∀ t ∈ f2, NonBlanche t ∧ Triplet t) :
    (nestedJoin f1 f2).1 = jointure clef1 clef2 collee (lues f1) f2 := boucle1_eq h1 h2

theorem remplit_eq (table₀ : Table) (h2 : ∀ t ∈ f2, NonBlanche t ∧ Triplet t) :
    remplit table₀ f2 = table clef2 table₀ f2 := by
  induction f2 generalizing table₀ with
  | nil => rfl
  | cons t2 in2 ih =>
    obtain ⟨hblanche, htriplet⟩ := h2 t2 List.mem_cons_self
    obtain ⟨a, b, c, hsplit, hligne⟩ := htriplet.split_eq
    have hclef : clef2 t2 = a := by rw [clef2, hsplit]; rfl
    rw [remplit, if_pos (hasNext_cons hblanche in2), hsplit]
    simp only [List.getElem?_cons_zero, List.getElem?_cons_succ, hligne]
    rw [ih _ fun t ht => h2 t (List.mem_cons_of_mem t2 ht), ← hclef]
    rfl

theorem sonde_eq (h1 : ∀ t ∈ f1, NonBlanche t) :
    (sonde (table clef2 (fun _ => none) f2) f1).1 = jointureDernier clef1 clef2 collee (lues f1) f2 := by
  induction f1 with
  | nil => rfl
  | cons t1 in1 ih =>
    have ih := ih fun t ht => h1 t (List.mem_cons_of_mem t1 ht)
    rw [sonde, if_pos (hasNext_cons (h1 t1 List.mem_cons_self) in1), lues, List.takeWhile_cons]
    by_cases hlue : 2 ≤ (split t1).length
    · rw [clef1_of_lue hlue, if_pos (by simpa using hlue), jointureDernier, List.flatMap_cons, ← jointureDernier,
        ← lues, ← ih]
      simp only [table_eq, Option.or_none]
      cases (deClef clef2 f2 (clef1 t1)).getLast? <;> rfl
    · have hnone : (split t1)[1]? = none := List.getElem?_eq_none (by omega)
      rw [hnone, if_neg (by simpa using hlue)]
      rfl

/-- **HashJoin prints the last match** of each line that it reads without an exception. -/
theorem hashJoin_eq (h1 : ∀ t ∈ f1, NonBlanche t) (h2 : ∀ t ∈ f2, NonBlanche t ∧ Triplet t) :
    (hashJoin f1 f2).1 = jointureDernier clef1 clef2 collee (lues f1) f2 := by
  rw [hashJoin, remplit_eq _ h2]
  exact sonde_eq h1

/-- **Same lines** exactly when no line of f1 that is read has its key in two lines of f2. -/
theorem memes_lignes_iff (f1 f2 : List Ligne) (h1 : ∀ t ∈ f1, NonBlanche t ∧ 2 ≤ (champs t).length)
    (h2 : ∀ t ∈ f2, NonBlanche t ∧ Triplet t) :
    (hashJoin f1 f2).1 = (nestedJoin f1 f2).1 ↔
      ∀ t1 ∈ lues f1, (f2.filter fun t2 => clef2 t2 = clef1 t1).length ≤ 1 := by
  have h1 : ∀ t ∈ f1, NonBlanche t := fun t ht => (h1 t ht).1
  rw [hashJoin_eq h1 h2, nestedJoin_eq h1 h2, eq_comm, jointure_eq_dernier_iff]
  rfl

theorem memes_lignes_iff_un :
    (hashJoin [['x', '\t', 'k']] [['k', '\t', 'a', '\t', 'b']]).1 =
        (nestedJoin [['x', '\t', 'k']] [['k', '\t', 'a', '\t', 'b']]).1 ↔
      ∀ t1 ∈ lues [['x', '\t', 'k']],
        ([['k', '\t', 'a', '\t', 'b']].filter fun t2 => clef2 t2 = clef1 t1).length ≤ 1 :=
  memes_lignes_iff _ _ (by decide) (by decide)

/-- **A key twice in f2.** The table keeps the second line only, where the nested loop prints both. -/
theorem clef_repetee : ¬ ∀ f1 f2 : List Ligne, (∀ t ∈ f1, NonBlanche t ∧ 2 ≤ (champs t).length) →
    (∀ t ∈ f2, NonBlanche t ∧ Triplet t) → (hashJoin f1 f2).1 = (nestedJoin f1 f2).1 := by
  intro h
  have h := h [['x', '\t', 'k']] [['k', '\t', 'a', '\t', 'b'], ['k', '\t', 'c', '\t', 'd']] (by decide) (by decide)
  revert h
  decide

end Semestre6.Joiner
