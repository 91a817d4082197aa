/-
The command lines of the shell (readcmd.c). `split_in_words` is the function of parse.c, word for word.

- `analyse`: the loop of `readcmd` over the words, up to their end or an error;
- `free`, `freecmd`, `nettoie`: what is given back to malloc; an operator is a string literal, whose `free` is undefined;
- `readcmd`: a call, from the structure that the call before left (`static_cmdline`) and the line read.
The words of a command that is already in `seq` stay in the order in which they were read: `Lecture` keeps the two
growing arrays.
-/
import Semestre6.Ftp.Parse

namespace Semestre6.Shell

open Semestre6.Ftp (Octets octets)
open Semestre6.Ftp.Parse

def splitInWords (line : Octets) : List Octets := Ftp.Parse.splitInWords line

/-- `struct cmdline`; `inFile` and `outFile` are its fields `in` and `out` -/
structure Cmdline where
  err : Option String
  inFile : Option Octets
  outFile : Option Octets
  seq : Option (List (List Octets))
  background : Bool
deriving DecidableEq, Repr

/-- the fields set while the words are read, and the arrays that grow -/
structure Lecture where
  inFile : Option Octets
  outFile : Option Octets
  background : Bool
  cmd : List Octets
  seq : List (List Octets)
deriving DecidableEq, Repr

def Lecture.vide : Lecture := ⟨none, none, false, [], []⟩

/-- the first byte of a word, as the switch reads it -/
def Debute (w : Octets) (c : UInt8) : Prop := w.head? = some c

instance (w : Octets) (c : UInt8) : Decidable (Debute w c) := by unfold Debute; infer_instance

/-- what the loop ends with: the arrays, and the error with the words still to read -/
structure Fin where
  lecture : Lecture
  erreur : Option (String × List Octets)
deriving DecidableEq, Repr

/-- the loop over the words -/
def analyse : List Octets → Lecture → Fin
  | [], l => ⟨l, none⟩
  | w :: words, l =>
    if Debute w 60 then
      if l.inFile.isSome then ⟨l, some ("only one input file supported", words)⟩
      else match words with
        | [] => ⟨l, some ("filename missing for input redirection", [])⟩
        | f :: words => analyse words { l with inFile := some f }
    else if Debute w 62 then
      if l.outFile.isSome then ⟨l, some ("only one output file supported", words)⟩
      else match words with
        | [] => ⟨l, some ("filename missing for output redirection", [])⟩
        | f :: words => analyse words { l with outFile := some f }
    else if Debute w 124 then
      if l.cmd = [] then ⟨l, some ("misplaced pipe", words)⟩
      else analyse words { l with seq := l.seq ++ [l.cmd], cmd := [] }
    else if Debute w 38 then analyse words { l with background := true }
    else analyse words { l with cmd := l.cmd ++ [w] }

/-- a word that `split_in_words` took from a string literal -/
def Litteral (w : Octets) : Prop := ∃ c ∈ w.head?, Operateur c

instance (w : Octets) : Decidable (Litteral w) := by unfold Litteral; infer_instance

/-- `free`, undefined on a string literal -/
def free (w : Octets) : Option Unit := if Litteral w then none else some ()

def freeTous : List Octets → Option Unit
  | [] => some ()
  | w :: l => do free w; freeTous l

def freecmd (s : Cmdline) : Option Unit := do
  freeTous s.inFile.toList
  freeTous s.outFile.toList
  freeTous (s.seq.getD []).flatten

/-- the words that the error exit frees among those still to read: all but `<`, `>` and `|` -/
def resteAFree (words : List Octets) : List Octets :=
  words.filter fun w => ¬(Debute w 60 ∨ Debute w 62 ∨ Debute w 124)

/-- the error exit -/
def nettoie (message : String) (l : Lecture) (words : List Octets) : Option Cmdline := do
  freeTous (resteAFree words)
  freeTous l.seq.flatten
  freeTous l.cmd
  freeTous l.inFile.toList
  freeTous l.outFile.toList
  return ⟨some message, none, none, none, l.background⟩

/-- the words of a line, once the structure of the call before is freed -/
def lit (words : List Octets) : Option Cmdline :=
  let r := analyse words .vide
  match r.erreur with
  | some (message, reste) => nettoie message r.lecture reste
  | none =>
    if r.lecture.cmd ≠ [] then
      some ⟨none, r.lecture.inFile, r.lecture.outFile, some (r.lecture.seq ++ [r.lecture.cmd]), r.lecture.background⟩
    else if r.lecture.seq ≠ [] then nettoie "misplaced pipe" r.lecture []
    else some ⟨none, r.lecture.inFile, r.lecture.outFile, some [], r.lecture.background⟩

/-- one call; the line is absent at the end of the input -/
def readcmd (avant : Option Cmdline) (line : Option Octets) : Option (Option Cmdline) := do
  match avant with
  | some s => freecmd s
  | none => some ()
  match line with
  | some line => (lit (splitInWords line)).map some
  | none => some none

/-! ## What is freed -/

theorem freeTous_eq {l : List Octets} (h : ∀ w ∈ l, ¬Litteral w) : freeTous l = some () := by
  induction l with
  | nil => rfl
  | cons w l ih =>
    have hw : free w = some () := if_neg (h w List.mem_cons_self)
    have hl : freeTous l = some () := ih fun w' hw' => h w' (List.mem_cons_of_mem w hw')
    simp [freeTous, hw, hl]

theorem freeTous_none {l : List Octets} {w : Octets} (hw : w ∈ l) (h : Litteral w) : freeTous l = none := by
  induction l with
  | nil => cases hw
  | cons v l ih =>
    by_cases hv : Litteral v
    · simp [freeTous, free, hv]
    · have hwl : w ∈ l := by
        rcases List.mem_cons.1 hw with rfl | hwl
        · exact absurd h hv
        · exact hwl
      have hl : freeTous l = none := ih hwl
      simp [freeTous, free, hv, hl]

theorem freeTous_append (l l' : List Octets) : freeTous (l ++ l') = (freeTous l).bind fun _ => freeTous l' := by
  induction l with
  | nil => rfl
  | cons w l ih =>
    by_cases hw : Litteral w
    · simp [freeTous, free, hw]
    · simp [freeTous, free, hw, ih]

/-- all the strings of a structure, one after the other -/
theorem freecmd_eq (s : Cmdline) :
    freecmd s = freeTous (s.inFile.toList ++ (s.outFile.toList ++ (s.seq.getD []).flatten)) := by
  rw [freeTous_append, freeTous_append]
  rfl

/-- the strings that the error exit frees -/
def nettoyes (l : Lecture) (words : List Octets) : List Octets :=
  resteAFree words ++ (l.seq.flatten ++ (l.cmd ++ (l.inFile.toList ++ l.outFile.toList)))

theorem nettoie_def (message : String) (l : Lecture) (words : List Octets) :
    nettoie message l words =
      (freeTous (nettoyes l words)).bind fun _ => some ⟨some message, none, none, none, l.background⟩ := by
  simp only [nettoyes, freeTous_append, Option.bind_assoc]
  rfl

/-- no word that the error exit frees is a literal -/
theorem nettoie_eq (message : String) {l : Lecture} (words : List Octets)
    (hw : ∀ w ∈ words, ¬Debute w 38) (hseq : ∀ w ∈ l.seq.flatten, ¬Litteral w) (hcmd : ∀ w ∈ l.cmd, ¬Litteral w)
    (hin : ∀ w ∈ l.inFile.toList, ¬Litteral w) (hout : ∀ w ∈ l.outFile.toList, ¬Litteral w) :
    nettoie message l words = some ⟨some message, none, none, none, l.background⟩ := by
  have hreste : ∀ w ∈ resteAFree words, ¬Litteral w := by
    rintro w hm ⟨c, hc, hop⟩
    simp only [resteAFree, List.mem_filter, decide_eq_true_eq, not_or, Debute] at hm
    have hc' : w.head? = some c := hc
    rcases hop with rfl | rfl | rfl | rfl
    · exact hm.2.1 hc'
    · exact hm.2.2.1 hc'
    · exact hm.2.2.2 hc'
    · exact hw w hm.1 hc'
  have htous : ∀ w ∈ nettoyes l words, ¬Litteral w := by
    simp only [nettoyes, List.forall_mem_append]
    exact ⟨hreste, hseq, hcmd, hin, hout⟩
  rw [nettoie_def, freeTous_eq htous]
  rfl

theorem nettoie_none {message : String} {l : Lecture} {words : List Octets} {w : Octets} (hw : w ∈ nettoyes l words)
    (h : Litteral w) : nettoie message l words = none := by
  rw [nettoie_def, freeTous_none hw h]
  rfl

theorem nettoie_reste {message : String} {l : Lecture} {words : List Octets} {w : Octets} (hm : w ∈ words)
    (hw : Debute w 38) : nettoie message l words = none := by
  have hc : w.head? = some 38 := hw
  apply nettoie_none (w := w)
  · simp [nettoyes, resteAFree, hm, Debute, hc]
  · exact ⟨38, hw, by decide⟩

end Semestre6.Shell
