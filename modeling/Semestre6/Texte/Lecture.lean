/-
A text as the classes of java.io and java.lang read it: the lines of a BufferedReader, the fields of `split("\\s+")`,
Integer.parseInt, what Scanner.nextInt reads, and the notation that a concatenation of strings appends.

- `splitSur_deux`, `splitSur_fin`: two fields, with a separator after the second one or not;
- `parseInt_isDigit`: a word of decimal digits is the number it writes, if that is an int;
- `parseInt_decimale`, `nextInt_decimale`: an int that was printed is read back.
-/
import Mathlib.Data.List.DropRight
import Semestre6.Texte.Scanner

namespace Semestre6.Lecture

/-! ## Lines and fields -/

/-- the lines that `readLine` returns until null, each ended by a line feed, a carriage return, both, or the end -/
def lignes : List Char → List (List Char)
  | [] => []
  | '\r' :: '\n' :: cs => [] :: lignes cs
  | c :: cs =>
    if c = '\n' ∨ c = '\r' then [] :: lignes cs
    else
      match lignes cs with
      | [] => [[c]]
      | l :: ls => (c :: l) :: ls

/-- the class `\s` -/
def espace (c : Char) : Bool := c ∈ [' ', '\t', '\n', '\x0b', '\x0c', '\r']

/-- `split("\\s+")`: an empty field in front of white space at the start, none at the end -/
def split (line : List Char) : List (List Char) :=
  if line.any espace then
    match line.splitOnP espace with
    | [] => []
    | m :: ms => (m :: ms.filter (· ≠ [])).rdropWhile (·.isEmpty)
  else [line]

/-- `split` on a single character: a text without it is its only field, else the empty fields at the end are dropped -/
def splitSur (c : Char) (t : List Char) : List (List Char) :=
  if c ∈ t then (t.splitOn c).rdropWhile (·.isEmpty) else [t]

section

variable {c : Char} {a b : List Char}

theorem splitSur_deux (ha : c ∉ a) (hb : c ∉ b) (hne : b ≠ []) : splitSur c (a ++ c :: b) = [a, b] := by
  rw [splitSur, if_pos (by simp), List.splitOn_append_cons_self, List.splitOn_eq_singleton ha,
    List.splitOn_eq_singleton hb]
  exact List.rdropWhile_concat_neg _ [a] b (by simpa using hne)

/-- the empty field after the last separator is dropped -/
theorem splitSur_fin (ha : c ∉ a) (hb : c ∉ b) (hne : b ≠ []) : splitSur c (a ++ c :: b ++ [c]) = [a, b] := by
  rw [splitSur, if_pos (by simp), List.splitOn_append_cons_self, List.splitOn_append_cons_self,
    List.splitOn_eq_singleton ha, List.splitOn_eq_singleton hb, List.splitOn_nil]
  rw [List.rdropWhile_concat_pos _ _ _ rfl]
  exact List.rdropWhile_concat_neg _ [a] b (by simpa using hne)

end

/-! ## Ints -/

/-- the zeros of the decimal digits of Unicode that are one `char` -/
def zeros : List ℕ :=
  [0x30, 0x660, 0x6f0, 0x7c0, 0x966, 0x9e6, 0xa66, 0xae6, 0xb66, 0xbe6, 0xc66, 0xce6, 0xd66, 0xde6, 0xe50, 0xed0, 0xf20,
    0x1040, 0x1090, 0x17e0, 0x1810, 0x1946, 0x19d0, 0x1a80, 0x1a90, 0x1b50, 0x1bb0, 0x1c40, 0x1c50, 0xa620, 0xa8d0,
    0xa900, 0xa9d0, 0xa9f0, 0xaa50, 0xabf0, 0xff10]

/-- `Character.digit(c, 10)` -/
def digit (c : Char) : Option ℕ := (zeros.find? fun z => z ≤ c.toNat ∧ c.toNat < z + 10).map (c.toNat - ·)

/-- the number that one digit or more writes -/
def chiffres (m : List Char) : Option ℕ :=
  if m = [] then none else (m.mapM digit).map fun ds => ds.foldl (fun n d => 10 * n + d) 0

/-- the values of an int -/
def int (v : ℤ) : Option ℤ := if -2147483648 ≤ v ∧ v ≤ 2147483647 then some v else none

/-- `Integer.parseInt` and `Integer.valueOf`; `none` is a NumberFormatException -/
def parseInt : List Char → Option ℤ
  | '-' :: ds => (chiffres ds).bind fun n => int (-(n : ℤ))
  | '+' :: ds => (chiffres ds).bind fun n => int n
  | ds => (chiffres ds).bind fun n => int n

/-- the digits of a word in groups of three, the first one shorter and without a zero in front -/
def groupes (separateur : Char) (m : List Char) : Option ℕ :=
  match m.splitOn separateur with
  | g :: g' :: gs =>
    if g ≠ [] ∧ g.length ≤ 3 ∧ g.head? ≠ some '0' ∧ ∀ h ∈ g' :: gs, h.length = 3 then
      chiffres (g ++ (g' :: gs).flatten)
    else none
  | _ => none

/-- the number of a word: digits, or groups of them around the separator of the locale -/
def nombre (separateur : Char) (m : List Char) : Option ℕ := (chiffres m).orElse fun _ => groupes separateur m

/-- the value of a word read by `nextInt`; `none` is an InputMismatchException -/
def nextInt (separateur : Char) : List Char → Option ℤ
  | '-' :: ds => (nombre separateur ds).bind fun n => int (-(n : ℤ))
  | '+' :: ds => (nombre separateur ds).bind fun n => int n
  | ds => (nombre separateur ds).bind fun n => int n

/-- an int as a string concatenation appends it -/
def decimale (v : ℤ) : List Char := (toString v).toList

/-! ## Printed and read -/

variable {c : Char} {m : List Char} {n : ℕ} {v : ℤ} {separateur : Char}

theorem digit_isDigit (h : c.isDigit) : digit c = some (c.toNat - 48) := by
  have hc := Char.isDigit_iff_toNat.1 h
  simp only [Char.reduceToNat] at hc
  rw [digit, zeros, List.find?_cons_of_pos (by simpa using by omega)]
  rfl

theorem chiffres_isDigit (hm : m ≠ []) (h : ∀ c ∈ m, c.isDigit) : chiffres m = some (Nat.ofDigitChars 10 m 0) := by
  have hmap : m.mapM digit = some (m.map fun c => c.toNat - 48) := by
    clear hm
    induction m with
    | nil => rfl
    | cons c m ih =>
      obtain ⟨hc, hm⟩ := List.forall_mem_cons.1 h
      rw [List.mapM_cons, digit_isDigit hc, ih hm]
      rfl
  rw [chiffres, if_neg hm, hmap, Option.map_some, List.foldl_map]
  rfl

theorem chiffres_decimale (n : ℕ) : chiffres (Nat.toDigits 10 n) = some n := by
  rw [chiffres_isDigit Nat.toDigits_ne_nil fun c hc => Nat.isDigit_of_mem_toDigits (by decide) le_rfl hc,
    Nat.ofDigitChars_ten_toDigits]

theorem decimale_natCast (n : ℕ) : decimale n = Nat.toDigits 10 n := by
  rw [decimale]
  exact Nat.toList_repr

theorem int_some {w : ℤ} : int v = some w ↔ v = w ∧ -2147483648 ≤ w ∧ w ≤ 2147483647 := by
  unfold int
  split_ifs with h
  · simp only [Option.some.injEq]
    constructor
    · rintro rfl
      exact ⟨rfl, h⟩
    · exact And.left
  · simp only [false_iff]
    rintro ⟨rfl, h'⟩
    exact h h'

theorem isDigit_decimale (n : ℕ) : ∀ c ∈ decimale n, c.isDigit := by
  intro c hc
  rw [decimale_natCast] at hc
  exact Nat.isDigit_of_mem_toDigits (by decide) le_rfl hc

theorem decimale_ne_nil (n : ℕ) : decimale n ≠ [] := by
  rw [decimale_natCast]
  exact Nat.toDigits_ne_nil

/-- a word of digits has no sign -/
theorem parseInt_isDigit (h : ∀ c ∈ m, c.isDigit) : parseInt m = (chiffres m).bind fun n => int n := by
  unfold parseInt
  split
  · exact absurd (h '-' (by simp)) (by decide)
  · exact absurd (h '+' (by simp)) (by decide)
  · rfl

theorem parseInt_decimale (hn : n ≤ 2147483647) : parseInt (decimale n) = some (n : ℤ) := by
  rw [parseInt_isDigit (isDigit_decimale n), decimale_natCast, chiffres_decimale]
  exact int_some.2 ⟨rfl, by omega, by omega⟩

theorem nextInt_decimale (hn : n ≤ 2147483647) : nextInt separateur (decimale n) = some (n : ℤ) := by
  have hm := isDigit_decimale n
  have hv : nombre separateur (decimale n) = some n := by rw [nombre, decimale_natCast, chiffres_decimale]; rfl
  generalize decimale n = m at hm hv
  unfold nextInt
  split
  · exact absurd (hm '-' (by simp)) (by decide)
  · exact absurd (hm '+' (by simp)) (by decide)
  · rw [hv]
    exact int_some.2 ⟨rfl, by omega, by omega⟩

/-- what was read is an int -/
theorem nextInt_borne (h : nextInt separateur m = some v) : -2147483648 ≤ v ∧ v ≤ 2147483647 := by
  unfold nextInt at h
  split at h
  all_goals
    obtain ⟨n, -, h⟩ := Option.bind_eq_some_iff.1 h
    exact (int_some.1 h).2

/-- a number without a sign -/
theorem parseInt_borne (hm : ∀ c ∈ m, c.isDigit) (h : parseInt m = some v) : 0 ≤ v ∧ v ≤ 2147483647 := by
  rw [parseInt_isDigit hm] at h
  obtain ⟨n, -, h⟩ := Option.bind_eq_some_iff.1 h
  obtain ⟨rfl, -, hmax⟩ := int_some.1 h
  exact ⟨Int.natCast_nonneg n, hmax⟩

end Semestre6.Lecture
