/-
Text as java.util.Scanner reads it: tokens between white space.
-/
import Mathlib.Tactic

namespace Semestre6.Scanner

/-- `Character.isWhitespace` -/
def estBlanc (c : Char) : Bool :=
  let n := c.toNat
  (0x09 ≤ n && n ≤ 0x0d) || (0x1c ≤ n && n ≤ 0x20) || n == 0x1680 || (0x2000 ≤ n && n ≤ 0x200a && n != 0x2007) ||
    n == 0x2028 || n == 0x2029 || n == 0x205f || n == 0x3000

/-- `hasNext` on the lines left to read: some token is left -/
def hasNext (fichier : List (List Char)) : Bool := fichier.any fun t => t.any fun c => !estBlanc c

/-- the words that `next` gives one after the other -/
def jetons (texte : List Char) : List (List Char) := (texte.splitOnP estBlanc).filter (· ≠ [])

/-- a word on a line of its own -/
theorem jetons_ligne {m : List Char} (hne : m ≠ []) (hm : ∀ c ∈ m, estBlanc c = false) (texte : List Char) :
    jetons (m ++ '\n' :: texte) = m :: jetons texte := by
  rw [jetons, List.splitOnP_append_cons_of_forall_mem hm '\n' rfl, List.filter_cons_of_pos (by simpa using hne)]
  rfl

theorem jetons_mot {m : List Char} (hne : m ≠ []) (hm : ∀ c ∈ m, estBlanc c = false) : jetons m = [m] := by
  rw [jetons, List.splitOnP_eq_singleton (by simpa using hm)]
  simp [hne]

theorem estBlanc_isDigit {c : Char} (h : c.isDigit) : estBlanc c = false := by
  have hc := Char.isDigit_iff_toNat.1 h
  simp only [Char.reduceToNat] at hc
  obtain ⟨hmin, hmax⟩ := hc
  unfold estBlanc
  interval_cases c.toNat <;> rfl

end Semestre6.Scanner
