/-
Machines on a tape without ends, and the zipper that stores the visited part of such a tape.

- `Ruban.agit`: one operation, an optional writing under the head and then a move of one cell at most;
- `deplie`: the tape that a zipper stands for, blank outside the stored cells, once the head is put at a position;
- `deplie_ecrit`, `deplie_droite`, `deplie_gauche`: the operations on the zipper are those of the tape.
-/
import Mathlib.Tactic

namespace Semestre6.RubanInfini

variable {Γ : Type*}

/-- a symbol in every cell, and the position of the head -/
@[ext] structure Ruban (Γ : Type*) where
  cellules : ℤ → Γ
  tete : ℤ

inductive Sens where
  | gauche | ici | droite
deriving DecidableEq, Repr

def Sens.pas : Sens → ℤ
  | .gauche => -1
  | .ici => 0
  | .droite => 1

structure Operation (Γ : Type*) where
  ecriture : Option Γ
  sens : Sens

/-- the operation that does nothing -/
def Operation.rien : Operation Γ := ⟨none, .ici⟩

namespace Ruban

def ecrit (r : Ruban Γ) (s : Γ) : Ruban Γ := { r with cellules := Function.update r.cellules r.tete s }

def deplace (r : Ruban Γ) (d : Sens) : Ruban Γ := { r with tete := r.tete + d.pas }

def agit (r : Ruban Γ) (o : Operation Γ) : Ruban Γ :=
  (match o.ecriture with
    | none => r
    | some s => r.ecrit s).deplace o.sens

@[simp] theorem deplace_ici (r : Ruban Γ) : r.deplace .ici = r := by
  simp [deplace, Sens.pas]

@[simp] theorem agit_rien (r : Ruban Γ) : r.agit .rien = r := deplace_ici r

end Ruban

/-! ## The zipper -/

/-- the cells on the left of the head, the nearest first, the one under it and those on its right -/
def deplie (blanc : Γ) (gauche : List Γ) (tete : Γ) (droite : List Γ) (p : ℤ) : Ruban Γ where
  cellules := fun i =>
    if i = p then tete
    else if i < p then gauche.getD (p - 1 - i).toNat blanc
    else droite.getD (i - p - 1).toNat blanc
  tete := p

variable {blanc : Γ}

theorem deplie_ecrit (gauche droite : List Γ) (h s : Γ) (p : ℤ) :
    (deplie blanc gauche h droite p).ecrit s = deplie blanc gauche s droite p := by
  ext i
  · by_cases hi : i = p
    · subst hi
      simp [Ruban.ecrit, deplie]
    · simp [Ruban.ecrit, deplie, hi]
  · rfl

theorem getD_succ (h : Γ) (l : List Γ) (n : ℕ) : (h :: l).getD (n + 1) blanc = l.getD n blanc := rfl

theorem getD_headD (l : List Γ) : l.headD blanc = l.getD 0 blanc := by
  cases l <;> rfl

theorem getD_tail (l : List Γ) (n : ℕ) : l.tail.getD n blanc = l.getD (n + 1) blanc := by
  cases l <;> rfl

/-- one cell to the right: the old cell joins the left part, a blank comes when nothing is stored on the right -/
theorem deplie_droite (gauche droite : List Γ) (h : Γ) (p : ℤ) :
    (deplie blanc gauche h droite p).deplace .droite =
      deplie blanc (h :: gauche) (droite.headD blanc) droite.tail (p + 1) := by
  ext i
  · rcases lt_trichotomy i p with hi | rfl | hi
    · have hn : (p + 1 - 1 - i).toNat = (p - 1 - i).toNat + 1 := by omega
      simp only [Ruban.deplace, deplie]
      rw [if_neg hi.ne, if_pos hi, if_neg (by omega), if_pos (by omega), hn, getD_succ]
    · simp [Ruban.deplace, deplie]
    · simp only [Ruban.deplace, deplie]
      rw [if_neg (by omega), if_neg (by omega)]
      by_cases hi' : i = p + 1
      · rw [if_pos hi', getD_headD]
        congr 1
        omega
      · have hn : (i - p - 1).toNat = (i - (p + 1) - 1).toNat + 1 := by omega
        rw [if_neg hi', if_neg (by omega), getD_tail, hn]
  · rfl

/-- one cell to the left, the same -/
theorem deplie_gauche (gauche droite : List Γ) (h : Γ) (p : ℤ) :
    (deplie blanc gauche h droite p).deplace .gauche =
      deplie blanc gauche.tail (gauche.headD blanc) (h :: droite) (p - 1) := by
  ext i
  · rcases lt_trichotomy i p with hi | rfl | hi
    · simp only [Ruban.deplace, deplie]
      rw [if_neg hi.ne, if_pos hi]
      by_cases hi' : i = p - 1
      · rw [if_pos hi', getD_headD]
        congr 1
        omega
      · have hn : (p - 1 - i).toNat = (p - 1 - 1 - i).toNat + 1 := by omega
        rw [if_neg hi', if_pos (by omega), getD_tail, hn]
    · have hn : (i - (i - 1) - 1).toNat = 0 := by omega
      simp only [Ruban.deplace, deplie]
      rw [if_pos trivial, if_neg (by omega), if_neg (by omega), hn]
      rfl
    · have hn : (i - (p - 1) - 1).toNat = (i - p - 1).toNat + 1 := by omega
      simp only [Ruban.deplace, deplie]
      rw [if_neg (by omega), if_neg (by omega), if_neg (by omega), if_neg (by omega), hn, getD_succ]
  · rfl

end Semestre6.RubanInfini
