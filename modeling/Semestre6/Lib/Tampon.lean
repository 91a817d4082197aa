/-
Stores into buffers of fixed size, as C programs make them by hand: each store is a buffer and an index, and nothing
stops the index from being outside.

- `Dedans`: the store is inside its buffer;
- `suite`: consecutive stores, those of a read or of a copy; `suite_dedans_iff`: when they are all inside;
- `strcpy`, `strcat`: the stores of the copy of a string, its terminator included;
- `strcats_dedans_iff`: a chain of concatenations stays inside exactly when the whole string and its terminator fit;
- `length_cstr_set_le`: a terminator bounds the string before it.
-/
import Semestre6.Lib.Octets

namespace Semestre6.Tampon

open Octets

variable {τ α : Type*}

structure Ecriture (τ : Type*) where
  tampon : τ
  index : ℤ
deriving DecidableEq, Repr

variable {taille : τ → ℕ} {t : τ}

def Dedans (taille : τ → ℕ) (e : Ecriture τ) : Prop := 0 ≤ e.index ∧ e.index < taille e.tampon

instance (taille : τ → ℕ) (e : Ecriture τ) : Decidable (Dedans taille e) := by unfold Dedans; infer_instance

/-- all the stores are inside -/
def Surs (taille : τ → ℕ) (l : List (Ecriture τ)) : Prop := ∀ e ∈ l, Dedans taille e

@[simp] theorem surs_nil : Surs taille [] := nofun

@[simp] theorem surs_append {l l' : List (Ecriture τ)} : Surs taille (l ++ l') ↔ Surs taille l ∧ Surs taille l' :=
  List.forall_mem_append

@[simp] theorem surs_singleton {e : Ecriture τ} : Surs taille [e] ↔ Dedans taille e := List.forall_mem_singleton

/-- `k` stores from index `i` on -/
def suite (t : τ) (i k : ℕ) : List (Ecriture τ) := (List.range k).map fun j => ⟨t, (i + j : ℕ)⟩

theorem suite_dedans_iff {i k : ℕ} : Surs taille (suite t i k) ↔ k = 0 ∨ i + k ≤ taille t := by
  unfold Surs suite
  simp only [List.forall_mem_map, List.mem_range, Dedans, Nat.cast_lt]
  apply Iff.intro
  · intro h
    rcases Nat.eq_zero_or_pos k with hk | hk
    · exact .inl hk
    · have hlast := (h (k - 1) (by omega)).2
      exact .inr (by omega)
  · intro h j hj
    exact ⟨Int.natCast_nonneg _, by omega⟩

/-- the copy of a string, and of its terminator -/
def strcpy (t : τ) (s : List α) : List (Ecriture τ) := suite t 0 (s.length + 1)

theorem strcpy_dedans_iff {s : List α} : Surs taille (strcpy t s) ↔ s.length < taille t := by
  rw [strcpy, suite_dedans_iff]
  omega

/-- the copy of `s` behind the string `s₀` -/
def strcat (t : τ) (s₀ s : List α) : List (Ecriture τ) := suite t s₀.length (s.length + 1)

theorem strcat_dedans_iff {s₀ s : List α} : Surs taille (strcat t s₀ s) ↔ (s₀ ++ s).length < taille t := by
  rw [strcat, suite_dedans_iff, List.length_append]
  omega

/-- one concatenation after another -/
def strcats (t : τ) (s₀ : List α) : List (List α) → List (Ecriture τ)
  | [] => []
  | s :: l => strcat t s₀ s ++ strcats t (s₀ ++ s) l

theorem strcats_dedans_iff {s₀ : List α} (h : s₀.length < taille t) (l : List (List α)) :
    Surs taille (strcats t s₀ l) ↔ (s₀ ++ l.flatten).length < taille t := by
  induction l generalizing s₀ with
  | nil => simpa [strcats] using h
  | cons s l ih =>
    rw [strcats, surs_append, strcat_dedans_iff, List.flatten_cons, ← List.append_assoc]
    apply Iff.intro
    · intro hs
      exact (ih hs.1).1 hs.2
    · intro hl
      have hs : (s₀ ++ s).length < taille t := by
        rw [List.length_append] at hl
        omega
      exact ⟨hs, (ih hs).2 hl⟩

/-- the string ends at the latest at a terminator -/
theorem length_cstr_set_le [Zero α] [DecidableEq α] (l : List α) (i : ℕ) : (cstr (l.set i 0)).length ≤ i := by
  by_contra hlt
  have hpre : cstr (l.set i 0) <+: l.set i 0 := List.takeWhile_prefix _
  have hi' : i < (cstr (l.set i 0)).length := by omega
  have hget : (cstr (l.set i 0))[i] = 0 := by
    rw [hpre.getElem hi', List.getElem_set_self]
  exact cstr_ne_zero (List.getElem_mem hi') hget

end Semestre6.Tampon
