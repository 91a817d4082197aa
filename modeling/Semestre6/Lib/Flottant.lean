/-
Numbers of `p` significant binary digits and any exponent: rounding to the nearest one, to the even one between two.

- `abs_arrondi_sub_le`: a rounding moves a number by a `2 ^ p`-th of it at most;
- `Approche`: an approximation with its error and its magnitude, through roundings, sums and products.
-/
import Mathlib.Tactic
import Mathlib.Data.Int.Log

namespace Semestre6.Flottant

/-- the nearest integer, the even one between two -/
def auPlusProche (y : ℚ) : ℤ :=
  if Int.fract y < 1 / 2 then ⌊y⌋
  else if 1 / 2 < Int.fract y then ⌊y⌋ + 1
  else if ⌊y⌋ % 2 = 0 then ⌊y⌋
  else ⌊y⌋ + 1

/-- the distance of two numbers of `p` digits next to `x` -/
def unite (p : ℕ) (x : ℚ) : ℚ := 2 ^ (Int.log 2 |x| + 1 - p)

def arrondi (p : ℕ) (x : ℚ) : ℚ := auPlusProche (x / unite p x) * unite p x

variable {p : ℕ} {x y e m x' y' e' m' : ℚ}

theorem abs_auPlusProche_sub_le (y : ℚ) : |(auPlusProche y : ℚ) - y| ≤ 1 / 2 := by
  have hbas : (auPlusProche y : ℚ) = ⌊y⌋ ∧ Int.fract y ≤ 1 / 2 ∨
      (auPlusProche y : ℚ) = ⌊y⌋ + 1 ∧ 1 / 2 ≤ Int.fract y := by
    rw [auPlusProche]
    split_ifs with h₁ h₂ h₃
    · exact .inl ⟨rfl, h₁.le⟩
    · exact .inr ⟨by push_cast; rfl, h₂.le⟩
    · exact .inl ⟨rfl, not_lt.1 h₂⟩
    · exact .inr ⟨by push_cast; rfl, not_lt.1 h₁⟩
  have hy := Int.floor_add_fract y
  have h0 := Int.fract_nonneg y
  have h1 := Int.fract_lt_one y
  rw [abs_le]
  rcases hbas with ⟨h, hf⟩ | ⟨h, hf⟩
  · constructor <;> linarith
  · constructor <;> linarith

theorem unite_pos (p : ℕ) (x : ℚ) : 0 < unite p x := by
  rw [unite]
  positivity

/-- half of it is a `2 ^ p`-th of the number at most -/
theorem unite_le (hx : x ≠ 0) : unite p x / 2 ≤ |x| / 2 ^ p := by
  have hlog : (2 : ℚ) ^ Int.log 2 |x| ≤ |x| := by
    exact_mod_cast Int.zpow_log_le_self (b := 2) (by decide) (abs_pos.2 hx)
  have hunite : unite p x / 2 = 2 ^ Int.log 2 |x| / 2 ^ p := by
    rw [unite, zpow_sub₀ two_ne_zero, zpow_add_one₀ two_ne_zero, zpow_natCast]
    ring
  rw [hunite]
  gcongr

theorem abs_arrondi_sub_le (p : ℕ) (x : ℚ) : |arrondi p x - x| ≤ |x| / 2 ^ p := by
  by_cases hx : x = 0
  · simp [hx, arrondi, auPlusProche]
  · have hu := unite_pos p x
    have heq : arrondi p x - x = (auPlusProche (x / unite p x) - x / unite p x) * unite p x := by
      rw [arrondi, sub_mul, div_mul_cancel₀ x hu.ne']
    calc |arrondi p x - x| = |(auPlusProche (x / unite p x) : ℚ) - x / unite p x| * unite p x := by
          rw [heq, abs_mul, abs_of_pos hu]
      _ ≤ 1 / 2 * unite p x := by
          gcongr
          exact abs_auPlusProche_sub_le _
      _ = unite p x / 2 := by ring
      _ ≤ |x| / 2 ^ p := unite_le hx

/-! ## Approximations -/

/-- `x` stands for `y`, which is `m` at most, with an error of `e` at most -/
structure Approche (x y e m : ℚ) : Prop where
  ecart : |x - y| ≤ e
  grandeur : |y| ≤ m

theorem Approche.exacte (h : |x| ≤ m) : Approche x x 0 m :=
  ⟨by simp, h⟩

theorem Approche.abs_le (h : Approche x y e m) : |x| ≤ e + m := by
  calc |x| = |(x - y) + y| := by rw [sub_add_cancel]
    _ ≤ |x - y| + |y| := abs_add_le ..
    _ ≤ e + m := add_le_add h.ecart h.grandeur

theorem Approche.arrondi (p : ℕ) (h : Approche x y e m) : Approche (arrondi p x) y (e + (e + m) / 2 ^ p) m := by
  refine ⟨?_, h.grandeur⟩
  calc |Flottant.arrondi p x - y| ≤ |Flottant.arrondi p x - x| + |x - y| := abs_sub_le ..
    _ ≤ |x| / 2 ^ p + e := add_le_add (abs_arrondi_sub_le p x) h.ecart
    _ ≤ (e + m) / 2 ^ p + e := by
        gcongr
        exact h.abs_le
    _ = e + (e + m) / 2 ^ p := add_comm ..

theorem Approche.add (h : Approche x y e m) (h' : Approche x' y' e' m') :
    Approche (x + x') (y + y') (e + e') (m + m') := by
  refine ⟨?_, (abs_add_le ..).trans (add_le_add h.grandeur h'.grandeur)⟩
  rw [add_sub_add_comm]
  exact (abs_add_le ..).trans (add_le_add h.ecart h'.ecart)

theorem Approche.neg (h : Approche x y e m) : Approche (-x) (-y) e m := by
  refine ⟨?_, (abs_neg y).trans_le h.grandeur⟩
  rw [neg_sub_neg, abs_sub_comm]
  exact h.ecart

theorem Approche.sub (h : Approche x y e m) (h' : Approche x' y' e' m') :
    Approche (x - x') (y - y') (e + e') (m + m') := by
  rw [sub_eq_add_neg, sub_eq_add_neg]
  exact h.add h'.neg

/-- by an exact factor -/
theorem Approche.mul_left {c k : ℚ} (hc : |c| ≤ k) (h : Approche x y e m) :
    Approche (c * x) (c * y) (k * e) (k * m) := by
  have hk : 0 ≤ k := (abs_nonneg c).trans hc
  refine ⟨?_, ?_⟩
  · rw [← mul_sub, abs_mul]
    exact mul_le_mul hc h.ecart (abs_nonneg _) hk
  · rw [abs_mul]
    exact mul_le_mul hc h.grandeur (abs_nonneg _) hk

theorem Approche.mul_right {c k : ℚ} (hc : |c| ≤ k) (h : Approche x y e m) :
    Approche (x * c) (y * c) (k * e) (k * m) := by
  rw [mul_comm x, mul_comm y]
  exact h.mul_left hc

end Semestre6.Flottant
