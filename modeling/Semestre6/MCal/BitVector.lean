/-
Bit_Vector.ml: bit vectors, the least significant bit first, over any module of two values. Integers are unbounded.

- `bitsToInt_cons`: the decoder, Horner's rule on the reversed list, gives the binary value of the vector;
- `aller_retour`, `intToBits_sansZeros`: the encoder and the decoder are inverse of each other, up to the most
  significant zeros of a vector;
- `aller_retour`: these, with what `double` and `half` do to the value;
- `suivant_iff`: `inc` adds 1 exactly to the vectors that hold a zero: on the last bit the carry is put before the
  zero that replaces it;
- `incs_iff`: from the encoding of n, k calls reach n + k exactly when n + k has no more bits than n.
Witness that the condition is needed: `inc_un`, one plus one.
-/
import Mathlib.Tactic
import Mathlib.Data.Nat.Digits.Lemmas
import Mathlib.Data.Nat.Size

namespace Semestre6.BitVector

/-- `Two_Values_MT`: the type is abstract, so that the two constants are its only values -/
class TwoValues (bit : Type) [DecidableEq bit] where
  zero : bit
  unit : bit
  unit_ne_zero : unit ≠ zero
  eq_or : ∀ b : bit, b = zero ∨ b = unit

/-- `Bit_as_Boolean` -/
instance : TwoValues Bool := ⟨false, true, by decide, by decide⟩

inductive Exn where
  | assertFailure
  | failure (message : String)
deriving DecidableEq, Repr

variable {bit : Type} [DecidableEq bit] [TwoValues bit]

open TwoValues

theorem sub_tmod_tdiv (i : ℤ) : (i - i.tmod 2).tdiv 2 = i.tdiv 2 := by
  have hi := Int.mul_tdiv_add_tmod i 2
  have h2 : i - i.tmod 2 = 2 * i.tdiv 2 := by omega
  rw [h2, Int.mul_tdiv_cancel_left _ two_ne_zero]

/-- `mod` and `/` round towards zero -/
def intToBits (i : ℤ) : List bit :=
  if i = 0 then [zero]
  else if i = 1 then [unit]
  else
    let r := i.tmod 2
    (if r = 0 then zero else unit) :: intToBits ((i - r).tdiv 2)
termination_by i.natAbs
decreasing_by
  rw [sub_tmod_tdiv, Int.natAbs_tdiv]
  exact Nat.div_lt_self (by omega) one_lt_two

def horner (int : ℤ) : List bit → ℤ
  | [] => int
  | b :: bits => if b = zero then horner (2 * int) bits else horner (2 * int + 1) bits

def bitsToInt (bits : List bit) : Option ℤ :=
  match bits with
  | [] => none
  | _ => some (horner 0 bits.reverse)

def unsafeBitsToInt (bits : List bit) : Except Exn ℤ :=
  match bitsToInt bits with
  | some int => .ok int
  | none => .error .assertFailure

def inc : List bit → Except Exn (List bit)
  | [] => .error .assertFailure
  | [b] => if b = zero then .ok [unit] else .ok [unit, zero]
  | b :: bits => if b = zero then .ok (unit :: bits) else (inc bits).map (zero :: ·)

def double (bits : List bit) : List bit := zero :: bits

/-- `List.tl` -/
def half : List bit → Except Exn (List bit)
  | [] => .error (.failure "tl")
  | _ :: bits => .ok bits

/-! ## The value of a vector -/

def chiffre (b : bit) : ℕ := if b = zero then 0 else 1

def valeur (v : List bit) : ℕ := Nat.ofDigits 2 (v.map chiffre)

variable {b c : bit} {v w : List bit} {n k : ℕ}

@[simp] theorem chiffre_zero : chiffre (zero : bit) = 0 := if_pos rfl

@[simp] theorem chiffre_unit : chiffre (unit : bit) = 1 := if_neg unit_ne_zero

theorem chiffre_lt (b : bit) : chiffre b < 2 := by
  unfold chiffre
  split_ifs <;> omega

@[simp] theorem valeur_nil : valeur ([] : List bit) = 0 := rfl

@[simp] theorem valeur_cons (b : bit) (v : List bit) : valeur (b :: v) = chiffre b + 2 * valeur v := by
  rw [valeur, List.map_cons, Nat.ofDigits_cons]
  rfl

theorem valeur_lt (v : List bit) : valeur v < 2 ^ v.length := by
  have hdigits : ∀ d ∈ v.map chiffre, d < 2 := by
    intro d hd
    obtain ⟨b, -, rfl⟩ := List.mem_map.1 hd
    exact chiffre_lt b
  simpa [valeur] using Nat.ofDigits_lt_base_pow_length one_lt_two hdigits

theorem valeur_append (v w : List bit) : valeur (v ++ w) = valeur v + 2 ^ v.length * valeur w := by
  rw [valeur, List.map_append, Nat.ofDigits_append, List.length_map]
  rfl

theorem horner_append (int : ℤ) (v w : List bit) : horner int (v ++ w) = horner (horner int v) w := by
  induction v generalizing int with
  | nil => rfl
  | cons b v ih =>
    rw [List.cons_append, horner, horner]
    split_ifs <;> exact ih _

theorem horner_reverse (v : List bit) : horner 0 v.reverse = valeur v := by
  induction v with
  | nil => rfl
  | cons b v ih =>
    rw [List.reverse_cons, horner_append, ih, valeur_cons, horner, horner, horner, chiffre]
    split_ifs <;> push_cast <;> ring

/-- the decoder gives the binary value -/
theorem bitsToInt_cons (b : bit) (v : List bit) : bitsToInt (b :: v) = some (valeur (b :: v) : ℤ) :=
  congrArg some (horner_reverse (b :: v))

theorem bitsToInt_of_ne_nil (hv : v ≠ []) : bitsToInt v = some (valeur v : ℤ) := by
  obtain ⟨b, v, rfl⟩ := List.exists_cons_of_ne_nil hv
  exact bitsToInt_cons b v

theorem unsafeBitsToInt_of_ne_nil (hv : v ≠ []) : unsafeBitsToInt v = .ok (valeur v : ℤ) := by
  rw [unsafeBitsToInt, bitsToInt_of_ne_nil hv]

/-! ## The encoder -/

theorem intToBits_zero : intToBits 0 = [(zero : bit)] := by
  rw [intToBits, if_pos rfl]

theorem intToBits_one : intToBits 1 = [(unit : bit)] := by
  rw [intToBits, if_neg one_ne_zero, if_pos rfl]

theorem intToBits_of_two_le (hn : 2 ≤ n) :
    intToBits (n : ℤ) = (if n % 2 = 0 then zero else (unit : bit)) :: intToBits ((n / 2 : ℕ) : ℤ) := by
  have hmod : (n : ℤ).tmod 2 = ((n % 2 : ℕ) : ℤ) := by rw [Int.tmod_eq_emod_of_nonneg n.cast_nonneg]; rfl
  have hdiv : (n : ℤ).tdiv 2 = ((n / 2 : ℕ) : ℤ) := by rw [Int.tdiv_eq_ediv_of_nonneg n.cast_nonneg]; rfl
  rw [intToBits, if_neg (by omega), if_neg (by omega)]
  dsimp only
  rw [sub_tmod_tdiv, hdiv]
  simp only [hmod, Nat.cast_eq_zero]

theorem chiffre_mod (n : ℕ) : chiffre (if n % 2 = 0 then zero else (unit : bit)) = n % 2 := by
  split_ifs with h
  · rw [chiffre_zero, h]
  · rw [chiffre_unit]
    omega

theorem intToBits_ne_nil (n : ℕ) : intToBits (n : ℤ) ≠ ([] : List bit) := by
  unfold intToBits
  split_ifs <;> exact List.cons_ne_nil _ _

theorem valeur_intToBits (n : ℕ) : valeur (intToBits (n : ℤ) : List bit) = n := by
  induction n using Nat.strong_induction_on with
  | h n ih =>
    match n with
    | 0 => rw [Nat.cast_zero, intToBits_zero]; simp
    | 1 => rw [Nat.cast_one, intToBits_one]; simp
    | n + 2 =>
      rw [intToBits_of_two_le (by omega), valeur_cons, chiffre_mod, ih _ (by omega)]
      omega

/-- the encoding has as many bits as the binary form of the number, and one for 0 -/
theorem length_intToBits (n : ℕ) : (intToBits (n : ℤ) : List bit).length = max 1 n.size := by
  induction n using Nat.strong_induction_on with
  | h n ih =>
    match n with
    | 0 => rw [Nat.cast_zero, intToBits_zero]; rfl
    | 1 => rw [Nat.cast_one, intToBits_one]; rfl
    | n + 2 =>
      have hpos : 0 < ((n + 2) / 2).size := Nat.size_pos.2 (by omega)
      have hsize : (n + 2).size = ((n + 2) / 2).size + 1 := by
        have hbit := Nat.bit_bodd_div2 (n + 2)
        have hne : Nat.bit (n + 2).bodd (n + 2).div2 ≠ 0 := by omega
        calc (n + 2).size = (Nat.bit (n + 2).bodd (n + 2).div2).size := by rw [hbit]
          _ = (n + 2).div2.size + 1 := Nat.size_bit hne
          _ = ((n + 2) / 2).size + 1 := by rw [Nat.div2_val]
      rw [intToBits_of_two_le (by omega), List.length_cons, ih _ (by omega), hsize]
      omega

/-- `w` is `v` without its most significant zeros, one bit kept -/
def SansZerosDeTete (v w : List bit) : Prop :=
  (∃ k, v = w ++ List.replicate k zero) ∧ (w.length = 1 ∨ w.getLast? = some unit)

theorem eq_replicate_of_valeur (h : valeur v = 0) : v = List.replicate v.length zero := by
  refine List.eq_replicate_iff.2 ⟨rfl, ?_⟩
  induction v with
  | nil => exact fun b hb => absurd hb List.not_mem_nil
  | cons b v ih =>
    rw [valeur_cons] at h
    have hb : b = zero := by
      by_contra hne
      rw [chiffre, if_neg hne] at h
      omega
    exact List.forall_mem_cons.2 ⟨hb, ih (by omega)⟩

theorem valeur_replicate (k : ℕ) : valeur (List.replicate k (zero : bit)) = 0 := by
  induction k with
  | zero => rfl
  | succ k ih => rw [List.replicate_succ, valeur_cons, ih, chiffre_zero]

/-- the encoding keeps no zero at its end -/
theorem getLast?_intToBits (hn : n ≠ 0) : (intToBits (n : ℤ) : List bit).getLast? = some unit := by
  induction n using Nat.strong_induction_on with
  | h n ih =>
    match n with
    | 0 => exact absurd rfl hn
    | 1 => rw [Nat.cast_one, intToBits_one]; rfl
    | n + 2 => rw [intToBits_of_two_le (by omega), List.getLast?_cons, ih _ (by omega) (by omega)]; rfl

theorem intToBits_chiffre (b : bit) : intToBits (chiffre b : ℤ) = [b] := by
  rcases TwoValues.eq_or b with rfl | rfl
  · rw [chiffre_zero, Nat.cast_zero, intToBits_zero]
  · rw [chiffre_unit, Nat.cast_one, intToBits_one]

theorem ite_chiffre (b : bit) (m : ℕ) : (if (chiffre b + 2 * m) % 2 = 0 then zero else unit) = b := by
  rcases TwoValues.eq_or b with rfl | rfl
  · rw [chiffre_zero, if_pos (by omega)]
  · rw [chiffre_unit, if_neg (by omega)]

theorem exists_intToBits_append (hv : v ≠ []) : ∃ k, v = intToBits (valeur v : ℤ) ++ List.replicate k zero := by
  induction v with
  | nil => exact absurd rfl hv
  | cons b v ih =>
    rw [valeur_cons]
    by_cases h0 : valeur v = 0
    · -- the bits after the first are zeros
      refine ⟨v.length, ?_⟩
      rw [h0, mul_zero, add_zero, intToBits_chiffre, List.singleton_append, ← eq_replicate_of_valeur h0]
    · have hne : v ≠ [] := fun h => h0 (h ▸ valeur_nil)
      obtain ⟨k, hk⟩ := ih hne
      have hdiv : (chiffre b + 2 * valeur v) / 2 = valeur v := by
        have := chiffre_lt b
        omega
      refine ⟨k, ?_⟩
      rw [intToBits_of_two_le (by omega), ite_chiffre, hdiv, List.cons_append, ← hk]

/-- the encoding of the value of a vector -/
theorem intToBits_sansZeros (hv : v ≠ []) : SansZerosDeTete v (intToBits (valeur v : ℤ)) := by
  refine ⟨exists_intToBits_append hv, ?_⟩
  by_cases h0 : valeur v = 0
  · rw [h0, Nat.cast_zero, intToBits_zero]
    exact .inl rfl
  · exact .inr (getLast?_intToBits h0)

theorem half_valeur (b : bit) (hv : v ≠ []) : bitsToInt v = some ((valeur (b :: v) : ℤ) / 2) := by
  have := chiffre_lt b
  rw [bitsToInt_of_ne_nil hv, valeur_cons]
  congr 1
  omega

theorem valeur_of_bitsToInt {m : ℤ} (h : bitsToInt v = some m) : v ≠ [] ∧ m = valeur v := by
  have hv : v ≠ [] := by
    rintro rfl
    cases h
  rw [bitsToInt_of_ne_nil hv] at h
  exact ⟨hv, (Option.some.inj h).symm⟩

/-- **Round trips of the encoding**, and the values of `double` and `half`. -/
theorem aller_retour (n : ℕ) {m : ℤ} (h : bitsToInt v = some m) :
    bitsToInt (intToBits (n : ℤ) : List bit) = some (n : ℤ) ∧ SansZerosDeTete v (intToBits m) ∧
      (bitsToInt (double v) = some (2 * m) ∧ half (double v) = .ok v) ∧
      (2 ≤ v.length → ∃ w, half v = .ok w ∧ bitsToInt w = some (m / 2)) := by
  obtain ⟨hv, rfl⟩ := valeur_of_bitsToInt h
  refine ⟨?_, intToBits_sansZeros hv, ⟨?_, rfl⟩, ?_⟩
  · rw [bitsToInt_of_ne_nil (intToBits_ne_nil n), valeur_intToBits]
  · rw [double, bitsToInt_cons, valeur_cons, chiffre_zero, zero_add]
    push_cast
    rfl
  · intro hlen
    match v with
    | b :: c :: v => exact ⟨c :: v, rfl, half_valeur b (List.cons_ne_nil c v)⟩

theorem aller_retour_deux : bitsToInt (intToBits ((5 : ℕ) : ℤ) : List Bool) = some ((5 : ℕ) : ℤ) ∧
    SansZerosDeTete [false, true, false] (intToBits 2 : List Bool) ∧
      (bitsToInt (double [false, true, false]) = some (2 * 2) ∧
        half (double [false, true, false]) = .ok [false, true, false]) ∧
      (2 ≤ [false, true, false].length → ∃ w, half [false, true, false] = .ok w ∧ bitsToInt w = some ((2 : ℤ) / 2)) :=
  aller_retour 5 rfl

/-! ## Counting -/

/-- a vector without a zero is the greatest of its length -/
theorem zero_mem_iff (v : List bit) : zero ∈ v ↔ valeur v + 1 < 2 ^ v.length := by
  induction v with
  | nil => simp
  | cons b v ih =>
    have hlt := valeur_lt v
    rw [List.mem_cons, valeur_cons, List.length_cons, pow_succ, ih]
    rcases TwoValues.eq_or b with rfl | rfl
    · rw [chiffre_zero]
      exact iff_of_true (.inl rfl) (by omega)
    · rw [chiffre_unit, or_iff_right unit_ne_zero.symm]
      omega

/-- what `inc` does to a vector: the carry stops at a zero, or falls short of a new bit -/
theorem inc_spec (hv : v ≠ []) : ∃ w, inc v = .ok w ∧ w ≠ [] ∧
    (zero ∈ v → valeur w = valeur v + 1 ∧ w.length = v.length) ∧ (zero ∉ v → valeur w < valeur v + 1) := by
  induction v with
  | nil => exact absurd rfl hv
  | cons b v ih =>
    match v with
    | [] =>
      rcases TwoValues.eq_or b with rfl | rfl
      · exact ⟨[unit], if_pos rfl, by simp, by simp, by simp⟩
      · exact ⟨[unit, zero], if_neg unit_ne_zero, by simp, by simp [unit_ne_zero.symm], by simp⟩
    | c :: v =>
      rcases TwoValues.eq_or b with rfl | rfl
      · exact ⟨unit :: c :: v, if_pos rfl, List.cons_ne_nil _ _, by simp [Nat.add_comm], by simp⟩
      · obtain ⟨w, hw, -, hmem, hnot⟩ := ih (List.cons_ne_nil c v)
        refine ⟨zero :: w, ?_, List.cons_ne_nil _ _, ?_, ?_⟩
        · rw [inc, if_neg unit_ne_zero, hw]
          · rfl
          · exact List.cons_ne_nil c v
        · intro h
          obtain ⟨hval, hlen⟩ := hmem ((List.mem_cons.1 h).resolve_left unit_ne_zero.symm)
          rw [valeur_cons, valeur_cons unit, hval, chiffre_zero, chiffre_unit, List.length_cons, hlen]
          exact ⟨by omega, rfl⟩
        · intro h
          have hval := hnot fun hz => h (List.mem_cons_of_mem _ hz)
          rw [valeur_cons, valeur_cons unit, chiffre_zero, chiffre_unit]
          omega

/-- `inc` adds 1 to the value of the vector -/
def Suivant (v : List bit) : Prop := ∃ w i, inc v = .ok w ∧ unsafeBitsToInt v = .ok i ∧ unsafeBitsToInt w = .ok (i + 1)

theorem suivant_iff (hv : v ≠ []) : Suivant v ↔ zero ∈ v := by
  obtain ⟨w, hw, hne, hmem, hnot⟩ := inc_spec hv
  unfold Suivant
  rw [hw, unsafeBitsToInt_of_ne_nil hv]
  apply Iff.intro
  · rintro ⟨_, _, hw', hi, h⟩
    obtain rfl := Except.ok.inj hw'
    obtain rfl := Except.ok.inj hi
    rw [unsafeBitsToInt_of_ne_nil hne, Except.ok.injEq] at h
    by_contra hz
    have hlt := hnot hz
    omega
  · intro hz
    refine ⟨w, _, rfl, rfl, ?_⟩
    rw [unsafeBitsToInt_of_ne_nil hne, (hmem hz).1]
    rfl

/-- `k` calls of `inc` -/
def incs : ℕ → List bit → Except Exn (List bit)
  | 0, v => .ok v
  | k + 1, v => incs k v >>= inc

/-- a vector whose value is short of `m`, or is `m` with as many bits as at the start -/
def Compte (l m : ℕ) (v : List bit) : Prop :=
  v ≠ [] ∧ ((m < 2 ^ l ∧ valeur v = m ∧ v.length = l) ∨ (2 ^ l ≤ m ∧ valeur v < m))

theorem Compte.inc {l m : ℕ} (h : Compte l m v) : ∃ w, inc v = .ok w ∧ Compte l (m + 1) w := by
  obtain ⟨hv, h⟩ := h
  obtain ⟨w, hw, hne, hmem, hnot⟩ := inc_spec hv
  refine ⟨w, hw, hne, ?_⟩
  rw [zero_mem_iff] at hmem hnot
  have hle : valeur w ≤ valeur v + 1 := by
    by_cases hz : valeur v + 1 < 2 ^ v.length
    · exact (hmem hz).1.le
    · exact (hnot hz).le
  rcases h with ⟨hm, hval, hlen⟩ | ⟨hm, hval⟩
  · by_cases hlt : m + 1 < 2 ^ l
    · obtain ⟨hw, hl⟩ := hmem (by rw [hval, hlen]; exact hlt)
      exact .inl ⟨hlt, by omega, hl.trans hlen⟩
    · -- the vector of ones: the value does not follow
      have hw := hnot (by rw [hval, hlen]; exact hlt)
      exact .inr ⟨by omega, by omega⟩
  · exact .inr ⟨by omega, by omega⟩

theorem compte_incs (n k : ℕ) :
    ∃ v : List bit, incs k (intToBits (n : ℤ)) = .ok v ∧ Compte (max 1 n.size) (n + k) v := by
  induction k with
  | zero =>
    refine ⟨_, rfl, intToBits_ne_nil n, .inl ⟨?_, valeur_intToBits n, length_intToBits n⟩⟩
    exact Nat.size_le.1 (le_max_right 1 n.size)
  | succ k ih =>
    obtain ⟨v, hv, hc⟩ := ih
    obtain ⟨w, hw, hc'⟩ := hc.inc
    refine ⟨w, ?_, hc'⟩
    rw [incs, hv]
    exact hw

theorem incs_iff (n k : ℕ) :
    (∃ v : List bit, incs k (intToBits (n : ℤ)) = .ok v ∧ unsafeBitsToInt v = .ok ((n : ℤ) + k)) ↔
      n + k < 2 ^ max 1 n.size := by
  obtain ⟨v, hv, hne, hc⟩ : ∃ v : List bit, incs k (intToBits (n : ℤ)) = .ok v ∧ Compte (max 1 n.size) (n + k) v :=
    compte_incs n k
  rw [hv]
  apply Iff.intro
  · rintro ⟨_, hw, h⟩
    obtain rfl := Except.ok.inj hw
    rw [unsafeBitsToInt_of_ne_nil hne, Except.ok.injEq] at h
    rcases hc with hc | hc
    · exact hc.1
    · omega
  · intro h
    refine ⟨v, rfl, ?_⟩
    rw [unsafeBitsToInt_of_ne_nil hne]
    rcases hc with hc | hc
    · rw [hc.2.1]
      rfl
    · omega

/-- **When `inc` counts**: one call, and any number of calls. -/
theorem inc_compte_iff (b : bit) (v : List bit) (n k : ℕ) :
    (Suivant (b :: v) ↔ zero ∈ b :: v) ∧
      ((∃ w : List bit, incs k (intToBits (n : ℤ)) = .ok w ∧ unsafeBitsToInt w = .ok ((n : ℤ) + k)) ↔
        n + k < 2 ^ max 1 n.size) :=
  ⟨suivant_iff (List.cons_ne_nil b v), incs_iff n k⟩

/-- **One plus one**: the new bit is put on the wrong side, and the value stays one. -/
theorem inc_un : inc [true] = .ok [true, false] ∧ unsafeBitsToInt [true, false] = .ok 1 ∧ ¬ Suivant [true] := by
  refine ⟨rfl, rfl, ?_⟩
  rw [suivant_iff (List.cons_ne_nil _ _)]
  decide

end Semestre6.BitVector
