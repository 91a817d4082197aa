/-
Byte files and byte buffers, over any element type with a zero.

- `writeAt f p d`: a file after `write` of `d` at offset `p` (a hole before `p` reads as zeros, what follows stays);
  `writeAt_writeAt`: consecutive writes are one write; `writeAt_prefix`: rewriting a stretch of a source over a prefix
  of it gives a prefix;
- `readInto b d`: a buffer after `read` of `d` into it, the bytes past the end of `d` kept from before;
- `cstr b`: the C string at the start of a buffer; `cstr_readInto_iff`: a string read without its terminator is read
  back whole exactly when the byte left behind it was a zero, and `cstr_readInto_set_iff` the same when a terminator is
  then written one byte too far.
-/
import Mathlib.Tactic

namespace Semestre6.Octets

variable {α : Type*} [Zero α]

/-! ## Files -/

def writeAt (f : List α) (p : ℕ) (d : List α) : List α :=
  if d = [] then f else f.take p ++ List.replicate (p - f.length) 0 ++ d ++ f.drop (p + d.length)

@[simp] theorem writeAt_nil (f : List α) (p : ℕ) : writeAt f p [] = f := by simp [writeAt]

theorem writeAt_zero (f d : List α) : writeAt f 0 d = d ++ f.drop d.length := by
  unfold writeAt
  split_ifs with h
  · simp [h]
  · simp

theorem length_writeAt (f : List α) (p : ℕ) (d : List α) (hd : d ≠ []) :
    (writeAt f p d).length = max f.length (p + d.length) := by
  simp only [writeAt, hd, if_false, List.length_append, List.length_take, List.length_replicate, List.length_drop]
  omega

/-- the part of a file before and up to the end of a write -/
theorem take_writeAt (f : List α) (p : ℕ) (d : List α) (hd : d ≠ []) :
    (writeAt f p d).take (p + d.length) = f.take p ++ List.replicate (p - f.length) 0 ++ d := by
  rw [writeAt, if_neg hd, List.take_append_of_le_length]
  · rw [List.take_of_length_le]
    simp only [List.length_append, List.length_take, List.length_replicate]; omega
  · simp only [List.length_append, List.length_take, List.length_replicate]; omega

theorem drop_writeAt (f : List α) (p : ℕ) (d : List α) (n : ℕ) (hn : p + d.length ≤ n) :
    (writeAt f p d).drop n = f.drop n := by
  by_cases hd : d = []
  · simp [hd]
  · rw [writeAt, if_neg hd, List.drop_append]
    have h1 : (f.take p ++ List.replicate (p - f.length) 0 ++ d).length = p + d.length := by
      simp only [List.length_append, List.length_take, List.length_replicate]; omega
    rw [List.drop_of_length_le (by omega), List.nil_append, h1, List.drop_drop]
    congr 1; omega

/-- two consecutive writes are one -/
theorem writeAt_writeAt (f : List α) (p : ℕ) (d e : List α) :
    writeAt (writeAt f p d) (p + d.length) e = writeAt f p (d ++ e) := by
  by_cases hd : d = []
  · simp [hd]
  by_cases he : e = []
  · simp [he]
  have hl := length_writeAt f p d hd
  have h0 : p + d.length - (writeAt f p d).length = 0 := by omega
  rw [writeAt, if_neg he, take_writeAt f p d hd, h0, drop_writeAt f p d _ (by omega), writeAt,
    if_neg (by simp [hd])]
  simp [List.append_assoc, Nat.add_assoc]

/-- a stretch of `src` from `p` written over a prefix of `src` that reaches `p` gives a prefix of `src` -/
theorem writeAt_prefix (src : List α) (k p n : ℕ) (hp : p ≤ k) (hk : k ≤ src.length) :
    writeAt (src.take k) p ((src.drop p).take n) = src.take (max k (p + n)) := by
  by_cases hd : (src.drop p).take n = []
  · rw [hd, writeAt_nil]
    have h : n = 0 ∨ src.length ≤ p := by simpa using hd
    rcases h with h | h
    · rw [h, Nat.add_zero, Nat.max_eq_left hp]
    · rw [List.take_of_length_le (by omega), List.take_of_length_le (by omega)]
  · have hlen : ((src.drop p).take n).length = min n (src.length - p) := by simp
    have h0 : p - (src.take k).length = 0 := by simp; omega
    have hpre : (src.take k).take p ++ (src.drop p).take n = src.take (p + n) := by
      rw [List.take_take, Nat.min_eq_left hp, List.take_add]
    rw [writeAt, if_neg hd, h0, List.replicate_zero, List.append_nil, hpre, hlen]
    by_cases hkn : k ≤ p + n
    · rw [Nat.max_eq_right hkn, List.drop_of_length_le (by simp; omega), List.append_nil]
    · have hmin : p + min n (src.length - p) = p + n := by omega
      have hkn' : p + n ≤ k := by omega
      calc src.take (p + n) ++ (src.take k).drop (p + min n (src.length - p))
          = (src.take k).take (p + n) ++ (src.take k).drop (p + n) := by
            rw [List.take_take, Nat.min_eq_left hkn', hmin]
        _ = src.take k := List.take_append_drop _ _
        _ = src.take (max k (p + n)) := by rw [Nat.max_eq_left hkn']

/-! ## Buffers and C strings -/

/-- a buffer after a `read` that returned `d` -/
def readInto (b d : List α) : List α := d ++ b.drop d.length

variable [DecidableEq α]

/-- the bytes before the first zero -/
def cstr (b : List α) : List α := b.takeWhile (· ≠ 0)

theorem cstr_append_zero (d r : List α) (hd : ∀ x ∈ d, x ≠ 0) : cstr (d ++ 0 :: r) = d := by
  rw [cstr, List.takeWhile_append_of_pos (by simpa using hd)]
  simp

theorem cstr_concat_zero (d : List α) : cstr (d ++ [0]) = cstr d := by
  induction d with
  | nil => simp [cstr]
  | cons x d ih =>
    rw [cstr, cstr] at ih ⊢
    rw [List.cons_append, List.takeWhile_cons, List.takeWhile_cons, ih]

theorem cstr_ne_zero {b : List α} {x : α} (h : x ∈ cstr b) : x ≠ 0 := by
  have hall : (b.takeWhile (· ≠ 0)).all (· ≠ 0) = true := List.all_takeWhile
  simpa using List.all_eq_true.1 hall x h

/-- a string read with its terminator hides what follows it -/
theorem cstr_readInto_of_mem {d : List α} (b : List α) (h : 0 ∈ d) : cstr (readInto b d) = cstr d := by
  have hne : (d.takeWhile (· ≠ 0)).length ≠ d.length := by
    intro he
    have htw : cstr d = d := (List.takeWhile_prefix _).eq_of_length he
    exact cstr_ne_zero (htw.symm ▸ h) rfl
  rw [readInto, cstr, List.takeWhile_append, if_neg hne, cstr]

/-- a string cut behind its terminator -/
theorem cstr_take_of_mem {b : List α} {n : ℕ} (h : 0 ∈ b.take n) : cstr (b.take n) = cstr b := by
  have hlire : readInto b (b.take n) = b := by
    rcases Nat.le_total n b.length with hn | hn <;> simp [readInto, hn]
  rw [← cstr_readInto_of_mem b h, hlire]

/-- a string read without a terminator is read back whole iff the byte that was left behind it is a zero -/
theorem cstr_readInto_iff {b d : List α} (hd : ∀ x ∈ d, x ≠ 0) (hl : d.length < b.length) :
    cstr (readInto b d) = d ↔ b[d.length] = 0 := by
  rw [readInto, List.drop_eq_getElem_cons hl]
  constructor
  · intro h
    by_contra hne
    rw [cstr, List.takeWhile_append_of_pos (by simpa using hd), List.takeWhile_cons_of_pos (by simpa using hne)] at h
    simpa using congrArg List.length h
  · intro h
    rw [h, cstr_append_zero d _ hd]

/-- a terminator written one byte too far does not change that -/
theorem cstr_readInto_set_iff {b d : List α} (hd : ∀ x ∈ d, x ≠ 0) (hl : d.length < b.length) :
    cstr ((readInto b d).set (d.length + 1) 0) = d ↔ b[d.length] = 0 := by
  have hset : (readInto b d).set (d.length + 1) 0 = readInto (b.set (d.length + 1) 0) d := by
    calc (d ++ b.drop d.length).set (d.length + 1) 0
        = d ++ (b.drop d.length).set (d.length + 1 - d.length) 0 := by rw [List.set_append, if_neg (by omega)]
      _ = d ++ (b.set (d.length + 1) 0).drop d.length := by rw [List.drop_set, if_neg (by omega)]
  rw [hset, cstr_readInto_iff hd (by simpa using hl), List.getElem_set_ne (by omega)]

end Semestre6.Octets
