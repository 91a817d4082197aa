/-
sousseq.java: the length of the longest common subsequence of two strings, by recursion on the suffixes (plssc) and by
a table on the prefixes (matrice).

- `plssc_eq`: the recursion, from any pair of indices in range, gives the optimum for the two suffixes;
- `Remplie.pas`: one turn of the inner loop fills one more cell with the optimum for its two prefixes;
- `matrice_eq_plssc`: both return the greatest length of a common subsequence.
-/
import Mathlib.Tactic
import Semestre6.Lib.Boucle
import Semestre6.Lib.SousSuite
import Semestre6.Texte.RechercheMotif

namespace Semestre6.Texte.SousSeq

open Boucle SousSuite

inductive Arret where
  | stringIndexOutOfBounds
  | arrayIndexOutOfBounds
deriving DecidableEq, Repr

def charAt (s : JString) (i : ℤ) : Except Arret (BitVec 16) :=
  (s.charAt i).mapError fun | .stringIndexOutOfBounds => .stringIndexOutOfBounds

def max (a b : ℤ) : ℤ := if a > b then a else b

theorem lt_length_of_charAt {s : JString} {i : ℕ} {c : BitVec 16} (h : charAt s i = .ok c) :
    ∃ hi : i < s.length, s.unites[i] = c := by
  rw [charAt, JString.charAt, if_pos (Int.natCast_nonneg i), Int.toNat_natCast] at h
  by_cases hi : i < s.unites.length
  · rw [List.getElem?_eq_getElem hi] at h
    exact ⟨hi, Except.ok.inj h⟩
  · rw [List.getElem?_eq_none (not_lt.1 hi)] at h
    cases h

def plssc (S1 S2 : JString) (i j : ℕ) : Except Arret ℤ :=
  if i = S1.length ∨ j = S2.length then .ok 0
  else
    match ha : charAt S1 i, hb : charAt S2 j with
    | .error e, _ => .error e
    | _, .error e => .error e
    | .ok a, .ok b =>
      if a = b then do
        let n ← plssc S1 S2 (i + 1) (j + 1)
        .ok (1 + n)
      else if a ≠ b then do
        let n ← plssc S1 S2 i (j + 1)
        let k ← plssc S1 S2 (i + 1) j
        .ok (max n k)
      else .ok (-1)
termination_by (S1.length - i) + (S2.length - j)
decreasing_by
  all_goals
    obtain ⟨hi, -⟩ := lt_length_of_charAt ha
    obtain ⟨hj, -⟩ := lt_length_of_charAt hb
    omega

/-! ## The table -/

/-- `mat[i][j]` -/
def lit (mat : List (List ℤ)) (i j : ℤ) : Except Arret ℤ :=
  if 0 ≤ i ∧ 0 ≤ j then
    match mat[i.toNat]? >>= (·[j.toNat]?) with
    | some x => .ok x
    | none => .error .arrayIndexOutOfBounds
  else .error .arrayIndexOutOfBounds

/-- `mat[i][j] = x` -/
def ecrit (mat : List (List ℤ)) (i j : ℕ) (x : ℤ) : Except Arret (List (List ℤ)) :=
  match mat[i]? with
  | some ligne => if j < ligne.length then .ok (mat.set i (ligne.set j x)) else .error .arrayIndexOutOfBounds
  | none => .error .arrayIndexOutOfBounds

/-- the cell `mat[i][j]` from the ones above and before it -/
def remplit (S1 S2 : JString) (i j : ℕ) (mat : List (List ℤ)) : Except Arret (List (List ℤ)) := do
  let a ← charAt S1 (i - 1)
  let b ← charAt S2 (j - 1)
  if a = b then do
    let x ← lit mat (i - 1) (j - 1)
    ecrit mat i j (x + 1)
  else do
    let x ← lit mat i (j - 1)
    let y ← lit mat (i - 1) j
    ecrit mat i j (max x y)

/-- the numbers printed for the line `i` -/
def affiche (mat : List (List ℤ)) (jmax i : ℕ) : Except Arret (List ℤ) :=
  (List.range jmax).mapM fun j : ℕ => lit mat i j

/-- the lines printed, and the value returned: `i` and `j` are `imax` and `jmax` after the last loops -/
def matrice (S1 S2 : JString) : Except Arret (List (List ℤ) × ℤ) := do
  let imax := S1.length + 1
  let jmax := S2.length + 1
  let mat := List.replicate imax (List.replicate jmax 0)
  let mat ← pour 0 imax (fun i => pour 0 jmax fun j mat => ecrit mat i j 0) mat
  let mat ← pour 1 imax (fun i => pour 1 jmax fun j mat => remplit S1 S2 i j mat) mat
  let ecran ← (List.range imax).mapM (affiche mat jmax)
  let n ← lit mat ((imax : ℤ) - 1) ((jmax : ℤ) - 1)
  .ok (ecran, n)

/-! ## The recursion -/

variable {S1 S2 : JString} {i j : ℕ} {mat : List (List ℤ)}

theorem charAt_eq {s : JString} {i : ℕ} (h : i < s.length) : charAt s i = .ok s.unites[i] := by
  rw [charAt, JString.charAt_eq (List.getElem?_eq_getElem h)]
  rfl

theorem max_natCast (n k : ℕ) : max n k = ((Max.max n k : ℕ) : ℤ) := by
  rw [max]
  split_ifs with h
  · rw [Nat.max_eq_left (by omega)]
  · rw [Nat.max_eq_right (by omega)]

theorem plssc_of_lt (hi : i < S1.length) (hj : j < S2.length) :
    plssc S1 S2 i j =
      if S1.unites[i] = S2.unites[j] then plssc S1 S2 (i + 1) (j + 1) >>= fun n => .ok (1 + n)
      else plssc S1 S2 i (j + 1) >>= fun n => plssc S1 S2 (i + 1) j >>= fun k => .ok (max n k) := by
  rw [plssc, if_neg (by omega)]
  split
  next e he => simp [charAt_eq hi] at he
  next he _ => simp [charAt_eq hj] at he
  next a b ha hb =>
    obtain ⟨-, rfl⟩ := lt_length_of_charAt ha
    obtain ⟨-, rfl⟩ := lt_length_of_charAt hb
    split_ifs <;> simp_all

/-- **The recursion is right on the suffixes.** -/
theorem plssc_eq {i j : ℕ} (hi : i ≤ S1.length) (hj : j ≤ S2.length) :
    ∃ n : ℕ, plssc S1 S2 i j = .ok (n : ℤ) ∧ PlusLongue (S1.unites.drop i) (S2.unites.drop j) n := by
  by_cases h : i = S1.length ∨ j = S2.length
  · refine ⟨0, by rw [plssc, if_pos h]; rfl, ?_⟩
    rcases h with rfl | rfl
    · rw [JString.length, List.drop_length]
      exact plusLongue_nil_left _
    · rw [JString.length, List.drop_length]
      exact plusLongue_nil_right _
  · have hi' : i < S1.length := by omega
    have hj' : j < S2.length := by omega
    rw [plssc_of_lt hi' hj', List.drop_eq_getElem_cons hi', List.drop_eq_getElem_cons hj']
    by_cases hab : S1.unites[i] = S2.unites[j]
    · obtain ⟨n, hn, hp⟩ := plssc_eq (i := i + 1) (j := j + 1) hi' hj'
      refine ⟨n + 1, ?_, hab ▸ hp.cons_eq⟩
      rw [if_pos hab, hn, Nat.cast_succ, add_comm]
      rfl
    · obtain ⟨n, hn, hp⟩ := plssc_eq (i := i) (j := j + 1) hi hj'
      obtain ⟨k, hk, hq⟩ := plssc_eq (i := i + 1) (j := j) hi' hj
      rw [List.drop_eq_getElem_cons hi'] at hp
      rw [List.drop_eq_getElem_cons hj'] at hq
      refine ⟨Max.max n k, ?_, hp.cons_ne hab hq⟩
      rw [if_neg hab, hn, hk, ← max_natCast]
      rfl
termination_by (S1.length - i) + (S2.length - j)

/-! ## The loops -/

/-- the table has `imax` lines of `jmax` cells -/
structure Taille (S1 S2 : JString) (mat : List (List ℤ)) : Prop where
  lignes : mat.length = S1.length + 1
  colonnes : ∀ ligne ∈ mat, ligne.length = S2.length + 1

def cellule (mat : List (List ℤ)) (i j : ℕ) : ℤ := (mat.getD i []).getD j 0

theorem Taille.lit_eq (h : Taille S1 S2 mat) (hi : i ≤ S1.length) (hj : j ≤ S2.length) :
    lit mat i j = .ok (cellule mat i j) := by
  have hi' : i < mat.length := by rw [h.lignes]; omega
  have hj' : j < mat[i].length := by rw [h.colonnes _ (List.getElem_mem hi')]; omega
  rw [lit, if_pos ⟨Int.natCast_nonneg i, Int.natCast_nonneg j⟩, Int.toNat_natCast, Int.toNat_natCast, cellule]
  simp [hi', hj']

theorem Taille.ecrit_eq (h : Taille S1 S2 mat) (hi : i ≤ S1.length) (hj : j ≤ S2.length) (x : ℤ) :
    ∃ mat', ecrit mat i j x = .ok mat' ∧ Taille S1 S2 mat' ∧
      ∀ i' j', cellule mat' i' j' = if i' = i ∧ j' = j then x else cellule mat i' j' := by
  have hi' : i < mat.length := by rw [h.lignes]; omega
  have hj' : j < mat[i].length := by rw [h.colonnes _ (List.getElem_mem hi')]; omega
  refine ⟨mat.set i (mat[i].set j x), ?_, ⟨by rw [List.length_set, h.lignes], ?_⟩, ?_⟩
  · rw [ecrit, List.getElem?_eq_getElem hi']
    exact if_pos hj'
  · intro ligne hl
    rcases List.mem_or_eq_of_mem_set hl with hl | rfl
    · exact h.colonnes ligne hl
    · rw [List.length_set, h.colonnes _ (List.getElem_mem hi')]
  · intro i' j'
    by_cases he : i' = i
    · subst he
      by_cases he' : j' = j
      · simp [cellule, List.getD, hi', hj', he']
      · simp [cellule, List.getD, hi', Ne.symm he', he']
    · simp [cellule, List.getD, Ne.symm he, he]

/-- the cells before `mat[i][j]` in the order of the loops hold the optima of their prefixes -/
structure Remplie (S1 S2 : JString) (i j : ℕ) (mat : List (List ℤ)) : Prop where
  taille : Taille S1 S2 mat
  optimum : ∀ i' j', i' ≤ S1.length → j' ≤ S2.length → i' < i ∨ (i' = i ∧ j' < j) ∨ j' = 0 →
    ∃ n : ℕ, cellule mat i' j' = n ∧ PlusLongue (S1.unites.take i') (S2.unites.take j') n

theorem take_succ_eq {s : JString} (h : i < s.length) : s.unites.take (i + 1) = s.unites.take i ++ [s.unites[i]] := by
  rw [List.take_add_one, List.getElem?_eq_getElem h]
  rfl

theorem pred_natCast (i : ℕ) : ((i + 1 : ℕ) : ℤ) - 1 = i := by omega

/-- **One turn of the inner loop fills one cell.** -/
theorem Remplie.pas (h : Remplie S1 S2 (i + 1) (j + 1) mat) (hi : i < S1.length) (hj : j < S2.length) :
    ∃ mat', remplit S1 S2 (i + 1) (j + 1) mat = .ok mat' ∧ Remplie S1 S2 (i + 1) (j + 2) mat' := by
  -- the new cell holds the optimum, the others are kept
  suffices hx : ∃ n : ℕ, remplit S1 S2 (i + 1) (j + 1) mat = ecrit mat (i + 1) (j + 1) n ∧
      PlusLongue (S1.unites.take (i + 1)) (S2.unites.take (j + 1)) n by
    obtain ⟨n, hr, hn⟩ := hx
    obtain ⟨mat', hm, ht, hc⟩ := h.taille.ecrit_eq (i := i + 1) (j := j + 1) hi hj n
    refine ⟨mat', hr.trans hm, ht, ?_⟩
    intro i' j' hi' hj' hlt
    rw [hc]
    by_cases he : i' = i + 1 ∧ j' = j + 1
    · obtain ⟨rfl, rfl⟩ := he
      exact ⟨n, if_pos ⟨rfl, rfl⟩, hn⟩
    · rw [if_neg he]
      exact h.optimum i' j' hi' hj' (by omega)
  rw [remplit, pred_natCast, pred_natCast, charAt_eq hi, charAt_eq hj, take_succ_eq hi, take_succ_eq hj]
  change ∃ n : ℕ, (if S1.unites[i] = S2.unites[j] then _ else _) = _ ∧ _
  by_cases hab : S1.unites[i] = S2.unites[j]
  · obtain ⟨n, hn, hp⟩ := h.optimum i j hi.le hj.le (by omega)
    refine ⟨n + 1, ?_, hab ▸ hp.concat_eq⟩
    rw [if_pos hab, h.taille.lit_eq hi.le hj.le, hn]
    rfl
  · obtain ⟨n, hn, hp⟩ := h.optimum (i + 1) j hi hj.le (by omega)
    obtain ⟨k, hk, hq⟩ := h.optimum i (j + 1) hi.le hj (by omega)
    rw [take_succ_eq hi] at hp
    rw [take_succ_eq hj] at hq
    refine ⟨Max.max n k, ?_, hp.concat_ne hab hq⟩
    rw [if_neg hab, h.taille.lit_eq hi hj.le, h.taille.lit_eq hi.le hj, hn, hk, ← max_natCast]
    rfl

/-- the loops that write 0 in every cell -/
theorem zeros_eq (h : Taille S1 S2 mat) (hz : ∀ i j, cellule mat i j = 0) :
    ∃ mat', pour 0 (S1.length + 1) (fun i => pour 0 (S2.length + 1) fun j mat => ecrit mat i j 0) mat = .ok mat' ∧
      Taille S1 S2 mat' ∧ ∀ i j, cellule mat' i j = 0 := by
  apply pour_inv (fun _ mat => Taille S1 S2 mat ∧ ∀ i j, cellule mat i j = 0) (by omega) _ ⟨h, hz⟩
  intro i mat _ hi hm
  apply pour_inv (fun _ mat => Taille S1 S2 mat ∧ ∀ i j, cellule mat i j = 0) (by omega) _ hm
  intro j mat _ hj hm
  obtain ⟨mat', he, ht, hc⟩ := hm.1.ecrit_eq (i := i) (j := j) (by omega) (by omega) 0
  refine ⟨mat', he, ht, ?_⟩
  intro i' j'
  rw [hc, hm.2, ite_self]

/-- the inner loop fills a line -/
theorem remplit_ligne (hi : i < S1.length) (h : Remplie S1 S2 (i + 1) 1 mat) :
    ∃ mat', pour 1 (S2.length + 1) (fun j mat => remplit S1 S2 (i + 1) j mat) mat = .ok mat' ∧
      Remplie S1 S2 (i + 1) (S2.length + 1) mat' := by
  apply pour_inv (fun j mat => Remplie S1 S2 (i + 1) j mat) (by omega) _ h
  intro j mat hj hj' hm
  obtain ⟨j, rfl⟩ := Nat.exists_eq_add_of_le' hj
  exact hm.pas hi (by omega)

/-- the loops that fill the table -/
theorem remplit_eq (h : Taille S1 S2 mat) (hz : ∀ i j, cellule mat i j = 0) :
    ∃ mat', pour 1 (S1.length + 1) (fun i => pour 1 (S2.length + 1) fun j mat => remplit S1 S2 i j mat) mat = .ok mat' ∧
      Remplie S1 S2 (S1.length + 1) 1 mat' := by
  apply pour_inv (fun i mat => Remplie S1 S2 i 1 mat) (by omega)
  · intro i mat hi hi' hm
    obtain ⟨i, rfl⟩ := Nat.exists_eq_add_of_le' hi
    obtain ⟨mat', hp, hr⟩ := remplit_ligne (by omega) hm
    refine ⟨mat', hp, hr.taille, ?_⟩
    intro i' j' hi' hj' hlt
    exact hr.optimum i' j' hi' hj' (by omega)
  · refine ⟨h, ?_⟩
    intro i' j' hi' hj' hlt
    refine ⟨0, hz i' j', ?_⟩
    by_cases hi0 : i' = 0
    · rw [hi0, List.take_zero]
      exact plusLongue_nil_left _
    · obtain rfl : j' = 0 := by omega
      rw [List.take_zero]
      exact plusLongue_nil_right _

theorem mapM_eq_ok {α β : Type*} {f : α → Except Arret β} {g : α → β} {l : List α} (h : ∀ x ∈ l, f x = .ok (g x)) :
    l.mapM f = .ok (l.map g) := by
  induction l with
  | nil => rfl
  | cons x l ih =>
    rw [List.mapM_cons, h x List.mem_cons_self, ih fun y hy => h y (List.mem_cons_of_mem x hy)]
    rfl

/-- `matrice` ends; it prints the optima of all pairs of prefixes and returns the last -/
theorem matrice_eq (S1 S2 : JString) :
    ∃ mat, Remplie S1 S2 (S1.length + 1) 1 mat ∧ matrice S1 S2 =
      .ok ((List.range (S1.length + 1)).map fun i => (List.range (S2.length + 1)).map (cellule mat i),
        cellule mat S1.length S2.length) := by
  have hvide : Taille S1 S2 (List.replicate (S1.length + 1) (List.replicate (S2.length + 1) 0)) := by
    refine ⟨List.length_replicate, ?_⟩
    intro ligne hl
    rw [List.eq_of_mem_replicate hl, List.length_replicate]
  have hcellule : ∀ i j, cellule (List.replicate (S1.length + 1) (List.replicate (S2.length + 1) 0)) i j = 0 := by
    intro i j
    rw [cellule]
    by_cases hi : i < S1.length + 1 <;> by_cases hj : j < S2.length + 1 <;> simp [List.getD, hi, hj]
  obtain ⟨mat₀, h₀, ht, hz⟩ := zeros_eq hvide hcellule
  obtain ⟨mat, hm, hr⟩ := remplit_eq ht hz
  refine ⟨mat, hr, ?_⟩
  have hecran : (List.range (S1.length + 1)).mapM (affiche mat (S2.length + 1)) =
      .ok ((List.range (S1.length + 1)).map fun i => (List.range (S2.length + 1)).map (cellule mat i)) := by
    apply mapM_eq_ok
    intro i hi
    rw [List.mem_range] at hi
    rw [affiche]
    apply mapM_eq_ok
    intro j hj
    rw [List.mem_range] at hj
    exact hr.taille.lit_eq (by omega) (by omega)
  have hlit : lit mat ((S1.length + 1 : ℕ) - 1) ((S2.length + 1 : ℕ) - 1) = .ok (cellule mat S1.length S2.length) := by
    rw [pred_natCast, pred_natCast, hr.taille.lit_eq le_rfl le_rfl]
  rw [matrice]
  simp only [h₀, hm, hecran, hlit, bind, Except.bind]

/-- **Table and recursion agree**, on the greatest length of a common subsequence. -/
theorem matrice_eq_plssc (S1 S2 : JString) :
    ∃ (ecran : List (List ℤ)) (n : ℕ), matrice S1 S2 = .ok (ecran, (n : ℤ)) ∧ plssc S1 S2 0 0 = .ok (n : ℤ) ∧
      (∃ c : List (BitVec 16), c.Sublist S1.unites ∧ c.Sublist S2.unites ∧ c.length = n) ∧
      ∀ c : List (BitVec 16), c.Sublist S1.unites → c.Sublist S2.unites → c.length ≤ n := by
  obtain ⟨mat, hr, hm⟩ := matrice_eq S1 S2
  obtain ⟨n, hn, hp⟩ := hr.optimum S1.length S2.length le_rfl le_rfl (by omega)
  obtain ⟨k, hk, hq⟩ := plssc_eq S1.unites.length.zero_le S2.unites.length.zero_le
  rw [JString.length, JString.length, List.take_length, List.take_length] at hp
  rw [List.drop_zero, List.drop_zero] at hq
  obtain rfl : n = k := hp.unique hq
  rw [hn] at hm
  refine ⟨_, n, hm, hk, ?_, ?_⟩
  · obtain ⟨c, ⟨hl, hl'⟩, hc⟩ := hp.1
    exact ⟨c, hl, hl', hc⟩
  · intro c hl hl'
    exact hp.2 ⟨c, ⟨hl, hl'⟩, rfl⟩

end Semestre6.Texte.SousSeq
