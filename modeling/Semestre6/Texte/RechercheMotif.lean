/-
The two pattern searches of RechercheMotif: `recherche` compares at every index, `rechercheKR` only where the sums of
the characters, kept from one window to the next in an int, agree. A search gives the indices it prints, or the
exception of a charAt out of range.

- `hash_eq`, `updateHash_eq`: the hash of a window is its sum in the ring of the 32-bit integers, and the update of the
  hash of the window before is that sum;
- `compare_eq`: the inner loop reaches the length of the pattern exactly when the window is the pattern;
- `rechercheDe_spec`, `rechercheKRDe_eq`: the runs of the two outer loops;
- `memes_indices`: both searches end without an exception and print, in order, every index where the pattern occurs.
-/
import Mathlib.Tactic
import Mathlib.Data.BitVec
import Semestre6.Lib.Fenetre

namespace Semestre6.Texte

open Fenetre

/-- a String: its UTF-16 units. The virtual machine has no array of 2^31 - 1 elements, so the int `length() + 1` does
not wrap -/
structure JString where
  unites : List (BitVec 16)
  borne : unites.length < 2 ^ 31 - 1

inductive JException where
  | stringIndexOutOfBounds
deriving DecidableEq, Repr

namespace JString

def length (s : JString) : ℕ := s.unites.length

def charAt (s : JString) (i : ℤ) : Except JException (BitVec 16) :=
  if 0 ≤ i then
    match s.unites[i.toNat]? with
    | some c => .ok c
    | none => .error .stringIndexOutOfBounds
  else .error .stringIndexOutOfBounds

theorem charAt_eq {s : JString} {i : ℕ} {c : BitVec 16} (h : s.unites[i]? = some c) : s.charAt i = .ok c := by
  rw [charAt, if_pos (Int.natCast_nonneg i), Int.toNat_natCast, h]

theorem exists_charAt {s : JString} {i : ℕ} (h : i < s.length) :
    ∃ c, s.unites[i]? = some c ∧ s.charAt i = .ok c :=
  ⟨s.unites[i], List.getElem?_eq_getElem h, charAt_eq (List.getElem?_eq_getElem h)⟩

end JString

/-- the cast of a char to int -/
def toInt (c : BitVec 16) : BitVec 32 := c.setWidth 32

/-- what an int expression of exact value `x` evaluates to -/
@[irreducible] def int32 (x : ℤ) : ℤ := x.bmod (2 ^ 32)

/-- the bound of both loops -/
def borne (texte motif : JString) : ℤ := int32 (int32 (texte.length - motif.length) + 1)

/-! ## The searches -/

/-- the inner loop from `j` on, and the value of `j` after it -/
def compare (texte motif : JString) (i j : ℕ) : Except JException ℕ :=
  if j < motif.length then do
    let a ← texte.charAt (i + j)
    let b ← motif.charAt j
    if a = b then compare texte motif i (j + 1) else .ok j
  else .ok j
termination_by motif.length - j

def rechercheDe (texte motif : JString) (i : ℕ) : Except JException (List ℕ) :=
  if i < borne texte motif then do
    let j ← compare texte motif i 0
    let suite ← rechercheDe texte motif (i + 1)
    .ok (if j = motif.length then i :: suite else suite)
  else .ok []
termination_by (borne texte motif - i).toNat

def recherche (texte motif : JString) : Except JException (List ℕ) := rechercheDe texte motif 0

/-- the loop of `hash` at index `i` -/
def hashDe (s : JString) (h : BitVec 32) (i fin : ℕ) : Except JException (BitVec 32) :=
  if i < fin then do
    let c ← s.charAt i
    hashDe s (h + toInt c) (i + 1) fin
  else .ok h
termination_by fin - i

def hash (s : JString) (debut fin : ℕ) : Except JException (BitVec 32) := hashDe s 0 debut fin

def updateHash (s : JString) (hash : BitVec 32) (debut fin : ℕ) : Except JException (BitVec 32) := do
  let a ← s.charAt (debut - 1)
  let b ← s.charAt (fin - 1)
  .ok (hash - toInt a + toInt b)

/-- the hash of the window at `i`: in full the first time, then from the one before -/
def hacheFenetre (texte motif : JString) (hcourant : BitVec 32) (i : ℕ) : Except JException (BitVec 32) :=
  if i = 0 then hash texte i (i + motif.length) else updateHash texte hcourant i (i + motif.length)

def rechercheKRDe (texte motif : JString) (hmotif hcourant : BitVec 32) (i : ℕ) : Except JException (List ℕ) :=
  if i < borne texte motif then do
    let hcourant ← hacheFenetre texte motif hcourant i
    if hcourant = hmotif then do
      let j ← compare texte motif i 0
      let suite ← rechercheKRDe texte motif hmotif hcourant (i + 1)
      .ok (if j = motif.length then i :: suite else suite)
    else rechercheKRDe texte motif hmotif hcourant (i + 1)
  else .ok []
termination_by (borne texte motif - i).toNat

def rechercheKR (texte motif : JString) : Except JException (List ℕ) := do
  let hmotif ← hash motif 0 motif.length
  rechercheKRDe texte motif hmotif 0 0

/-- the pattern stands in the text after `i` characters -/
def Occurrence (texte motif : JString) (i : ℕ) : Prop :=
  ∃ avant apres, texte.unites = avant ++ motif.unites ++ apres ∧ avant.length = i

/-- the window of the text that a turn of the loops looks at -/
def fenetreDe (texte motif : JString) (i : ℕ) : List (BitVec 16) := fenetre texte.unites motif.length i

variable {texte motif s : JString} {i j : ℕ}

theorem int32_eq {x : ℤ} (h : -(2 ^ 31) ≤ x) (h' : x < 2 ^ 31) : int32 x = x := by
  rw [int32]
  exact Int.bmod_eq_of_le (by omega) (by omega)

/-- no wrap on the bound: the loops look at the windows that lie in the text -/
theorem lt_borne_iff : (i : ℤ) < borne texte motif ↔ i + motif.length ≤ texte.length := by
  have ht : texte.length < 2 ^ 31 - 1 := texte.borne
  have hm : motif.length < 2 ^ 31 - 1 := motif.borne
  have hb : borne texte motif = texte.length - motif.length + 1 := by
    have hd : int32 (texte.length - motif.length) = texte.length - motif.length := int32_eq (by omega) (by omega)
    rw [borne, hd, int32_eq (by omega) (by omega)]
  rw [hb]
  omega

theorem Occurrence.le (h : Occurrence texte motif i) : i + motif.length ≤ texte.length := by
  obtain ⟨avant, apres, ht, hi⟩ := h
  rw [JString.length, JString.length, ht, List.length_append, List.length_append]
  omega

theorem occurrence_iff (h : i + motif.length ≤ texte.length) :
    Occurrence texte motif i ↔ fenetreDe texte motif i = motif.unites :=
  (fenetre_eq_iff h).symm

/-! ## The inner loop -/

theorem getElem?_fenetreDe {c : BitVec 16} (hj : j < motif.length) (h : texte.unites[i + j]? = some c) :
    (fenetreDe texte motif i)[j]? = some c := by
  rw [fenetreDe, getElem?_fenetre hj, h]

theorem drop_of_getElem? {α : Type*} {l : List α} {a : α} (h : l[j]? = some a) : l.drop j = a :: l.drop (j + 1) := by
  obtain ⟨hj, hget⟩ := List.getElem?_eq_some_iff.1 h
  rw [List.drop_eq_getElem_cons hj, hget]

/-- from `j` on, the loop compares what is left of the window with what is left of the pattern -/
theorem compare_spec (h : i + motif.length ≤ texte.length) (j : ℕ) (hj : j ≤ motif.length) :
    ∃ k, compare texte motif i j = .ok k ∧
      (k = motif.length ↔ (fenetreDe texte motif i).drop j = motif.unites.drop j) := by
  by_cases hlt : j < motif.length
  · obtain ⟨a, ha, hta⟩ := JString.exists_charAt (s := texte) (i := i + j) (by omega)
    obtain ⟨b, hb, hmb⟩ := JString.exists_charAt hlt
    rw [Nat.cast_add] at hta
    rw [compare, if_pos hlt, hta, hmb, drop_of_getElem? (getElem?_fenetreDe hlt ha), drop_of_getElem? hb,
      List.cons.injEq]
    by_cases hab : a = b
    · obtain ⟨k, hk, hiff⟩ := compare_spec h (j + 1) hlt
      refine ⟨k, ?_, by rw [hiff]; exact (and_iff_right hab).symm⟩
      simpa [hab, bind, Except.bind] using hk
    · refine ⟨j, by simp [hab, bind, Except.bind], ?_⟩
      exact iff_of_false hlt.ne fun h => hab h.1
  · have hj' : j = motif.length := by omega
    have hw : (fenetreDe texte motif i).length ≤ j := by rw [fenetreDe, length_fenetre h, hj']
    have hm : motif.unites.length ≤ j := hj'.ge
    refine ⟨j, by rw [compare, if_neg hlt], ?_⟩
    rw [List.drop_eq_nil_of_le hw, List.drop_eq_nil_of_le hm]
    exact iff_of_true hj' rfl
termination_by motif.length - j

/-- **The inner loop reaches the end of the pattern** exactly where the window is the pattern. -/
theorem compare_eq (h : i + motif.length ≤ texte.length) :
    ∃ k, compare texte motif i 0 = .ok k ∧ (k = motif.length ↔ fenetreDe texte motif i = motif.unites) := by
  have h := compare_spec h 0 (Nat.zero_le _)
  simpa using h

/-! ## The outer loop of the direct search -/

def ajouteSi (texte motif : JString) (i : ℕ) (suite : List ℕ) : List ℕ :=
  if fenetreDe texte motif i = motif.unites then i :: suite else suite

theorem rechercheDe_of_le (h : i + motif.length ≤ texte.length) :
    rechercheDe texte motif i = (rechercheDe texte motif (i + 1)).map (ajouteSi texte motif i) := by
  obtain ⟨k, hk, hiff⟩ := compare_eq h
  rw [rechercheDe, if_pos (lt_borne_iff.2 h), hk]
  simp only [bind, Except.bind, hiff]
  cases rechercheDe texte motif (i + 1) <;> rfl

theorem rechercheDe_of_gt (h : texte.length < i + motif.length) : rechercheDe texte motif i = .ok [] := by
  rw [rechercheDe, if_neg (by rw [lt_borne_iff]; omega)]

/-- from `i` on, the loop prints the occurrences from `i` on -/
theorem rechercheDe_spec (texte motif : JString) (i : ℕ) :
    ∃ l, rechercheDe texte motif i = .ok l ∧ l.Pairwise (· < ·) ∧ ∀ k, k ∈ l ↔ i ≤ k ∧ Occurrence texte motif k := by
  by_cases h : i + motif.length ≤ texte.length
  · obtain ⟨l, hl, hord, hmem⟩ := rechercheDe_spec texte motif (i + 1)
    refine ⟨ajouteSi texte motif i l, by rw [rechercheDe_of_le h, hl]; rfl, ?_, ?_⟩
    · unfold ajouteSi
      split_ifs
      · exact List.pairwise_cons.2 ⟨fun k hk => ((hmem k).1 hk).1, hord⟩
      · exact hord
    · intro k
      have hocc := occurrence_iff h
      have hik : i ≤ k ↔ k = i ∨ i + 1 ≤ k := by omega
      unfold ajouteSi
      split_ifs with hw
      · rw [List.mem_cons, hmem, hik]
        have hi : Occurrence texte motif i := hocc.2 hw
        exact ⟨fun h => h.elim (fun h => ⟨.inl h, h ▸ hi⟩) fun h => ⟨.inr h.1, h.2⟩,
          fun h => h.1.imp_right fun hk => ⟨hk, h.2⟩⟩
      · rw [hmem, hik]
        have hi : ¬ Occurrence texte motif i := fun h => hw (hocc.1 h)
        exact ⟨fun h => ⟨.inr h.1, h.2⟩, fun h => ⟨h.1.resolve_left fun hk => hi (hk ▸ h.2), h.2⟩⟩
  · refine ⟨[], rechercheDe_of_gt (by omega), List.Pairwise.nil, fun k => ?_⟩
    refine iff_of_false List.not_mem_nil fun hk => h ?_
    have := hk.2.le
    omega
termination_by texte.length + 1 - i
decreasing_by omega

/-! ## The rolling hash -/

def somme (w : List (BitVec 16)) : BitVec 32 := (w.map toInt).sum

theorem hashDe_eq (s : JString) (h : BitVec 32) {i n : ℕ} (hn : i + n ≤ s.length) :
    hashDe s h i (i + n) = .ok (h + somme (fenetre s.unites n i)) := by
  induction n generalizing h i with
  | zero =>
    rw [hashDe, if_neg (by omega)]
    simp [somme, fenetre]
  | succ n ih =>
    obtain ⟨c, hc, hchar⟩ := JString.exists_charAt (s := s) (i := i) (by omega)
    have hw : fenetre s.unites (n + 1) i = c :: fenetre s.unites n (i + 1) := by
      rw [fenetre, drop_of_getElem? hc, List.take_succ_cons, fenetre]
    have hin : i + (n + 1) = i + 1 + n := by omega
    rw [hashDe, if_pos (by omega), hchar, hw, hin]
    calc hashDe s (h + toInt c) (i + 1) (i + 1 + n)
        = .ok (h + toInt c + somme (fenetre s.unites n (i + 1))) := ih _ (by omega)
      _ = .ok (h + somme (c :: fenetre s.unites n (i + 1))) := by
          rw [somme, somme, List.map_cons, List.sum_cons, add_assoc]

theorem hash_eq {n : ℕ} (hn : i + n ≤ s.length) : hash s i (i + n) = .ok (somme (fenetre s.unites n i)) := by
  rw [hash, hashDe_eq s 0 hn, zero_add]

theorem hash_motif (motif : JString) : hash motif 0 motif.length = .ok (somme motif.unites) := by
  have h := hash_eq (s := motif) (i := 0) (n := motif.length) (by omega)
  rw [Nat.zero_add] at h
  rw [h, fenetre, List.drop_zero, JString.length, List.take_length]

/-- **The update** takes the sum of the window at `i` to the sum of the next one. -/
theorem updateHash_eq {n : ℕ} (hn : i + 1 + n ≤ s.length) :
    updateHash s (somme (fenetre s.unites n i)) (i + 1) (i + 1 + n) = .ok (somme (fenetre s.unites n (i + 1))) := by
  obtain ⟨a, ha, hchara⟩ := JString.exists_charAt (s := s) (i := i) (by omega)
  obtain ⟨b, hb, hcharb⟩ := JString.exists_charAt (s := s) (i := i + n) (by omega)
  have hi : ((i + 1 : ℕ) : ℤ) - 1 = i := by omega
  have hin : ((i + 1 + n : ℕ) : ℤ) - 1 = (i + n : ℕ) := by omega
  rw [updateHash, hi, hin, hchara, hcharb]
  exact congrArg _ (somme_fenetre_succ toInt ha hb).symm

/-! ## The outer loop of the search with the hash -/

/-- the invariant: before the turn of index `i` the current hash is the sum of the window before, if there is one -/
def Courant (texte motif : JString) (hcourant : BitVec 32) (i : ℕ) : Prop :=
  ∀ k, i = k + 1 → hcourant = somme (fenetreDe texte motif k)

/-- one turn of the loop starts by the sum of its window -/
theorem hacheFenetre_eq {hcourant : BitVec 32} (h : i + motif.length ≤ texte.length)
    (hc : Courant texte motif hcourant i) :
    hacheFenetre texte motif hcourant i = .ok (somme (fenetreDe texte motif i)) := by
  unfold hacheFenetre
  cases i with
  | zero => rw [if_pos rfl, hash_eq h, fenetreDe]
  | succ k => rw [if_neg k.succ_ne_zero, hc k rfl, fenetreDe, updateHash_eq h, fenetreDe]

/-- **From any state of the loop** that meets the invariant, the two searches print the same indices: a window that is
the pattern has the sum of the pattern. -/
theorem rechercheKRDe_eq (texte motif : JString) (hcourant : BitVec 32) (i : ℕ)
    (hc : Courant texte motif hcourant i) :
    rechercheKRDe texte motif (somme motif.unites) hcourant i = rechercheDe texte motif i := by
  by_cases h : i + motif.length ≤ texte.length
  · have hc' : Courant texte motif (somme (fenetreDe texte motif i)) (i + 1) := by
      intro k hk
      rw [Nat.succ.inj hk]
    have ih := rechercheKRDe_eq texte motif _ (i + 1) hc'
    obtain ⟨k, hk, hiff⟩ := compare_eq h
    rw [rechercheKRDe, if_pos (lt_borne_iff.2 h), hacheFenetre_eq h hc, rechercheDe_of_le h]
    by_cases hsomme : somme (fenetreDe texte motif i) = somme motif.unites
    · simp only [bind, Except.bind, if_pos hsomme, hk, ih, hiff]
      cases rechercheDe texte motif (i + 1) <;> rfl
    · have hw : fenetreDe texte motif i ≠ motif.unites := fun hw => hsomme (by rw [hw])
      have hsuite : ajouteSi texte motif i = id := funext fun suite => if_neg hw
      simp only [bind, Except.bind, if_neg hsomme, ih, hsuite]
      cases rechercheDe texte motif (i + 1) <;> rfl
  · rw [rechercheKRDe, if_neg (by rw [lt_borne_iff]; exact h), rechercheDe_of_gt (by omega)]
termination_by texte.length + 1 - i
decreasing_by omega

/-- **Same indices.** On every text and pattern both searches end without an exception and print the same indices, in
increasing order: those where the pattern occurs. -/
theorem memes_indices (texte motif : JString) :
    ∃ l, recherche texte motif = .ok l ∧ rechercheKR texte motif = .ok l ∧ l.Pairwise (· < ·) ∧
      ∀ i, i ∈ l ↔ Occurrence texte motif i := by
  obtain ⟨l, hl, hord, hmem⟩ := rechercheDe_spec texte motif 0
  have hc : Courant texte motif 0 0 := fun k hk => absurd hk k.succ_ne_zero.symm
  refine ⟨l, hl, ?_, hord, fun i => by rw [hmem]; exact and_iff_right i.zero_le⟩
  rw [rechercheKR, hash_motif]
  exact (rechercheKRDe_eq texte motif 0 0 hc).trans hl

end Semestre6.Texte
