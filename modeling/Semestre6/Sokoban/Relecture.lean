/-
A board printed by `toString` and read again (Terrain.java).

- `lectureLocale`, `lireLocale`: the reader with all that `nextInt` accepts, the digits of every script and the groups
  of a locale; `lectureLocale_of_lecture`: what `lecture` reads is read so;
- `lireLocale_toString`: a board without INVALIDE and with a column is read back, its counter recounted;
- `lireLocale_lisible`: a level that was read is such a board.
-/
import Semestre6.Lib.Boucle
import Semestre6.Sokoban.Terrain
import Semestre6.Texte.Lecture

namespace Semestre6.Sokoban

open Boucle
open Lecture (decimale)
open Scanner

namespace Terrain

/-! ## The reader in a locale -/

variable (separateur : Char)

def nextIntLocale : List (List Char) → Except JException (ℤ × List (List Char))
  | [] => .error .noSuchElement
  | m :: ms =>
    match Lecture.nextInt separateur m with
    | some n => .ok (n, ms)
    | none => .error .inputMismatch

def lectureLocale (texte : List Char) : Except JException Terrain := do
  let (largeur, ms) ← nextIntLocale separateur (jetons texte)
  let (hauteur, ms) ← nextIntLocale separateur ms
  if hauteur < 0 ∨ largeur < 0 then .error .negativeArraySize
  else do
    let lignes ← lectureLignes largeur.toNat hauteur.toNat ms
    .ok (deLignes largeur.toNat hauteur.toNat lignes)

def lireLocale (texte : List Char) : Except JException Terrain := do
  let t ← lectureLocale separateur texte
  .ok (t.positions.foldl (fun t' p => if t.contientEn .but p then { t' with nbBut := t'.nbBut + 1 } else t') t)

/-! ## The printer -/

/-- the switch of `toString` -/
def caractere : Case → Char
  | .obstacle => '+'
  | .pousseur => 'X'
  | .sac => '&'
  | .but => 'O'
  | .libre => '.'
  | .sacSurBut => 'Q'
  | .pousseurSurBut => '0'
  | .invalide => '?'

/-- the cells of a line, from the first column on; the loops stay in the rectangle -/
def ligne (t : Terrain) (i : ℕ) : List Case := (List.range t.largeur).map fun j : ℕ => (t.terrain i j).getD .invalide

def toString (t : Terrain) : List Char :=
  decimale t.largeur ++ '\n' :: decimale t.hauteur ++
    (List.range t.hauteur).flatMap fun i => '\n' :: (t.ligne i).map caractere

/-- the sizes and the cells, not the counter -/
def equals (t autre : Terrain) : Bool :=
  autre.largeur == t.largeur && autre.hauteur == t.hauteur &&
    t.positions.all fun p => t.terrain p.1 p.2 == autre.terrain p.1 p.2

def SansInvalide (t : Terrain) : Prop := ∀ i j, t.terrain i j ≠ some .invalide

variable {separateur} {t : Terrain} {texte m : List Char}

/-! ## The words of a printed board -/

theorem symbole_caractere {k : Case} (h : k ≠ .invalide) : symbole (caractere k) = k := by
  cases k <;> first | rfl | exact absurd rfl h

theorem estBlanc_caractere (k : Case) : estBlanc (caractere k) = false := by cases k <;> rfl

theorem unites_caractere (k : Case) : unites (caractere k) = [caractere k] := by cases k <;> rfl

/-- words, each after a line feed -/
theorem jetons_lignes (hne : m ≠ []) (hm : ∀ c ∈ m, estBlanc c = false) {ls : List (List Char)} (hls : ∀ l ∈ ls, l ≠ [])
    (hb : ∀ l ∈ ls, ∀ c ∈ l, estBlanc c = false) : jetons (m ++ ls.flatMap ('\n' :: ·)) = m :: ls := by
  induction ls generalizing m with
  | nil => rw [List.flatMap_nil, List.append_nil, jetons_mot hne hm]
  | cons l ls ih =>
    obtain ⟨hl, hls⟩ := List.forall_mem_cons.1 hls
    obtain ⟨hbl, hb⟩ := List.forall_mem_cons.1 hb
    rw [List.flatMap_cons, List.cons_append, jetons_ligne hne hm, ih hl hbl hls hb]

theorem jetons_toString (hl : 1 ≤ t.largeur) :
    jetons t.toString = decimale t.largeur :: decimale t.hauteur ::
      (List.range t.hauteur).map fun i => (t.ligne i).map caractere := by
  have hd (n : ℕ) : ∀ c ∈ decimale n, estBlanc c = false := fun c hc => estBlanc_isDigit (Lecture.isDigit_decimale n c hc)
  have hligne : ∀ l ∈ (List.range t.hauteur).map fun i => (t.ligne i).map caractere, l ≠ [] := by
    intro l hl'
    obtain ⟨i, -, rfl⟩ := List.mem_map.1 hl'
    rw [← List.length_pos_iff]
    simpa [ligne] using Nat.lt_of_succ_le hl
  have hb : ∀ l ∈ (List.range t.hauteur).map fun i => (t.ligne i).map caractere, ∀ c ∈ l, estBlanc c = false := by
    intro l hl' c hc
    obtain ⟨i, -, rfl⟩ := List.mem_map.1 hl'
    obtain ⟨k, -, rfl⟩ := List.mem_map.1 hc
    exact estBlanc_caractere k
  have htexte : t.toString = decimale t.largeur ++ '\n' :: (decimale t.hauteur ++
      ((List.range t.hauteur).map fun i => (t.ligne i).map caractere).flatMap ('\n' :: ·)) := by
    simp [toString, List.flatMap_map]
  rw [htexte, jetons_ligne (Lecture.decimale_ne_nil _) (hd _), jetons_lignes (Lecture.decimale_ne_nil _) (hd _) hligne hb]

/-! ## The cells are read back -/

theorem mapM_ok {ε α β : Type} {f : α → Except ε β} {g : α → β} {l : List α} (h : ∀ x ∈ l, f x = .ok (g x)) :
    l.mapM f = .ok (l.map g) := by
  induction l with
  | nil => rfl
  | cons x l ih =>
    obtain ⟨hx, hl⟩ := List.forall_mem_cons.1 h
    rw [List.mapM_cons, hx, ih hl]
    rfl

theorem lectureLigne_caractere {l : List Case} (h : ∀ k ∈ l, k ≠ .invalide) :
    lectureLigne l.length (l.map caractere) = .ok l := by
  have hu : (l.map caractere).flatMap unites = l.map caractere := by
    simp only [List.flatMap_map, unites_caractere]
    exact List.map_eq_flatMap.symm
  have hrange : (List.range l.length).map (fun j => l.getD j .libre) = l := by
    apply List.ext_getElem
    · simp
    · intro j h1 h2
      simp [h2]
  calc lectureLigne l.length (l.map caractere)
      = .ok ((List.range l.length).map fun j => l.getD j .libre) := by
        refine mapM_ok ?_
        intro j hj
        have hj' : j < l.length := List.mem_range.1 hj
        rw [hu, List.getElem?_map, List.getElem?_eq_getElem hj', Option.map_some]
        simp [symbole_caractere (h _ (List.getElem_mem hj')), hj']
    _ = .ok l := by rw [hrange]

theorem lectureLignes_caractere {largeur : ℕ} {ls : List (List Case)} (hlen : ∀ l ∈ ls, l.length = largeur)
    (h : ∀ l ∈ ls, ∀ k ∈ l, k ≠ .invalide) :
    lectureLignes largeur ls.length (ls.map (·.map caractere)) = .ok ls := by
  induction ls with
  | nil => rfl
  | cons l ls ih =>
    obtain ⟨hl, hlen⟩ := List.forall_mem_cons.1 hlen
    obtain ⟨hk, h⟩ := List.forall_mem_cons.1 h
    rw [List.length_cons, List.map_cons, lectureLignes, ← hl, lectureLigne_caractere hk, hl, ih hlen h]
    rfl

theorem ext {t t' : Terrain} (hl : t.largeur = t'.largeur) (hh : t.hauteur = t'.hauteur) (hn : t.nbBut = t'.nbBut)
    (ht : t.terrain = t'.terrain) : t = t' := by
  cases t
  cases t'
  cases hl
  cases hh
  cases hn
  cases ht
  rfl

/-- the array filled with the lines of a board has its cells -/
theorem deLignes_ligne (t : Terrain) :
    deLignes t.largeur t.hauteur ((List.range t.hauteur).map t.ligne) = { t with nbBut := 0 } := by
  refine ext rfl rfl rfl ?_
  funext i j
  by_cases hd : t.Dans i j
  · obtain ⟨k, hk⟩ := dans_iff.1 hd
    obtain ⟨hi0, hi, hj0, hj⟩ := hd
    have hi' : i.toNat < t.hauteur := by omega
    have hj' : j.toNat < t.largeur := by omega
    have hcase : (((List.range t.hauteur).map t.ligne).getD i.toNat []).getD j.toNat .libre = k := by
      simp [hi', hj', ligne, Int.toNat_of_nonneg hi0, Int.toNat_of_nonneg hj0, hk]
    simp only [deLignes, if_pos (And.intro hi0 (And.intro hi (And.intro hj0 hj))), hcase, hk]
  · have hnone : t.terrain i j = none := by
      rw [← Option.not_isSome_iff_eq_none]
      exact fun h => hd ((t.domaine i j).1 h)
    rw [hnone]
    exact if_neg hd

theorem ligne_caractere (hs : SansInvalide t) {i : ℕ} (hi : i < t.hauteur) : ∀ k ∈ t.ligne i, k ≠ .invalide := by
  intro k hk hinv
  obtain ⟨j, hj, hkj⟩ := List.mem_map.1 hk
  obtain ⟨k', hk'⟩ := dans_iff.1 (⟨by omega, by omega, by omega, by simpa using hj⟩ : t.Dans i j)
  rw [hk', Option.getD_some, hinv] at hkj
  exact hs i j (hkj ▸ hk')

theorem lectureLocale_toString (hl : 1 ≤ t.largeur) (hlmax : t.largeur ≤ 2147483647) (hhmax : t.hauteur ≤ 2147483647)
    (hs : SansInvalide t) : lectureLocale separateur t.toString = .ok { t with nbBut := 0 } := by
  have hlignes : lectureLignes t.largeur t.hauteur ((List.range t.hauteur).map fun i => (t.ligne i).map caractere) =
      .ok ((List.range t.hauteur).map t.ligne) := by
    have hlen : ((List.range t.hauteur).map t.ligne).length = t.hauteur := by simp
    have hlargeur : ∀ l ∈ (List.range t.hauteur).map t.ligne, l.length = t.largeur := by
      intro l h
      obtain ⟨i, -, rfl⟩ := List.mem_map.1 h
      simp [ligne]
    have hcases : ∀ l ∈ (List.range t.hauteur).map t.ligne, ∀ k ∈ l, k ≠ .invalide := by
      intro l h
      obtain ⟨i, hi, rfl⟩ := List.mem_map.1 h
      exact ligne_caractere hs (List.mem_range.1 hi)
    have h := lectureLignes_caractere hlargeur hcases
    rwa [hlen, List.map_map] at h
  have hpos : ¬((t.hauteur : ℤ) < 0 ∨ (t.largeur : ℤ) < 0) := by omega
  rw [lectureLocale, jetons_toString hl]
  simp only [nextIntLocale, Lecture.nextInt_decimale hlmax, Lecture.nextInt_decimale hhmax, bind, Except.bind,
    if_neg hpos, Int.toNat_natCast, hlignes, deLignes_ligne]

/-- a board is read back, with the number of its goal cells as its counter -/
theorem lireLocale_toString (separateur : Char) (hl : 1 ≤ t.largeur) (hlmax : t.largeur ≤ 2147483647)
    (hhmax : t.hauteur ≤ 2147483647) (hs : SansInvalide t) :
    lireLocale separateur t.toString = .ok { t with nbBut := (t.cellules .but).card } := by
  rw [lireLocale, lectureLocale_toString hl hlmax hhmax hs]
  simp only [bind, Except.bind, compteButs]
  rw [card_cellules, Nat.zero_add]
  rfl

/-! ## The levels that are read -/

theorem symbole_ne_invalide (c : Char) : symbole c ≠ .invalide := by
  unfold symbole
  split_ifs <;> simp

theorem lectureLigne_sansInvalide {largeur : ℕ} {l : List Case} (h : lectureLigne largeur m = .ok l) :
    ∀ k ∈ l, k ≠ .invalide := by
  intro k hk
  obtain ⟨j, hj, rfl⟩ := List.getElem_of_mem hk
  obtain ⟨hlen, hget⟩ := ok_of_mapM h
  obtain ⟨y, hy, hc⟩ := hget j j (List.getElem?_range (by simpa [hlen] using hj))
  obtain rfl : l[j] = y := by simpa [hj] using hy
  split at hc
  · exact Except.ok.inj hc ▸ symbole_ne_invalide _
  · cases hc

theorem lectureLignes_sansInvalide {largeur n : ℕ} {ms : List (List Char)} {ls : List (List Case)}
    (h : lectureLignes largeur n ms = .ok ls) : ∀ l ∈ ls, ∀ k ∈ l, k ≠ .invalide := by
  induction n generalizing ms ls with
  | zero =>
    obtain rfl : [] = ls := Except.ok.inj h
    simp
  | succ n ih =>
    cases ms with
    | nil => cases h
    | cons m ms =>
      obtain ⟨l, hl, h⟩ := ok_of_bind h
      obtain ⟨ls', hls, h⟩ := ok_of_bind h
      obtain rfl : l :: ls' = ls := Except.ok.inj h
      exact List.forall_mem_cons.2 ⟨lectureLigne_sansInvalide hl, ih hls⟩

theorem deLignes_sansInvalide {largeur hauteur : ℕ} {ls : List (List Case)} (h : ∀ l ∈ ls, ∀ k ∈ l, k ≠ .invalide) :
    SansInvalide (deLignes largeur hauteur ls) := by
  intro i j hij
  simp only [deLignes] at hij
  split_ifs at hij with hd
  have hk : (ls.getD i.toNat []).getD j.toNat .libre = .invalide := Option.some.inj hij
  cases hl : ls[i.toNat]? with
  | none => simp [hl] at hk
  | some l =>
    cases hc : l[j.toNat]? with
    | none => simp [hl, hc] at hk
    | some k =>
      have hk' : k = .invalide := by simpa [hl, hc] using hk
      exact h l (List.mem_of_getElem? hl) k (List.mem_of_getElem? hc) hk'

/-- the sizes fit an int, and INVALIDE is no cell's -/
structure Lisible (t : Terrain) : Prop where
  largeur : t.largeur ≤ 2147483647
  hauteur : t.hauteur ≤ 2147483647
  sansInvalide : SansInvalide t

theorem nextIntLocale_borne {ms ms' : List (List Char)} {n : ℤ} (h : nextIntLocale separateur ms = .ok (n, ms')) :
    n ≤ 2147483647 := by
  cases ms with
  | nil => cases h
  | cons m ms =>
    rw [nextIntLocale] at h
    split at h
    · rename_i v hv
      obtain ⟨rfl, -⟩ := Prod.mk.inj (Except.ok.inj h)
      exact (Lecture.nextInt_borne hv).2
    · cases h

theorem lectureLocale_lisible (h : lectureLocale separateur texte = .ok t) : Lisible t ∧ t.nbBut = 0 := by
  obtain ⟨⟨largeur, ms⟩, hl, h⟩ := ok_of_bind h
  obtain ⟨⟨hauteur, ms'⟩, hh, h⟩ := ok_of_bind h
  have hlmax := nextIntLocale_borne hl
  have hhmax := nextIntLocale_borne hh
  simp only at h
  split_ifs at h
  obtain ⟨ls, hls, h⟩ := ok_of_bind h
  obtain rfl := Except.ok.inj h
  refine ⟨⟨?_, ?_, deLignes_sansInvalide (lectureLignes_sansInvalide hls)⟩, rfl⟩
  · change largeur.toNat ≤ 2147483647
    omega
  · change hauteur.toNat ≤ 2147483647
    omega

theorem lireLocale_lisible (h : lireLocale separateur texte = .ok t) :
    Lisible t ∧ t.nbBut = (t.cellules .but).card := by
  obtain ⟨t₀, h₀, h⟩ := ok_of_bind h
  obtain ⟨hlis, hn⟩ := lectureLocale_lisible h₀
  rw [compteButs, hn, Nat.zero_add] at h
  obtain rfl := Except.ok.inj h
  exact ⟨⟨hlis.largeur, hlis.hauteur, hlis.sansInvalide⟩, (card_cellules t₀ .but).symm⟩

/-! ## The ASCII reader -/

theorem chiffres_locale {n : ℕ} (h : chiffres m = some n) : Lecture.chiffres m = some n := by
  unfold chiffres at h
  split_ifs at h with hm
  rw [Lecture.chiffres_isDigit hm.1 (List.all_eq_true.1 hm.2), ← h]
  rfl

theorem nombre_locale {n : ℕ} (h : chiffres m = some n) : Lecture.nombre separateur m = some n := by
  rw [Lecture.nombre, chiffres_locale h]
  rfl

theorem borne_ok {v : Option ℤ} {n : ℤ} (h : (match v with
    | some n => if -2147483648 ≤ n ∧ n ≤ 2147483647 then Except.ok n else .error JException.inputMismatch
    | none => .error .inputMismatch) = .ok n) : v.bind Lecture.int = some n := by
  cases v with
  | none => cases h
  | some k =>
    simp only at h
    split_ifs at h with hb
    exact Lecture.int_some.2 ⟨Except.ok.inj h, by rwa [← Except.ok.inj h]⟩

theorem nextInt_sans_signe (hmoins : ∀ ds, m = '-' :: ds → False) (hplus : ∀ ds, m = '+' :: ds → False) :
    Lecture.nextInt separateur m = (Lecture.nombre separateur m).bind fun n => Lecture.int n := by
  unfold Lecture.nextInt
  split
  · exact (hmoins _ rfl).elim
  · exact (hplus _ rfl).elim
  · rfl

theorem entier_locale {n : ℤ} (h : entier m = .ok n) : Lecture.nextInt separateur m = some n := by
  have hsuite {ds : List Char} {f : ℕ → ℤ} (h : ((chiffres ds).map f).bind Lecture.int = some n) :
      (Lecture.nombre separateur ds).bind (fun k => Lecture.int (f k)) = some n := by
    cases hc : chiffres ds with
    | none => simp [hc] at h
    | some k => simpa [hc, nombre_locale hc] using h
  unfold entier at h
  split at h
  · rename_i ds
    refine hsuite (f := fun k => -(k : ℤ)) ?_
    have h := borne_ok h
    cases hc : chiffres ds with
    | none => simp [hc] at h
    | some k => simpa [hc] using h
  · rename_i ds
    refine hsuite (f := fun k => (k : ℤ)) ?_
    have h := borne_ok h
    cases hc : chiffres ds with
    | none => simp [hc] at h
    | some k => simpa [hc] using h
  · rename_i hmoins hplus
    rw [nextInt_sans_signe hmoins hplus]
    refine hsuite (f := fun k => (k : ℤ)) ?_
    have h := borne_ok h
    cases hc : chiffres m with
    | none => simp [hc] at h
    | some k => simpa [hc] using h

theorem nextInt_locale {ms : List (List Char)} {r : ℤ × List (List Char)} (h : nextInt ms = .ok r) :
    nextIntLocale separateur ms = .ok r := by
  cases ms with
  | nil => cases h
  | cons m ms =>
    obtain ⟨n, hn, rfl⟩ := ok_of_map h
    rw [nextIntLocale, entier_locale hn]

/-- what `lecture` reads is read in every locale -/
theorem lectureLocale_of_lecture (h : lecture texte = .ok t) : lectureLocale separateur texte = .ok t := by
  obtain ⟨r, hl, h⟩ := ok_of_bind h
  obtain ⟨r', hh, h⟩ := ok_of_bind h
  rw [lectureLocale, nextInt_locale hl]
  simp only [bind, Except.bind, nextInt_locale hh]
  exact h

theorem lireLocale_of_lire (h : lire texte = .ok t) : lireLocale separateur texte = .ok t := by
  obtain ⟨t₀, h₀, h⟩ := ok_of_bind h
  rw [lireLocale, lectureLocale_of_lecture h₀]
  exact h

end Terrain

end Semestre6.Sokoban
