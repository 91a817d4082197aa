/-
The words of a command line: `split_in_words` of readcmd.c, and its copy in parse.c, on the bytes of the line in memory.

- `finDuMot`, `curseur`: the inner and the outer loop, which move one cursor; `curseur_splitInWords`: they stop within
  the line, at its NUL, with the words of `splitInWords`;
- `splitInWords_iff`: these are the tokens of the line exactly when no `&` comes right after a letter: the inner switch
  has no case for `&`.
-/
import Semestre6.Lib.Jetons
import Semestre6.Shell.Readcmd

namespace Semestre6.Shell

open Semestre6.Ftp (Octets octets)
open Semestre6.Ftp.Parse
open Jetons (Lettre Mot Decoupage scinde ajoute)

/-! ## The two loops -/

/-- the inner loop: the cursor at the first byte after the word; `none` when a byte past the memory is read, or when
there are no more turns -/
def finDuMot (m : Octets) : ℕ → ℕ → Option ℕ
  | 0, _ => none
  | k + 1, cur => do
    let c ← m[cur + 1]?
    if c = 0 ∨ FinDeMot c then some (cur + 1) else finDuMot m k (cur + 1)

/-- the outer loop; an operator is a token, anything but a blank begins a word -/
def curseur (m : Octets) : ℕ → ℕ → List Octets → Option (List Octets)
  | 0, _, _ => none
  | k + 1, cur, tab => do
    let c ← m[cur]?
    if c = 0 then some tab
    else if Blanc c then curseur m k (cur + 1) tab
    else if Operateur c then curseur m k (cur + 1) (tab ++ [[c]])
    else
      let fin ← finDuMot m k cur
      curseur m k fin (tab ++ [(m.drop cur).take (fin - cur)])

variable {line w r m l : Octets} {k cur : ℕ} {c : UInt8}

/-- the letters of a word that are still to read, up to the byte that ends it -/
theorem decoupe_span (hw : w ≠ []) :
    decoupe w line = (w ++ line.takeWhile fun c => ¬FinDeMot c) ::
      decoupe [] (line.dropWhile fun c => ¬FinDeMot c) := by
  induction line generalizing w with
  | nil => simp [decoupe, ajouteMot, hw]
  | cons c line ih =>
    by_cases hc : FinDeMot c
    · have ho : ¬Blanc c → Operateur c := by
        intro hb
        rcases hc.resolve_left hb with h | h | h
        · exact Or.inl h
        · exact Or.inr (Or.inl h)
        · exact Or.inr (Or.inr (Or.inl h))
      by_cases hb : Blanc c
      · simp [decoupe, hc, hb, ajouteMot, hw]
      · simp [decoupe, hc, hb, ho hb, ajouteMot, hw]
    · rw [decoupe, if_pos ⟨hw, hc⟩, ih (by simp)]
      simp [hc]

/-- the byte at the cursor, and what is after it -/
theorem drop_cons (hm : m.drop cur = c :: l) : m[cur]? = some c ∧ m.drop (cur + 1) = l := by
  have hget : (m.drop cur)[0]? = m[cur + 0]? := List.getElem?_drop
  have hsuite : (m.drop cur).drop 1 = m.drop (cur + 1) := List.drop_drop
  rw [hm] at hget hsuite
  exact ⟨by simpa using hget.symm, by simpa using hsuite.symm⟩

/-- the inner loop stops at the end of the word, or at the NUL -/
theorem finDuMot_eq (hm : m.drop (cur + 1) = line ++ 0 :: r) (h0 : 0 ∉ line) (hk : line.length < k) :
    finDuMot m k cur = some (cur + 1 + (line.takeWhile fun c => ¬FinDeMot c).length) := by
  induction k generalizing cur line with
  | zero => omega
  | succ k ih =>
    cases line with
    | nil => simp [finDuMot, (drop_cons hm).1]
    | cons c line =>
      obtain ⟨hc, h0⟩ : 0 ≠ c ∧ 0 ∉ line := by simpa using h0
      obtain ⟨hget, hsuite⟩ := drop_cons hm
      rw [finDuMot, hget]
      by_cases hf : FinDeMot c
      · simp [hf]
      · have h := ih hsuite h0 (by simpa using hk)
        calc _ = finDuMot m k (cur + 1) := by simp [hc.symm, hf]
          _ = some (cur + 1 + 1 + (line.takeWhile fun c => ¬FinDeMot c).length) := h
          _ = some (cur + 1 + ((c :: line).takeWhile fun c => ¬FinDeMot c).length) := by
            rw [List.takeWhile_cons_of_pos (by simpa using hf), List.length_cons]
            congr 1
            omega

theorem curseur_eq (hm : m.drop cur = line ++ 0 :: r) (h0 : 0 ∉ line) (hk : line.length < k) (tab : List Octets) :
    curseur m k cur tab = some (tab ++ decoupe [] line) := by
  induction k generalizing cur line tab with
  | zero => omega
  | succ k ih =>
    cases line with
    | nil => simp [curseur, (drop_cons hm).1, decoupe, ajouteMot]
    | cons c line =>
      obtain ⟨hc, h0⟩ : 0 ≠ c ∧ 0 ∉ line := by simpa using h0
      have hget : m[cur]? = some c := (drop_cons hm).1
      have hsuite : m.drop (cur + 1) = line ++ 0 :: r := (drop_cons hm).2
      have hk : line.length < k := by simpa using hk
      rw [curseur, hget]
      by_cases hb : Blanc c
      · have h := ih hsuite h0 hk tab
        simpa [hc.symm, hb, decoupe, ajouteMot] using h
      by_cases ho : Operateur c
      · have h := ih hsuite h0 hk (tab ++ [[c]])
        simpa [hc.symm, hb, ho, decoupe, ajouteMot] using h
      -- a word: the inner loop goes over the letters that follow
      set mot := line.takeWhile fun c => ¬FinDeMot c with hmot
      set apres := line.dropWhile fun c => ¬FinDeMot c with hapres
      have hligne : mot ++ apres = line := List.takeWhile_append_dropWhile
      have hfin : finDuMot m k cur = some (cur + 1 + mot.length) := finDuMot_eq hsuite h0 hk
      have hcopie : (m.drop cur).take (cur + 1 + mot.length - cur) = c :: mot := by
        have hn : cur + 1 + mot.length - cur = (c :: mot).length := by
          rw [List.length_cons]
          omega
        rw [hn, hm, ← hligne, List.cons_append, List.append_assoc, ← List.cons_append]
        exact List.take_left
      have hdrop : m.drop (cur + 1 + mot.length) = apres ++ 0 :: r := by
        rw [← List.drop_drop, hsuite, ← hligne, List.append_assoc, List.drop_left]
      have hlen : apres.length < k := by
        have h := congrArg List.length hligne
        rw [List.length_append] at h
        omega
      have h := ih hdrop (fun h => h0 (hligne ▸ List.mem_append_right mot h)) hlen (tab ++ [c :: mot])
      have hdec : decoupe [] (c :: line) = (c :: mot) :: decoupe [] apres := by
        rw [decoupe, if_neg (by simp), if_neg hb, if_neg ho, decoupe_span (by simp)]
        rfl
      rw [hdec]
      simpa [hc.symm, hb, ho, hfin, hcopie] using h

/-- both loops stop, inside the line and its NUL, with the words -/
theorem curseur_splitInWords (h0 : 0 ∉ line) (hk : line.length < k) :
    curseur (line ++ 0 :: r) k 0 [] = some (splitInWords line) :=
  curseur_eq rfl h0 hk []

/-! ## The tokens -/

theorem operateur_not_blanc (c : UInt8) (h : Operateur c) : ¬Blanc c := by
  rcases h with rfl | rfl | rfl | rfl <;> decide

theorem ajouteMot_eq (w : Octets) (tab : List Octets) : ajouteMot w tab = ajoute w tab := rfl

/-- no `&` right after a letter -/
def SansEspCollee (line : Octets) : Prop := ∀ c, [c, 38] <:+: line → ¬Lettre Blanc Operateur c

/-- a word being read comes back longer -/
theorem decoupe_prefixe (hw : w ≠ []) (line : Octets) : ∃ s tab, decoupe w line = (w ++ s) :: tab :=
  ⟨_, _, decoupe_span hw⟩

theorem sansEspCollee_cons (hc : ¬Lettre Blanc Operateur c) : SansEspCollee (c :: line) ↔ SansEspCollee line := by
  apply Iff.intro
  · intro h d hd
    exact h d (hd.trans (List.suffix_cons c line).isInfix)
  · intro h d hd hlettre
    rcases List.infix_cons_iff.1 hd with hpre | hd
    · obtain ⟨-, hsuite⟩ := List.cons_prefix_cons.1 hpre
      obtain rfl : d = c := (List.cons_prefix_cons.1 hpre).1
      exact hc hlettre
    · exact h d hd hlettre

/-- letters in front change nothing when no `&` follows them -/
theorem sansEspCollee_append (hw : ∀ x ∈ w, Lettre Blanc Operateur x) (hc : c ≠ 38) :
    SansEspCollee (w ++ c :: line) ↔ SansEspCollee (c :: line) := by
  induction w with
  | nil => rfl
  | cons x w ih =>
    obtain ⟨hx, hw⟩ := List.forall_mem_cons.1 hw
    rw [← ih hw]
    apply Iff.intro
    · intro h d hd
      exact h d (hd.trans (List.suffix_cons x _).isInfix)
    · intro h d hd
      rcases List.infix_cons_iff.1 hd with hpre | hd
      · -- the byte after `x` is a letter or `c`
        exfalso
        obtain ⟨-, hsuite⟩ := List.cons_prefix_cons.1 hpre
        cases w with
        | nil => exact hc (List.cons_prefix_cons.1 hsuite).1.symm
        | cons y w =>
          obtain rfl : 38 = y := (List.cons_prefix_cons.1 hsuite).1
          exact (hw 38 List.mem_cons_self).2 (by decide)
      · exact h d hd

theorem sansEspCollee_lettres (hw : ∀ x ∈ w, Lettre Blanc Operateur x) : SansEspCollee w := by
  intro d hd _
  have h38 : (38 : UInt8) ∈ w := hd.subset (by simp)
  exact (hw 38 h38).2 (by decide)

theorem not_sansEspCollee (hw : ∀ x ∈ w, Lettre Blanc Operateur x) (hne : w ≠ []) :
    ¬SansEspCollee (w ++ 38 :: line) := by
  intro h
  refine h (w.getLast hne) ⟨w.dropLast, line, ?_⟩ (hw _ (List.getLast_mem hne))
  calc w.dropLast ++ [w.getLast hne, 38] ++ line = (w.dropLast ++ [w.getLast hne]) ++ 38 :: line := by simp
    _ = w ++ 38 :: line := by rw [List.dropLast_append_getLast]

theorem finDeMot_iff (c : UInt8) : FinDeMot c ↔ Blanc c ∨ (Operateur c ∧ c ≠ 38) := by
  unfold FinDeMot Operateur
  apply Iff.intro
  · rintro (h | rfl | rfl | rfl)
    · exact .inl h
    · exact .inr (by decide)
    · exact .inr (by decide)
    · exact .inr (by decide)
  · rintro (h | ⟨h | h | h | h, hne⟩)
    · exact .inl h
    · exact .inr (.inl h)
    · exact .inr (.inr (.inl h))
    · exact .inr (.inr (.inr h))
    · exact absurd h hne

/-- along the line, from a word being read -/
theorem decoupe_eq_scinde_iff (hw : ∀ x ∈ w, Lettre Blanc Operateur x) :
    decoupe w line = scinde Blanc Operateur w line ↔ SansEspCollee (w ++ line) := by
  induction line generalizing w with
  | nil =>
    rw [List.append_nil]
    exact iff_of_true rfl (sansEspCollee_lettres hw)
  | cons c line ih =>
    have hvide : decoupe [] line = scinde Blanc Operateur [] line ↔ SansEspCollee line := ih (w := []) (by simp)
    by_cases hc : Lettre Blanc Operateur c
    · have hf : ¬FinDeMot c := fun h => ((finDeMot_iff c).1 h).elim hc.1 fun h => hc.2 h.1
      have hdec : decoupe w (c :: line) = decoupe (w ++ [c]) line := by
        by_cases hne : w = []
        · simp [decoupe, hne, hc.1, hc.2, ajouteMot]
        · simp [decoupe, hne, hf]
      have hsci : scinde Blanc Operateur w (c :: line) = scinde Blanc Operateur (w ++ [c]) line := by
        simp [scinde, hc.1, hc.2]
      rw [hdec, hsci, ih (Jetons.lettres_snoc hw hc), List.append_assoc, List.singleton_append]
    by_cases h38 : c = 38
    · subst h38
      by_cases hne : w = []
      · rw [hne, List.nil_append, sansEspCollee_cons hc, ← hvide]
        have hdec : decoupe [] (38 :: line) = [38] :: decoupe [] line := by
          simp [decoupe, ajouteMot, show ¬Blanc 38 by decide, show Operateur 38 by decide]
        have hsci : scinde Blanc Operateur [] (38 :: line) = [38] :: scinde Blanc Operateur [] line := by
          simp [scinde, ajoute, show ¬Blanc 38 by decide, show Operateur 38 by decide]
        rw [hdec, hsci, List.cons_inj_right]
      · refine iff_of_false ?_ (not_sansEspCollee hw hne)
        obtain ⟨s, tab, hdec⟩ := decoupe_prefixe (w := w ++ [38]) (by simp) line
        rw [decoupe, if_pos ⟨hne, by decide⟩, hdec]
        simp [scinde, show ¬Blanc 38 by decide, show Operateur 38 by decide, ajoute, hne]
    · have hf : FinDeMot c := by
        rw [finDeMot_iff]
        by_contra h
        rw [not_or] at h
        exact hc ⟨h.1, fun ho => h.2 ⟨ho, h38⟩⟩
      rw [sansEspCollee_append hw h38, sansEspCollee_cons hc, ← hvide]
      by_cases hb : Blanc c
      · have hdec : decoupe w (c :: line) = ajoute w (decoupe [] line) := by
          simp [decoupe, hf, hb, ajouteMot_eq]
        have hsci : scinde Blanc Operateur w (c :: line) = ajoute w (scinde Blanc Operateur [] line) := by
          simp [scinde, hb]
        rw [hdec, hsci, Jetons.ajoute_inj]
      · have ho : Operateur c := ((finDeMot_iff c).1 hf).elim (absurd · hb) And.left
        have hdec : decoupe w (c :: line) = ajoute w ([c] :: decoupe [] line) := by
          simp [decoupe, hf, hb, ho, ajouteMot_eq]
        have hsci : scinde Blanc Operateur w (c :: line) = ajoute w ([c] :: scinde Blanc Operateur [] line) := by
          simp [scinde, hb, ho]
        rw [hdec, hsci, Jetons.ajoute_inj, List.cons_inj_right]

theorem flatten_decoupe (w line : Octets) : (decoupe w line).flatten = w ++ line.filter fun c => ¬Blanc c := by
  have hajoute (w : Octets) (tab : List Octets) : (ajouteMot w tab).flatten = w ++ tab.flatten := by
    unfold ajouteMot
    split_ifs with h
    · rw [h, List.nil_append]
    · rfl
  induction line generalizing w with
  | nil => simp [decoupe, hajoute]
  | cons c line ih =>
    rw [decoupe]
    split_ifs with hc hb ho
    · have hb : ¬Blanc c := fun hb => hc.2 (Or.inl hb)
      simp [ih, hb]
    · simp [hajoute, ih, hb]
    · simp [hajoute, ih, hb]
    · simp [hajoute, ih, hb]

/-- the words put end to end are always the line without its blanks -/
theorem flatten_splitInWords (line : Octets) : (splitInWords line).flatten = line.filter fun c => ¬Blanc c :=
  flatten_decoupe [] line

/-- what the loops return on a line is its one division into tokens -/
structure EstDecoupageUnique (line : Octets) (tab : List Octets) : Prop where
  termine : ∀ k r, line.length < k → curseur (line ++ 0 :: r) k 0 [] = some tab
  unique : ∀ ts, Decoupage Blanc Operateur line ts ↔ ts = tab
  concatene : tab.flatten = line.filter fun c => ¬Blanc c

theorem exists_decoupageUnique_iff (h0 : 0 ∉ line) :
    (∃ tab, EstDecoupageUnique line tab) ↔ splitInWords line = scinde Blanc Operateur [] line := by
  apply Iff.intro
  · intro h
    obtain ⟨tab, h⟩ := h
    have htab : tab = splitInWords line :=
      Option.some.inj ((h.termine (line.length + 1) [] (by omega)).symm.trans (curseur_splitInWords h0 (by omega)))
    have hs := (h.unique (scinde Blanc Operateur [] line)).1 (Jetons.decoupage_scinde (w := []) (by simp))
    exact (hs.trans htab).symm
  · intro h
    refine ⟨splitInWords line, fun k r hk => curseur_splitInWords h0 hk, ?_, flatten_splitInWords line⟩
    intro ts
    rw [Jetons.decoupage_iff operateur_not_blanc, h]

theorem splitInWords_eq_scinde_iff : splitInWords line = scinde Blanc Operateur [] line ↔ SansEspCollee line :=
  decoupe_eq_scinde_iff (w := []) (by simp)

/-- **The words are the tokens of the line** exactly when no `&` comes right after a letter. -/
theorem splitInWords_iff (h0 : 0 ∉ line) : (∃ tab, EstDecoupageUnique line tab) ↔ SansEspCollee line :=
  (exists_decoupageUnique_iff h0).trans splitInWords_eq_scinde_iff

theorem splitInWords_espace : ∃ tab, EstDecoupageUnique (octets "ls -l|wc &") tab :=
  (splitInWords_iff (by decide)).2 (splitInWords_eq_scinde_iff.1 (by decide))

/-- in `ls&` the inner loop takes the `&` -/
theorem splitInWords_colle :
    0 ∉ octets "ls&" ∧ splitInWords (octets "ls&") = [octets "ls&"] ∧
      ¬∃ tab, EstDecoupageUnique (octets "ls&") tab := by
  have h0 : 0 ∉ octets "ls&" := by decide
  have hne : splitInWords (octets "ls&") ≠ scinde Blanc Operateur [] (octets "ls&") := by decide
  exact ⟨h0, by decide, fun h => hne ((exists_decoupageUnique_iff h0).1 h)⟩

end Semestre6.Shell
