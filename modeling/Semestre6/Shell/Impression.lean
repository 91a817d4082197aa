/-
Command lines written and read back.

- `LigneDeCommande`: a value that a line can stand for; `Ecrit`: the elements that write it, with the pairs and the `&`
  anywhere among the words; `Imprime`: a line with blanks between the tokens;
- `splitInWords_imprime`: the tokens are read back;
- `readcmd_imprime_iff`: `readcmd` returns the value exactly when the structure left before can be freed.
-/
import Semestre6.Shell.Grammaire

namespace Semestre6.Shell

open Semestre6.Ftp (Octets octets)
open Semestre6.Ftp.Parse
open Transition

/-- no blank, newline, NUL, `<`, `>`, `|` or `&` -/
structure Simple (w : Octets) : Prop where
  non_vide : w ≠ []
  blanc : ∀ c ∈ w, ¬Blanc c
  fin : ∀ c ∈ w, c ≠ 10 ∧ c ≠ 0
  operateur : ∀ c ∈ w, ¬Operateur c

instance (w : Octets) : Decidable (Simple w) :=
  -- byte by byte along the word, not by trying the 256 bytes
  letI : Decidable (∀ c ∈ w, ¬Blanc c ∧ (c ≠ 10 ∧ c ≠ 0) ∧ ¬Operateur c) := List.decidableBAll _ w
  decidable_of_iff (w ≠ [] ∧ ∀ c ∈ w, ¬Blanc c ∧ (c ≠ 10 ∧ c ≠ 0) ∧ ¬Operateur c)
    ⟨fun h => ⟨h.1, fun c hc => (h.2 c hc).1, fun c hc => (h.2 c hc).2.1, fun c hc => (h.2 c hc).2.2⟩,
      fun h => ⟨h.non_vide, fun c hc => ⟨h.blanc c hc, h.fin c hc, h.operateur c hc⟩⟩⟩

structure LigneDeCommande where
  seq : List (List Octets)
  inFile : Option Octets
  outFile : Option Octets
  background : Bool
  non_vide : seq ≠ []
  commandes : ∀ cmd ∈ seq, cmd ≠ []
  mots : ∀ cmd ∈ seq, ∀ w ∈ cmd, Simple w
  entree : ∀ f ∈ inFile, Simple f
  sortie : ∀ f ∈ outFile, Simple f

/-- the elements say the value -/
structure Ecrit (c : LigneDeCommande) (es : List Element) : Prop where
  seq : commandes es = c.seq
  inFile : entrees es = c.inFile.toList
  outFile : sorties es = c.outFile.toList
  background : Element.esp ∈ es ↔ c.background = true

/-- each token with the blanks before it, and those at the end -/
def assemble (ps : List (Octets × Octets)) (fin : Octets) : Octets := ps.flatMap (fun p => p.1 ++ p.2) ++ fin

/-- a line of these tokens, with blanks between them -/
def Imprime (ts : List Octets) (line : Octets) : Prop :=
  ∃ ps fin, line = assemble ps fin ∧ ps.map Prod.snd = ts ∧ (∀ p ∈ ps, ∀ c ∈ p.1, Blanc c) ∧ (∀ c ∈ fin, Blanc c) ∧
    ∀ p ∈ ps.tail, p.1 ≠ []

/-! ## The tokens are read back -/

/-- a token of a printed line -/
def Imprimable (t : Octets) : Prop := (∃ c, Operateur c ∧ t = [c]) ∨ Simple t

/-- what stands after a token: the end or a blank -/
def Detache (cur : Octets) : Prop := cur = [] ∨ ∃ c r, cur = c :: r ∧ Blanc c

theorem decoupe_blancs {b : Octets} (hb : ∀ c ∈ b, Blanc c) (cur : Octets) :
    decoupe [] (b ++ cur) = decoupe [] cur := by
  induction b with
  | nil => rfl
  | cons c b ih =>
    have hc : Blanc c := hb c List.mem_cons_self
    calc decoupe [] (c :: (b ++ cur)) = decoupe [] (b ++ cur) := by simp [decoupe, hc, ajouteMot]
      _ = decoupe [] cur := ih fun x hx => hb x (List.mem_cons_of_mem c hx)

/-- the bytes of a word join the word being read -/
theorem decoupe_mot {v w : Octets} (hv : v ≠ []) (hw : ∀ c ∈ w, ¬Blanc c ∧ ¬Operateur c) (cur : Octets) :
    decoupe v (w ++ cur) = decoupe (v ++ w) cur := by
  induction w generalizing v with
  | nil => simp
  | cons c w ih =>
    obtain ⟨hb, ho⟩ := hw c List.mem_cons_self
    have hf : ¬FinDeMot c := by
      rintro (h | h | h | h)
      · exact hb h
      · exact ho (Or.inl h)
      · exact ho (Or.inr (Or.inl h))
      · exact ho (Or.inr (Or.inr (Or.inl h)))
    calc decoupe v (c :: (w ++ cur)) = decoupe (v ++ [c]) (w ++ cur) := by simp [decoupe, hv, hf]
      _ = decoupe (v ++ [c] ++ w) cur := ih (by simp) fun x hx => hw x (List.mem_cons_of_mem c hx)
      _ = decoupe (v ++ c :: w) cur := by simp

theorem decoupe_fin {v cur : Octets} (hv : v ≠ []) (h : Detache cur) : decoupe v cur = v :: decoupe [] cur := by
  rcases h with rfl | ⟨c, r, rfl, hc⟩
  · simp [decoupe, ajouteMot, hv]
  · have hf : FinDeMot c := Or.inl hc
    simp [decoupe, ajouteMot, hv, hf, hc]

theorem decoupe_jeton {t cur : Octets} (ht : Imprimable t) (h : Detache cur) :
    decoupe [] (t ++ cur) = t :: decoupe [] cur := by
  rcases ht with ⟨c, hc, rfl⟩ | ht
  · have hb : ¬Blanc c := by rcases hc with rfl | rfl | rfl | rfl <;> decide
    simp [decoupe, ajouteMot, hb, hc]
  · obtain ⟨c, w, rfl⟩ := List.exists_cons_of_ne_nil ht.non_vide
    have hb := ht.blanc c List.mem_cons_self
    have ho := ht.operateur c List.mem_cons_self
    calc decoupe [] (c :: (w ++ cur)) = decoupe [c] (w ++ cur) := by simp [decoupe, ajouteMot, hb, ho]
      _ = decoupe ([c] ++ w) cur := decoupe_mot (by simp)
          (fun x hx => ⟨ht.blanc x (List.mem_cons_of_mem c hx), ht.operateur x (List.mem_cons_of_mem c hx)⟩) cur
      _ = (c :: w) :: decoupe [] cur := decoupe_fin (by simp) h

theorem detache_assemble {ps : List (Octets × Octets)} {fin : Octets} (hb : ∀ p ∈ ps, ∀ c ∈ p.1, Blanc c)
    (hne : ∀ p ∈ ps, p.1 ≠ []) (hf : ∀ c ∈ fin, Blanc c) : Detache (assemble ps fin) := by
  cases ps with
  | nil =>
    cases fin with
    | nil => exact Or.inl rfl
    | cons c r => exact Or.inr ⟨c, r, rfl, hf c List.mem_cons_self⟩
  | cons p ps =>
    obtain ⟨c, b, hp⟩ := List.exists_cons_of_ne_nil (hne p List.mem_cons_self)
    have hc : Blanc c := hb p List.mem_cons_self c (by simp [hp])
    exact Or.inr ⟨c, b ++ (p.2 ++ assemble ps fin), by simp [assemble, hp], hc⟩

theorem splitInWords_assemble {ps : List (Octets × Octets)} {fin : Octets} (ht : ∀ p ∈ ps, Imprimable p.2)
    (hb : ∀ p ∈ ps, ∀ c ∈ p.1, Blanc c) (hne : ∀ p ∈ ps.tail, p.1 ≠ []) (hf : ∀ c ∈ fin, Blanc c) :
    splitInWords (assemble ps fin) = ps.map Prod.snd := by
  induction ps with
  | nil =>
    have h := decoupe_blancs hf []
    rw [List.append_nil] at h
    exact h
  | cons p ps ih =>
    have hb' : ∀ q ∈ ps, ∀ c ∈ q.1, Blanc c := fun q hq => hb q (List.mem_cons_of_mem p hq)
    have hdet : Detache (assemble ps fin) := detache_assemble hb' hne hf
    have hsuite : splitInWords (assemble ps fin) = ps.map Prod.snd :=
      ih (fun q hq => ht q (List.mem_cons_of_mem p hq)) hb' fun q hq => hne q (List.mem_of_mem_tail hq)
    calc splitInWords (assemble (p :: ps) fin)
        = decoupe [] (p.1 ++ (p.2 ++ assemble ps fin)) := by
          simp [splitInWords, Ftp.Parse.splitInWords, assemble]
      _ = decoupe [] (p.2 ++ assemble ps fin) := decoupe_blancs (hb p List.mem_cons_self) _
      _ = p.2 :: decoupe [] (assemble ps fin) := decoupe_jeton (ht p List.mem_cons_self) hdet
      _ = (p :: ps).map Prod.snd := congrArg (p.2 :: ·) hsuite

theorem splitInWords_imprime {ts : List Octets} {line : Octets} (ht : ∀ t ∈ ts, Imprimable t) (h : Imprime ts line) :
    splitInWords line = ts := by
  obtain ⟨ps, fin, rfl, rfl, hb, hf, hne⟩ := h
  exact splitInWords_assemble (fun p hp => ht p.2 (List.mem_map_of_mem hp)) hb hne hf

/-! ## The value is read back -/

theorem Simple.ordinaire {w : Octets} (h : Simple w) : MotOrdinaire w := by
  refine ⟨h.non_vide, ?_⟩
  rintro ⟨c, hc, hop⟩
  exact h.operateur c (List.mem_of_mem_head? hc) hop

theorem mem_flatten_commandes {es : List Element} {w : Octets} (h : Element.mot w ∈ es) :
    w ∈ (commandes es).flatten := by
  have hpre (d : List Octets) (l : List (List Octets)) : (prefixe d l).flatten = d ++ l.flatten := by
    cases l <;> simp [prefixe]
  induction es with
  | nil => cases h
  | cons e es ih =>
    rcases List.mem_cons.1 h with rfl | h
    · simp [commandes, hpre]
    · have hm := ih h
      cases e with
      | mot v => simp [commandes, hpre, hm]
      | tube => simpa [commandes] using hm
      | entree f => exact hm
      | sortie f => exact hm
      | esp => exact hm

/-- the words and file names of the elements are those of the value -/
theorem Ecrit.simple {c : LigneDeCommande} {es : List Element} (h : Ecrit c es) :
    (∀ w, Element.mot w ∈ es → Simple w) ∧ (∀ f, Element.entree f ∈ es → Simple f) ∧
      ∀ f, Element.sortie f ∈ es → Simple f := by
  refine ⟨?_, ?_, ?_⟩
  · intro w hw
    have hm := mem_flatten_commandes hw
    rw [h.seq] at hm
    obtain ⟨cmd, hcmd, hwc⟩ := List.mem_flatten.1 hm
    exact c.mots cmd hcmd w hwc
  · intro f hf
    have hm : f ∈ entrees es := List.mem_filterMap.2 ⟨.entree f, hf, rfl⟩
    rw [h.inFile] at hm
    exact c.entree f (by simpa using hm)
  · intro f hf
    have hm : f ∈ sorties es := List.mem_filterMap.2 ⟨.sortie f, hf, rfl⟩
    rw [h.outFile] at hm
    exact c.sortie f (by simpa using hm)

theorem Ecrit.debut {c : LigneDeCommande} {es : List Element} (h : Ecrit c es) : Debut es := by
  obtain ⟨hw, hi, ho⟩ := h.simple
  refine ⟨?_, ?_, ?_, ?_⟩
  · intro e he
    cases e with
    | mot w => exact (hw w he).ordinaire
    | entree f => exact (hi f he).ordinaire
    | sortie f => exact (ho f he).ordinaire
    | tube => trivial
    | esp => trivial
  · rw [h.inFile]
    cases c.inFile <;> simp
  · rw [h.outFile]
    cases c.outFile <;> simp
  · intro cmd hcmd
    rw [h.seq] at hcmd
    exact c.commandes cmd (List.mem_of_mem_dropLast hcmd)

theorem Ecrit.imprimable {c : LigneDeCommande} {es : List Element} (h : Ecrit c es) :
    ∀ t ∈ jetons es, Imprimable t := by
  obtain ⟨hw, hi, ho⟩ := h.simple
  intro t ht
  obtain ⟨e, he, hte⟩ := List.mem_flatMap.1 ht
  cases e with
  | mot w =>
    rw [List.mem_singleton.1 hte]
    exact Or.inr (hw w he)
  | entree f =>
    rcases List.mem_cons.1 hte with rfl | hte
    · exact Or.inl ⟨60, by decide, rfl⟩
    · rw [List.mem_singleton.1 hte]
      exact Or.inr (hi f he)
  | sortie f =>
    rcases List.mem_cons.1 hte with rfl | hte
    · exact Or.inl ⟨62, by decide, rfl⟩
    · rw [List.mem_singleton.1 hte]
      exact Or.inr (ho f he)
  | tube => exact Or.inl ⟨124, by decide, List.mem_singleton.1 hte⟩
  | esp => exact Or.inl ⟨38, by decide, List.mem_singleton.1 hte⟩

theorem readcmd_ecrit {c : LigneDeCommande} {es : List Element} (he : Ecrit c es) {line : Octets}
    (hi : Imprime (jetons es) line) {avant : Option Cmdline} (hl : Liberable avant) :
    readcmd avant (some line) = some (some ⟨none, c.inFile, c.outFile, some c.seq, c.background⟩) := by
  have hd := he.debut
  have hT := hd.tenu
  have hcmd : ∀ cmd ∈ commandes es, cmd ≠ [] := by
    intro cmd hm
    rw [he.seq] at hm
    exact c.commandes cmd hm
  have hin : (run Lecture.apres .vide es).inFile = c.inFile := by
    have h := hT.entrees.trans he.inFile
    revert h
    cases (run Lecture.apres .vide es).inFile <;> cases c.inFile <;> simp
  have hout : (run Lecture.apres .vide es).outFile = c.outFile := by
    have h := hT.sorties.trans he.outFile
    revert h
    cases (run Lecture.apres .vide es).outFile <;> cases c.outFile <;> simp
  have hbg : (run Lecture.apres .vide es).background = c.background := by
    rw [hT.background]
    by_cases hb : c.background = true
    · simp [he.background.2 hb, hb]
    · simp [mt he.background.1 hb, hb]
  obtain ⟨-, hr⟩ := (readcmd_eq avant (some line)).resolve_right fun h => h.1 hl
  calc readcmd avant (some line) = (lit (jetons es)).map some := by
        rw [hr, Option.elim_some, splitInWords_imprime he.imprimable hi]
    _ = some (some ⟨none, c.inFile, c.outFile, some c.seq, c.background⟩) := by
      rw [hd.commencee.lit_ligne hcmd, hin, hout, hbg, he.seq]
      rfl

/-- **When command lines are read back.** For every value, every way of placing the pairs and the `&` among its words,
every choice of blanks between the tokens and every structure left by the call before: `readcmd` on the line returns
exactly the value if and only if the structure left before holds no operator as a string. -/
theorem readcmd_imprime_iff (c : LigneDeCommande) (es : List Element) (he : Ecrit c es) (line : Octets)
    (hi : Imprime (jetons es) line) (avant : Option Cmdline) :
    readcmd avant (some line) = some (some ⟨none, c.inFile, c.outFile, some c.seq, c.background⟩) ↔
      Liberable avant := by
  constructor
  · intro hr
    rcases readcmd_eq avant (some line) with ⟨hl, -⟩ | ⟨-, hn⟩
    · exact hl
    · rw [hn] at hr
      cases hr
  · intro hl
    exact readcmd_ecrit he hi hl

/-- two commands, an input file, in the background -/
def exemple : LigneDeCommande where
  seq := [[octets "a"], [octets "b"]]
  inFile := some (octets "f")
  outFile := none
  background := true
  non_vide := by simp
  commandes := by decide
  mots := by decide
  entree := by decide
  sortie := by simp

theorem readcmd_imprime_exemple :
    readcmd none (some (octets "a & |  b < f ")) =
      some (some ⟨none, exemple.inFile, exemple.outFile, some exemple.seq, exemple.background⟩) := by
  refine (readcmd_imprime_iff exemple [.mot (octets "a"), .esp, .tube, .mot (octets "b"), .entree (octets "f")] ?_ _ ?_
    none).2 (by simp [Liberable])
  · exact ⟨by decide, by decide, by decide, by decide⟩
  · exact ⟨[([], octets "a"), ([32], [38]), ([32], [124]), ([32, 32], octets "b"), ([32], [60]), ([32], octets "f")],
      [32],
      by decide, by decide, by simp [Blanc], by simp [Blanc], by decide⟩

/-- the value of the line `ls` -/
def ls : LigneDeCommande where
  seq := [[octets "ls"]]
  inFile := none
  outFile := none
  background := false
  non_vide := by simp
  commandes := by decide
  mots := by decide
  entree := by simp
  sortie := by simp

/-- **A literal is freed.** The line `cat < |` is accepted with the pipe as its input file; the next line is `ls`, which
writes a value, and the call frees the literal. -/
theorem litteral_libere :
    ∃ s, readcmd none (some (octets "cat < |")) = some (some s) ∧ s.err = none ∧ Ecrit ls [.mot (octets "ls")] ∧
      Imprime (jetons [.mot (octets "ls")]) (octets "ls") ∧ readcmd (some s) (some (octets "ls")) = none := by
  refine ⟨⟨none, some (octets "|"), none, some [[octets "cat"]], false⟩, by decide +kernel, rfl, ?_, ?_,
    by decide +kernel⟩
  · exact ⟨by decide, by decide, by decide, by decide⟩
  · exact ⟨[([], octets "ls")], [], by decide, by decide, by simp, by simp, by simp⟩

end Semestre6.Shell
