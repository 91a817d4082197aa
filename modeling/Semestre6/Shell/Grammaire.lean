/-
The grammar of command lines and the lines that `readcmd` accepts.

A line is a list of elements: words, the pairs `<` file and `>` file, pipes and `&`. The grammar is stated on it:
`entrees`, `sorties` and `commandes` are what the elements say, `jetons` the tokens they are written with.

- `analyse_jetons`: the loop follows the elements, one step (`apres`) for each that is admitted (`admis`);
- `debut_iff`: the elements that are all admitted are the beginnings of lines;
- `decoupage`: every list of tokens is a line or the beginning of one, up to the first token that is out of place;
- `readcmd_iff`: a call does what readcmd.h says of every line but three kinds: those without a word or a pipe, those
  that give an operator as a file name, and those refused before an `&`.
Witness that the condition is needed: `ligne_vide`, the empty line, whose `seq[0]` is null.
-/
import Semestre6.Lib.Transition
import Semestre6.Shell.Readcmd

namespace Semestre6.Shell

open Semestre6.Ftp (Octets octets)
open Semestre6.Ftp.Parse
open Transition

/-- a word that is not an operator -/
def MotOrdinaire (w : Octets) : Prop := w ≠ [] ∧ ¬Litteral w

inductive Element where
  | mot (w : Octets)
  | entree (f : Octets)
  | sortie (f : Octets)
  | tube
  | esp
deriving DecidableEq, Repr

namespace Element

def jetons : Element → List Octets
  | mot w => [w]
  | entree f => [[60], f]
  | sortie f => [[62], f]
  | tube => [[124]]
  | esp => [[38]]

def Ordinaire : Element → Prop
  | mot w => MotOrdinaire w
  | entree f => MotOrdinaire f
  | sortie f => MotOrdinaire f
  | tube => True
  | esp => True

/-- the words of commands are ordinary and the file names meet `P`; the loop takes any token as a name -/
def Lisible (P : Octets → Prop) : Element → Prop
  | mot w => MotOrdinaire w
  | entree f => P f
  | sortie f => P f
  | tube => True
  | esp => True

theorem ordinaire_iff (e : Element) : e.Ordinaire ↔ e.Lisible MotOrdinaire := by cases e <;> exact Iff.rfl

end Element

/-- the tokens of a line -/
def jetons (es : List Element) : List Octets := es.flatMap Element.jetons

def entrees (es : List Element) : List Octets := es.filterMap fun | .entree f => some f | _ => none

def sorties (es : List Element) : List Octets := es.filterMap fun | .sortie f => some f | _ => none

/-- words in front of those of the first command -/
def prefixe (d : List Octets) : List (List Octets) → List (List Octets)
  | c :: cs => (d ++ c) :: cs
  | [] => [d]

/-- the words of each command -/
def commandes : List Element → List (List Octets)
  | [] => [[]]
  | .mot w :: es => prefixe [w] (commandes es)
  | .tube :: es => [] :: commandes es
  | .entree _ :: es => commandes es
  | .sortie _ :: es => commandes es
  | .esp :: es => commandes es

/-- the beginning of a line: the last command may have no word yet -/
structure Debut (es : List Element) : Prop where
  ordinaire : ∀ e ∈ es, e.Ordinaire
  entree : (entrees es).length ≤ 1
  sortie : (sorties es).length ≤ 1
  tubes : ∀ c ∈ (commandes es).dropLast, c ≠ []

/-- the beginning of a line whose file names only have to meet `P` -/
structure Commencee (P : Octets → Prop) (es : List Element) : Prop where
  lisible : ∀ e ∈ es, e.Lisible P
  entree : (entrees es).length ≤ 1
  sortie : (sorties es).length ≤ 1
  tubes : ∀ c ∈ (commandes es).dropLast, c ≠ []

theorem debut_iff (es : List Element) : Debut es ↔ Commencee MotOrdinaire es := by
  apply Iff.intro
  · intro h
    exact ⟨fun e he => (e.ordinaire_iff).1 (h.ordinaire e he), h.entree, h.sortie, h.tubes⟩
  · intro h
    exact ⟨fun e he => (e.ordinaire_iff).2 (h.lisible e he), h.entree, h.sortie, h.tubes⟩

theorem Debut.commencee {es : List Element} (h : Debut es) : Commencee MotOrdinaire es := (debut_iff es).1 h

/-- one or more commands separated by pipes, each with a word, at most one pair of each kind, any number of `&` -/
def Grammaire (ts : List Octets) : Prop := ∃ es, Debut es ∧ (∀ c ∈ commandes es, c ≠ []) ∧ jetons es = ts

/-! ## The elements of a line -/

theorem prefixe_ne (d : List Octets) (l : List (List Octets)) : prefixe d l ≠ [] := by cases l <;> simp [prefixe]

theorem commandes_ne (es : List Element) : commandes es ≠ [] := by
  induction es with
  | nil => simp [commandes]
  | cons e es ih =>
    cases e with
    | mot w => exact prefixe_ne _ _
    | tube => simp [commandes]
    | entree f => exact ih
    | sortie f => exact ih
    | esp => exact ih

theorem prefixe_nil {l : List (List Octets)} (h : l ≠ []) : prefixe [] l = l := by
  cases l with
  | nil => exact absurd rfl h
  | cons c l => rfl

theorem prefixe_prefixe (a b : List Octets) (l : List (List Octets)) :
    prefixe a (prefixe b l) = prefixe (a ++ b) l := by
  cases l <;> simp [prefixe]

theorem prefixe_append {d : List Octets} {l l' : List (List Octets)} (h : l ≠ []) :
    prefixe d (l ++ l') = prefixe d l ++ l' := by
  cases l with
  | nil => exact absurd rfl h
  | cons c l => rfl

@[simp] theorem entrees_append (es es' : List Element) : entrees (es ++ es') = entrees es ++ entrees es' := by
  simp [entrees]

@[simp] theorem sorties_append (es es' : List Element) : sorties (es ++ es') = sorties es ++ sorties es' := by
  simp [sorties]

theorem commandes_tube (es es' : List Element) : commandes (es ++ .tube :: es') = commandes es ++ commandes es' := by
  induction es with
  | nil => rfl
  | cons e es ih =>
    cases e with
    | mot w => simp [commandes, ih, prefixe_append (commandes_ne es)]
    | tube => simp [commandes, ih]
    | entree f => simpa [commandes] using ih
    | sortie f => simpa [commandes] using ih
    | esp => simpa [commandes] using ih

/-- a line is read in one way only -/
theorem jetons_suite {es es' : List Element} {t : List Octets} (h : ∀ e ∈ es, e.Ordinaire)
    (h' : ∀ e ∈ es', e.Ordinaire) (ht : jetons es ++ t = jetons es') : ∃ es'', es' = es ++ es'' ∧ t = jetons es'' := by
  induction es generalizing es' with
  | nil => exact ⟨es', rfl, by simpa [jetons] using ht⟩
  | cons e es ih =>
    cases es' with
    | nil => cases e <;> simp [jetons, Element.jetons] at ht
    | cons e' es' =>
      have hlit (c : UInt8) (hc : Operateur c) (w : Octets) (hw : MotOrdinaire w) : w ≠ [c] := by
        rintro rfl
        exact hw.2 ⟨c, rfl, hc⟩
      have he := h e List.mem_cons_self
      have he' := h' e' List.mem_cons_self
      have hsuite : e = e' ∧ jetons es ++ t = jetons es' := by
        cases e <;> cases e' <;>
          simp only [jetons, Element.jetons, List.flatMap_cons, List.cons_append, List.nil_append, List.cons.injEq,
            Element.Ordinaire] at ht he he' <;>
          grind [Operateur, jetons]
      obtain ⟨rfl, hsuite⟩ := hsuite
      obtain ⟨es'', rfl, rfl⟩ := ih (fun x hx => h x (List.mem_cons_of_mem e hx))
        (fun x hx => h' x (List.mem_cons_of_mem e hx)) hsuite
      exact ⟨es'', rfl, rfl⟩

/-! ## The loop follows the elements -/

namespace Lecture

/-- what the loop does with an element -/
def apres (l : Lecture) : Element → Lecture
  | .mot w => { l with cmd := l.cmd ++ [w] }
  | .entree f => { l with inFile := some f }
  | .sortie f => { l with outFile := some f }
  | .tube => { l with seq := l.seq ++ [l.cmd], cmd := [] }
  | .esp => { l with background := true }

/-- the loop takes the element without an error -/
def admis (l : Lecture) : Element → Prop
  | .mot _ => True
  | .entree _ => l.inFile = none
  | .sortie _ => l.outFile = none
  | .tube => l.cmd ≠ []
  | .esp => True

end Lecture

open Lecture

theorem debute_ordinaire {w : Octets} (h : MotOrdinaire w) {c : UInt8} (hc : Operateur c) : ¬Debute w c :=
  fun hd => h.2 ⟨c, hd, hc⟩

theorem analyse_element {P : Octets → Prop} {e : Element} {l : Lecture} (he : e.Lisible P) (ha : l.admis e)
    (ts : List Octets) : analyse (e.jetons ++ ts) l = analyse ts (l.apres e) := by
  cases e with
  | mot w =>
    have h60 : ¬Debute w 60 := debute_ordinaire he (by decide)
    have h62 : ¬Debute w 62 := debute_ordinaire he (by decide)
    have h124 : ¬Debute w 124 := debute_ordinaire he (by decide)
    have h38 : ¬Debute w 38 := debute_ordinaire he (by decide)
    change analyse (w :: ts) l = _
    conv_lhs => unfold analyse
    simp [apres, h60, h62, h124, h38]
  | entree f =>
    have hin : l.inFile = none := ha
    change analyse ([60] :: f :: ts) l = _
    simp [analyse, apres, Debute, hin]
  | sortie f =>
    have hout : l.outFile = none := ha
    change analyse ([62] :: f :: ts) l = _
    simp [analyse, apres, Debute, hout]
  | tube =>
    have hcmd : l.cmd ≠ [] := ha
    change analyse ([124] :: ts) l = _
    conv_lhs => unfold analyse
    simp [apres, Debute, hcmd]
  | esp =>
    change analyse ([38] :: ts) l = _
    conv_lhs => unfold analyse
    simp [apres, Debute]

theorem analyse_jetons {P : Octets → Prop} {es : List Element} {l : Lecture} (he : ∀ e ∈ es, e.Lisible P)
    (ha : Always apres admis l es) (ts : List Octets) :
    analyse (jetons es ++ ts) l = analyse ts (run apres l es) := by
  induction es generalizing l with
  | nil => rfl
  | cons e es ih =>
    have hj : jetons (e :: es) ++ ts = e.jetons ++ (jetons es ++ ts) := by simp [jetons]
    calc analyse (jetons (e :: es) ++ ts) l
        = analyse (jetons es ++ ts) (l.apres e) := by rw [hj, analyse_element (he e List.mem_cons_self) ha.1]
      _ = analyse ts (run apres (l.apres e) es) := ih (fun x hx => he x (List.mem_cons_of_mem e hx)) ha.2

/-- what the fields hold after the elements -/
theorem run_apres (l : Lecture) (es : List Element) (ha : Always apres admis l es) :
    (run apres l es).inFile.toList = l.inFile.toList ++ entrees es ∧
      (run apres l es).outFile.toList = l.outFile.toList ++ sorties es ∧
      (run apres l es).seq ++ [(run apres l es).cmd] = l.seq ++ prefixe l.cmd (commandes es) ∧
      (run apres l es).background = (l.background || decide (Element.esp ∈ es)) := by
  induction es generalizing l with
  | nil => simp [run, entrees, sorties, commandes, prefixe]
  | cons e es ih =>
    obtain ⟨hi, ho, hs, hb⟩ := ih (l.apres e) ha.2
    have hr : run apres l (e :: es) = run apres (l.apres e) es := rfl
    rw [hr, hi, ho, hs, hb]
    cases e with
    | mot w => simp [apres, entrees, sorties, commandes, prefixe_prefixe]
    | entree f =>
      have hin : l.inFile = none := ha.1
      simp [apres, entrees, sorties, commandes, hin]
    | sortie f =>
      have hout : l.outFile = none := ha.1
      simp [apres, entrees, sorties, commandes, hout]
    | tube =>
      have hp : prefixe l.cmd ([] :: commandes es) = l.cmd :: commandes es := by simp [prefixe]
      simp [apres, entrees, sorties, commandes, hp, prefixe_nil (commandes_ne es)]
    | esp => simp [apres, entrees, sorties, commandes]

/-- the elements are all admitted when there is one pair of each kind at most and every pipe has a command before it -/
theorem always_admis_iff (l : Lecture) (es : List Element) :
    Always apres admis l es ↔ (l.inFile.toList ++ entrees es).length ≤ 1 ∧
      (l.outFile.toList ++ sorties es).length ≤ 1 ∧ ∀ c ∈ (prefixe l.cmd (commandes es)).dropLast, c ≠ [] := by
  induction es generalizing l with
  | nil =>
    have h1 : l.inFile.toList.length ≤ 1 := by cases l.inFile <;> simp
    have h2 : l.outFile.toList.length ≤ 1 := by cases l.outFile <;> simp
    simp [Always, entrees, sorties, commandes, prefixe, h1, h2]
  | cons e es ih =>
    rw [always_cons, ih]
    cases e with
    | mot w => simp [admis, apres, entrees, sorties, commandes, prefixe_prefixe]
    | entree f =>
      cases hin : l.inFile with
      | none => simp [admis, apres, entrees, sorties, commandes, hin]
      | some g => simp [admis, entrees, hin]
    | sortie f =>
      cases hout : l.outFile with
      | none => simp [admis, apres, entrees, sorties, commandes, hout]
      | some g => simp [admis, sorties, hout]
    | tube =>
      have hd : (prefixe l.cmd (commandes (.tube :: es))).dropLast = l.cmd :: (commandes es).dropLast := by
        simp [commandes, prefixe, List.dropLast_cons_of_ne_nil (commandes_ne es)]
      rw [hd]
      simp [admis, apres, entrees, sorties, prefixe_nil (commandes_ne es)]
      tauto
    | esp => simp [admis, apres, entrees, sorties, commandes]

theorem commencee_iff (P : Octets → Prop) (es : List Element) :
    Commencee P es ↔ (∀ e ∈ es, e.Lisible P) ∧ Always apres admis .vide es := by
  rw [always_admis_iff]
  simp only [vide, Option.toList_none, List.nil_append, prefixe_nil (commandes_ne es)]
  exact ⟨fun h => ⟨h.lisible, h.entree, h.sortie, h.tubes⟩, fun ⟨h1, h2, h3, h4⟩ => ⟨h1, h2, h3, h4⟩⟩

/-! ## Tokens -/

/-- what `split_in_words` gives: an operator alone, or a word that does not begin with one -/
def Jeton (w : Octets) : Prop := (∃ c, Operateur c ∧ w = [c]) ∨ MotOrdinaire w

theorem jeton_ajouteMot {w m : Octets} {tab : List Octets} (hw : w = [] ∨ MotOrdinaire w) (htab : ∀ m ∈ tab, Jeton m)
    (hm : m ∈ ajouteMot w tab) : Jeton m := by
  rcases ajouteMot_ne hm with ⟨rfl, hne⟩ | hm
  · exact Or.inr (hw.resolve_left hne)
  · exact htab m hm

/-- the word being read is empty or does not begin with an operator -/
theorem jeton_decoupe {w cur m : Octets} (hw : w = [] ∨ MotOrdinaire w) (h : m ∈ decoupe w cur) : Jeton m := by
  induction cur generalizing w m with
  | nil => exact jeton_ajouteMot hw (by simp) h
  | cons c cur ih =>
    unfold decoupe at h
    split_ifs at h with hc hb hop
    · obtain ⟨-, hlit⟩ := hw.resolve_left hc.1
      refine ih (Or.inr ⟨by simp, ?_⟩) h
      rintro ⟨c', hc', hop⟩
      rw [List.head?_append_of_ne_nil _ hc.1] at hc'
      exact hlit ⟨c', hc', hop⟩
    · exact jeton_ajouteMot hw (fun m hm => ih (Or.inl rfl) hm) h
    · refine jeton_ajouteMot hw (fun m hm => ?_) h
      rcases List.mem_cons.1 hm with rfl | hm
      · exact Or.inl ⟨c, hop, rfl⟩
      · exact ih (Or.inl rfl) hm
    · have hord : MotOrdinaire [c] := by
        refine ⟨by simp, ?_⟩
        rintro ⟨c', hc', hop'⟩
        simp only [List.head?_cons, Option.mem_def, Option.some.injEq] at hc'
        exact hop (hc' ▸ hop')
      exact jeton_ajouteMot hw (fun m hm => ih (Or.inr hord) hm) h

theorem jeton_splitInWords {line m : Octets} (h : m ∈ splitInWords line) : Jeton m := jeton_decoupe (Or.inl rfl) h

/-- only the operator begins like an operator -/
theorem jeton_debute {w : Octets} (h : Jeton w) {c : UInt8} (hc : Operateur c) (hd : Debute w c) : w = [c] := by
  rcases h with ⟨c', -, rfl⟩ | h
  · have he : c' = c := by simpa [Debute] using hd
    rw [he]
  · exact absurd hd (debute_ordinaire h hc)

/-- the token that a beginning of a line cannot be followed by -/
def Refuse (es : List Element) (c : UInt8) : Prop :=
  (c = 60 ∧ entrees es ≠ []) ∨ (c = 62 ∧ sorties es ≠ []) ∨ (c = 124 ∧ (commandes es).getLast? = some [])

/-- a redirection that a beginning of a line has not yet -/
def Libre (es : List Element) (c : UInt8) : Prop := (c = 60 ∧ entrees es = []) ∨ (c = 62 ∧ sorties es = [])

/-- what can stand after a beginning of a line where its elements stop, when the file names have to meet `P` -/
inductive Reste (P : Octets → Prop) (es : List Element) : List Octets → Prop
  | fin : Reste P es []
  | refus (c : UInt8) (post : List Octets) : Refuse es c → Reste P es ([c] :: post)
  | manque (c : UInt8) : Libre es c → Reste P es [[c]]
  | nom (c : UInt8) (f : Octets) (post : List Octets) : Libre es c → ¬P f → Reste P es ([c] :: f :: post)

/-- the same when they have to be ordinary words -/
inductive Suite (es : List Element) : List Octets → Prop
  | fin : Suite es []
  | refus (c : UInt8) (post : List Octets) : Refuse es c → Suite es ([c] :: post)
  | manque (c : UInt8) : Libre es c → Suite es [[c]]
  | nom (c op : UInt8) (post : List Octets) : Libre es c → Operateur op → Suite es ([c] :: [op] :: post)

theorem commencee_nil (P : Octets → Prop) : Commencee P [] :=
  ⟨by simp, by simp [entrees], by simp [sorties], by simp [commandes]⟩

/-- what the loop holds after a beginning of a line -/
structure Tenu (es : List Element) (l : Lecture) : Prop where
  entrees : l.inFile.toList = entrees es
  sorties : l.outFile.toList = sorties es
  commandes : l.seq ++ [l.cmd] = commandes es
  background : l.background = decide (Element.esp ∈ es)

theorem Commencee.tenu {P : Octets → Prop} {es : List Element} (h : Commencee P es) :
    Tenu es (run apres .vide es) := by
  obtain ⟨hi, ho, hs, hb⟩ := run_apres .vide es ((commencee_iff P es).1 h).2
  refine ⟨by simpa [vide] using hi, by simpa [vide] using ho, ?_, by simpa [vide] using hb⟩
  rw [hs]
  exact prefixe_nil (commandes_ne es)

theorem Debut.tenu {es : List Element} (h : Debut es) : Tenu es (run apres .vide es) := h.commencee.tenu

theorem Tenu.cmd_iff {es : List Element} {l : Lecture} (h : Tenu es l) :
    l.cmd = [] ↔ (Shell.commandes es).getLast? = some [] := by
  rw [← h.commandes, List.getLast?_append]
  simp

theorem Tenu.inFile_iff {es : List Element} {l : Lecture} (h : Tenu es l) :
    l.inFile = none ↔ Shell.entrees es = [] := by
  rw [← h.entrees, Option.toList_eq_nil_iff]

theorem Tenu.outFile_iff {es : List Element} {l : Lecture} (h : Tenu es l) :
    l.outFile = none ↔ Shell.sorties es = [] := by
  rw [← h.sorties, Option.toList_eq_nil_iff]

/-- the beginning grows by one element that is admitted -/
theorem Commencee.suivant {P : Octets → Prop} {es : List Element} (h : Commencee P es) {e : Element} (he : e.Lisible P)
    (ha : (run apres .vide es).admis e) : Commencee P (es ++ [e]) := by
  obtain ⟨ho, hal⟩ := (commencee_iff P es).1 h
  refine (commencee_iff P _).2 ⟨?_, (always_append _ _ _).2 ⟨hal, ha, trivial⟩⟩
  intro x hx
  rcases List.mem_append.1 hx with hx | hx
  · exact ho x hx
  · rw [List.mem_singleton.1 hx]
    exact he

/-- every list of tokens is a beginning of a line and what stands after it -/
theorem Commencee.decoupage {P : Octets → Prop} {es : List Element} (h : Commencee P es) (ts : List Octets)
    (hts : ∀ w ∈ ts, Jeton w) :
    ∃ es' reste, Commencee P (es ++ es') ∧ ts = jetons es' ++ reste ∧ Reste P (es ++ es') reste := by
  have hT := h.tenu
  -- one element, then the induction on what follows it
  have hpas {e : Element} (ts' : List Octets) (hlen : ts'.length < ts.length) (heq : ts = e.jetons ++ ts')
      (he : e.Lisible P) (ha : (run apres .vide es).admis e) :
      ∃ es' reste, Commencee P (es ++ es') ∧ ts = jetons es' ++ reste ∧ Reste P (es ++ es') reste := by
    obtain ⟨es', reste, hd, hj, hs⟩ := (h.suivant he ha).decoupage ts'
      fun w hw => hts w (by rw [heq]; exact List.mem_append_right _ hw)
    refine ⟨e :: es', reste, by simpa using hd, ?_, by simpa using hs⟩
    rw [heq, hj]
    simp [jetons]
  cases ts with
  | nil => exact ⟨[], [], by simpa using h, rfl, by simpa using Reste.fin⟩
  | cons w ts =>
    rcases hts w List.mem_cons_self with ⟨c, hc, rfl⟩ | hw
    · have harret (h' : Reste P es ([c] :: ts)) :
          ∃ es' reste, Commencee P (es ++ es') ∧ [c] :: ts = jetons es' ++ reste ∧ Reste P (es ++ es') reste :=
        ⟨[], [c] :: ts, by simpa using h, rfl, by simpa using h'⟩
      -- a redirection that is still free: the end, or a name that meets `P` or not
      have hredir {e : Octets → Element} (hlib : Libre es c) (hj : ∀ f, (e f).jetons = [[c], f])
          (ho : ∀ f, P f → (e f).Lisible P) (ha : ∀ f, (run apres .vide es).admis (e f)) :
          ∃ es' reste, Commencee P (es ++ es') ∧ [c] :: ts = jetons es' ++ reste ∧ Reste P (es ++ es') reste := by
        cases ts with
        | nil => exact harret (Reste.manque c hlib)
        | cons f ts =>
          by_cases hf : P f
          · exact hpas (e := e f) ts (by simp) (by rw [hj]; rfl) (ho f hf) (ha f)
          · exact harret (Reste.nom c f ts hlib hf)
      rcases hc with rfl | rfl | rfl | rfl
      · by_cases hin : entrees es = []
        · exact hredir (e := .entree) (Or.inl ⟨rfl, hin⟩) (fun _ => rfl) (fun _ hf => hf)
            fun _ => hT.inFile_iff.2 hin
        · exact harret (Reste.refus 60 ts (Or.inl ⟨rfl, hin⟩))
      · by_cases hout : sorties es = []
        · exact hredir (e := .sortie) (Or.inr ⟨rfl, hout⟩) (fun _ => rfl) (fun _ hf => hf)
            fun _ => hT.outFile_iff.2 hout
        · exact harret (Reste.refus 62 ts (Or.inr (Or.inl ⟨rfl, hout⟩)))
      · by_cases hcmd : (commandes es).getLast? = some []
        · exact harret (Reste.refus 124 ts (Or.inr (Or.inr ⟨rfl, hcmd⟩)))
        · exact hpas (e := .tube) ts (by simp) rfl trivial fun h => hcmd (hT.cmd_iff.1 h)
      · exact hpas (e := .esp) ts (by simp) rfl trivial trivial
    · exact hpas (e := .mot w) ts (by simp) rfl hw trivial
termination_by ts.length

/-- the same with ordinary file names: what is not one is an operator -/
theorem decoupage (ts : List Octets) (hts : ∀ w ∈ ts, Jeton w) :
    ∃ es reste, Debut es ∧ ts = jetons es ++ reste ∧ Suite es reste := by
  obtain ⟨es, reste, hd, hj, hr⟩ := (commencee_nil MotOrdinaire).decoupage ts hts
  rw [List.nil_append] at hd hr
  refine ⟨es, reste, (debut_iff es).2 hd, hj, ?_⟩
  cases hr with
  | fin => exact .fin
  | refus c post hr => exact .refus c post hr
  | manque c hl => exact .manque c hl
  | nom c f post hl hf =>
    rcases hts f (by simp [hj]) with ⟨op, hop, rfl⟩ | hord
    · exact .nom c op post hl hop
    · exact absurd hord hf

/-! ## What `readcmd` does with them -/

/-- no word that the loop holds is a literal -/
structure Propre (l : Lecture) : Prop where
  seq : ∀ w ∈ l.seq.flatten, ¬Litteral w
  cmd : ∀ w ∈ l.cmd, ¬Litteral w
  inFile : ∀ w ∈ l.inFile.toList, ¬Litteral w
  outFile : ∀ w ∈ l.outFile.toList, ¬Litteral w

theorem Propre.apres {l : Lecture} (h : Propre l) {e : Element} (he : e.Ordinaire) : Propre (l.apres e) := by
  cases e with
  | mot w =>
    refine ⟨h.seq, ?_, h.inFile, h.outFile⟩
    intro v hv
    rcases List.mem_append.1 hv with hv | hv
    · exact h.cmd v hv
    · rw [List.mem_singleton.1 hv]
      exact he.2
  | entree f => exact ⟨h.seq, h.cmd, by simpa [Lecture.apres] using he.2, h.outFile⟩
  | sortie f => exact ⟨h.seq, h.cmd, h.inFile, by simpa [Lecture.apres] using he.2⟩
  | tube =>
    refine ⟨?_, by simp [Lecture.apres], h.inFile, h.outFile⟩
    intro v hv
    simp only [Lecture.apres, List.flatten_append, List.mem_append, List.flatten_cons, List.flatten_nil,
      List.append_nil] at hv
    exact hv.elim (h.seq v) (h.cmd v)
  | esp => exact ⟨h.seq, h.cmd, h.inFile, h.outFile⟩

theorem propre_run {es : List Element} {l : Lecture} (h : Propre l) (he : ∀ e ∈ es, e.Ordinaire) :
    Propre (run apres l es) := by
  induction es generalizing l with
  | nil => exact h
  | cons e es ih => exact ih (h.apres (he e List.mem_cons_self)) fun x hx => he x (List.mem_cons_of_mem e hx)

theorem propre_vide_run {es : List Element} (he : ∀ e ∈ es, e.Ordinaire) : Propre (run apres .vide es) :=
  propre_run ⟨by simp [vide], by simp [vide], by simp [vide], by simp [vide]⟩ he

theorem Commencee.analyse_debut {P : Octets → Prop} {es : List Element} (h : Commencee P es) (ts : List Octets) :
    analyse (jetons es ++ ts) .vide = analyse ts (run apres .vide es) :=
  analyse_jetons h.lisible ((commencee_iff P es).1 h).2 ts

theorem analyse_refus {es : List Element} {l : Lecture} (hT : Tenu es l) {c : UInt8} (hr : Refuse es c)
    (post : List Octets) : ∃ message, analyse ([c] :: post) l = ⟨l, some (message, post)⟩ := by
  rcases hr with ⟨rfl, hin⟩ | ⟨rfl, hout⟩ | ⟨rfl, hcmd⟩
  · have hs : l.inFile.isSome = true := Option.isSome_iff_ne_none.2 fun h => hin (hT.inFile_iff.1 h)
    refine ⟨"only one input file supported", ?_⟩
    unfold analyse
    simp [Debute, hs]
  · have hs : l.outFile.isSome = true := Option.isSome_iff_ne_none.2 fun h => hout (hT.outFile_iff.1 h)
    refine ⟨"only one output file supported", ?_⟩
    unfold analyse
    simp [Debute, hs]
  · have hs : l.cmd = [] := hT.cmd_iff.2 hcmd
    refine ⟨"misplaced pipe", ?_⟩
    unfold analyse
    simp [Debute, hs]

theorem analyse_manque {es : List Element} {l : Lecture} (hT : Tenu es l) {c : UInt8} (hl : Libre es c) :
    ∃ message, analyse [[c]] l = ⟨l, some (message, [])⟩ := by
  rcases hl with ⟨rfl, hin⟩ | ⟨rfl, hout⟩
  · exact ⟨"filename missing for input redirection", by simp [analyse, Debute, hT.inFile_iff.2 hin]⟩
  · exact ⟨"filename missing for output redirection", by simp [analyse, Debute, hT.outFile_iff.2 hout]⟩

/-- a file name that is set stays: another redirection is an error -/
theorem analyse_garde (ts : List Octets) (l : Lecture) :
    (∀ f, l.inFile = some f → (analyse ts l).lecture.inFile = some f) ∧
      ∀ f, l.outFile = some f → (analyse ts l).lecture.outFile = some f := by
  fun_induction analyse ts l <;> simp_all

/-- an operator taken as a file name -/
theorem analyse_nom {es : List Element} {l : Lecture} (hT : Tenu es l) {c : UInt8} (hl : Libre es c) (op : UInt8)
    (post : List Octets) :
    (analyse ([c] :: [op] :: post) l).lecture.inFile = some [op] ∨
      (analyse ([c] :: [op] :: post) l).lecture.outFile = some [op] := by
  rcases hl with ⟨rfl, hin⟩ | ⟨rfl, hout⟩
  · have ha : analyse ([60] :: [op] :: post) l = analyse post { l with inFile := some [op] } := by
      simp [analyse, Debute, hT.inFile_iff.2 hin]
    left
    rw [ha]
    exact (analyse_garde post _).1 [op] rfl
  · have ha : analyse ([62] :: [op] :: post) l = analyse post { l with outFile := some [op] } := by
      simp [analyse, Debute, hT.outFile_iff.2 hout]
    right
    rw [ha]
    exact (analyse_garde post _).2 [op] rfl

/-! ## The lines that are taken as readcmd.h says -/

/-- err tells the grammar, `seq` is a non-empty sequence of non-empty commands, or all is null -/
structure Conforme (ts : List Octets) (s : Cmdline) : Prop where
  grammaire : s.err = none ↔ Grammaire ts
  seq : s.err = none → ∃ seq, s.seq = some seq ∧ seq ≠ [] ∧ ∀ c ∈ seq, c ≠ []
  erreur : s.err ≠ none → s.inFile = none ∧ s.outFile = none ∧ s.seq = none

/-- redirections and `&` only, or nothing: no word of a command, no pipe -/
def SansMot (ts : List Octets) : Prop := ∃ es, Debut es ∧ commandes es = [[]] ∧ jetons es = ts

/-- the first `<` or the first `>` is followed by an operator -/
def OperateurPourNom (ts : List Octets) : Prop :=
  ∃ es c op post, Debut es ∧ Libre es c ∧ Operateur op ∧ ts = jetons es ++ [c] :: [op] :: post

/-- an `&` stands after the token at which the line is refused -/
def EspApresRefus (ts : List Octets) : Prop :=
  ∃ es c post, Debut es ∧ Refuse es c ∧ [38] ∈ post ∧ ts = jetons es ++ [c] :: post

/-- after a beginning of a line, a grammatical line goes on with elements -/
theorem grammaire_suite {es : List Element} (h : Debut es) (reste : List Octets) (hg : Grammaire (jetons es ++ reste)) :
    ∃ es', reste = jetons es' ∧ Debut (es ++ es') ∧ ∀ c ∈ commandes (es ++ es'), c ≠ [] := by
  obtain ⟨es₁, hd, hc, hj⟩ := hg
  obtain ⟨es', rfl, rfl⟩ := jetons_suite h.ordinaire hd.ordinaire hj.symm
  exact ⟨es', rfl, hd, hc⟩

/-- an operator where a line goes on is the head of its element -/
theorem jetons_operateur {es : List Element} (ho : ∀ e ∈ es, e.Ordinaire) {c : UInt8} (hc : Operateur c)
    {post : List Octets} (h : [c] :: post = jetons es) :
    (c = 60 ∧ ∃ f es', es = .entree f :: es' ∧ post = f :: jetons es') ∨
      (c = 62 ∧ ∃ f es', es = .sortie f :: es' ∧ post = f :: jetons es') ∨
      (c = 124 ∧ ∃ es', es = .tube :: es') ∨ c = 38 := by
  cases es with
  | nil => cases h
  | cons e es =>
    have hj : jetons (e :: es) = e.jetons ++ jetons es := rfl
    rw [hj] at h
    cases e with
    | mot w =>
      obtain ⟨rfl, -⟩ := List.cons.inj h
      exact absurd ⟨c, rfl, hc⟩ (ho (.mot [c]) List.mem_cons_self).2
    | entree f =>
      obtain ⟨hcc, hp⟩ := List.cons.inj h
      exact Or.inl ⟨by simpa using hcc, f, es, rfl, hp⟩
    | sortie f =>
      obtain ⟨hcc, hp⟩ := List.cons.inj h
      exact Or.inr (Or.inl ⟨by simpa using hcc, f, es, rfl, hp⟩)
    | tube =>
      obtain ⟨hcc, -⟩ := List.cons.inj h
      exact Or.inr (Or.inr (Or.inl ⟨by simpa using hcc, es, rfl⟩))
    | esp =>
      obtain ⟨hcc, -⟩ := List.cons.inj h
      exact Or.inr (Or.inr (Or.inr (by simpa using hcc)))

theorem refus_hors_grammaire {es : List Element} (h : Debut es) {c : UInt8} (hr : Refuse es c) (post : List Octets) :
    ¬Grammaire (jetons es ++ [c] :: post) := by
  intro hg
  obtain ⟨es', hj, hd, hc⟩ := grammaire_suite h _ hg
  have hop : Operateur c := by rcases hr with ⟨rfl, -⟩ | ⟨rfl, -⟩ | ⟨rfl, -⟩ <;> decide
  rcases jetons_operateur (fun e he => hd.ordinaire e (List.mem_append_right _ he)) hop hj with
    ⟨rfl, f, es'', rfl, -⟩ | ⟨rfl, f, es'', rfl, -⟩ | ⟨rfl, es'', rfl⟩ | rfl
  · obtain ⟨-, hin⟩ | ⟨h62, -⟩ | ⟨h124, -⟩ := hr
    · have hlen := hd.entree
      have hpos := List.length_pos_of_ne_nil hin
      have hf : entrees (.entree f :: es'') = f :: entrees es'' := rfl
      rw [entrees_append, List.length_append, hf, List.length_cons] at hlen
      omega
    · exact absurd h62 (by decide)
    · exact absurd h124 (by decide)
  · obtain ⟨h60, -⟩ | ⟨-, hout⟩ | ⟨h124, -⟩ := hr
    · exact absurd h60 (by decide)
    · have hlen := hd.sortie
      have hpos := List.length_pos_of_ne_nil hout
      have hf : sorties (.sortie f :: es'') = f :: sorties es'' := rfl
      rw [sorties_append, List.length_append, hf, List.length_cons] at hlen
      omega
    · exact absurd h124 (by decide)
  · obtain ⟨h60, -⟩ | ⟨h62, -⟩ | ⟨-, hcmd⟩ := hr
    · exact absurd h60 (by decide)
    · exact absurd h62 (by decide)
    · refine hc [] ?_ rfl
      rw [commandes_tube]
      exact List.mem_append_left _ (List.mem_of_getLast? hcmd)
  · rcases hr with ⟨h, -⟩ | ⟨h, -⟩ | ⟨h, -⟩ <;> exact absurd h (by decide)

theorem libre_operateur {es : List Element} {c : UInt8} (h : Libre es c) : Operateur c ∧ (c = 60 ∨ c = 62) := by
  rcases h with ⟨rfl, -⟩ | ⟨rfl, -⟩ <;> decide

/-- after a redirection comes a file name -/
theorem nom_attendu {es : List Element} (h : Debut es) {c : UInt8} (hl : Libre es c) {post : List Octets}
    (hg : Grammaire (jetons es ++ [c] :: post)) : ∃ f post', post = f :: post' ∧ MotOrdinaire f := by
  obtain ⟨es', hj, hd, -⟩ := grammaire_suite h _ hg
  have ho : ∀ e ∈ es', e.Ordinaire := fun e he => hd.ordinaire e (List.mem_append_right _ he)
  obtain ⟨hop, hc⟩ := libre_operateur hl
  rcases jetons_operateur ho hop hj with ⟨-, f, es'', rfl, hp⟩ | ⟨-, f, es'', rfl, hp⟩ | ⟨rfl, -⟩ | rfl
  · exact ⟨f, _, hp, ho (.entree f) List.mem_cons_self⟩
  · exact ⟨f, _, hp, ho (.sortie f) List.mem_cons_self⟩
  · exact absurd hc (by decide)
  · exact absurd hc (by decide)

theorem litteral_operateur {op : UInt8} (h : Operateur op) : Litteral [op] := ⟨op, rfl, h⟩

/-! ## One call -/

/-- a complete line whose last command has words -/
theorem Commencee.lit_ligne {P : Octets → Prop} {es : List Element} (h : Commencee P es)
    (hc : ∀ c ∈ commandes es, c ≠ []) :
    lit (jetons es) = some ⟨none, (run apres .vide es).inFile, (run apres .vide es).outFile, some (commandes es),
      (run apres .vide es).background⟩ := by
  have hT := h.tenu
  have ha : analyse (jetons es) .vide = ⟨run apres .vide es, none⟩ := by
    simpa [analyse] using h.analyse_debut []
  have hcmd : (run apres .vide es).cmd ≠ [] := by
    refine hc _ ?_
    rw [← hT.commandes]
    simp
  simp [lit, ha, hcmd, hT.commandes]

/-- the error exit, when it frees no literal -/
theorem lit_erreur {ts : List Octets} {es : List Element} (h : Debut es) {message : String} {post : List Octets}
    (ha : analyse ts .vide = ⟨run apres .vide es, some (message, post)⟩) (hpost : ∀ w ∈ post, ¬Debute w 38) :
    lit ts = some ⟨some message, none, none, none, (run apres .vide es).background⟩ := by
  have hP := propre_vide_run h.ordinaire
  simp [lit, ha, nettoie_eq message post hpost hP.seq hP.cmd hP.inFile hP.outFile]

/-- a complete line without a last command -/
theorem incomplet_hors_grammaire {es : List Element} (h : Debut es) (hc : (run apres .vide es).cmd = []) :
    ¬Grammaire (jetons es) := by
  intro hg
  obtain ⟨es', hj, -, hall⟩ := grammaire_suite h [] (by rwa [List.append_nil])
  have hes : es' = [] := by
    cases es' with
    | nil => rfl
    | cons e es' => cases e <;> simp [jetons, Element.jetons] at hj
  refine hall [] ?_ rfl
  rw [hes, List.append_nil, ← h.tenu.commandes, hc]
  simp

/-- the last command has words: so have all -/
theorem Commencee.complet {P : Octets → Prop} {es : List Element} (h : Commencee P es)
    (hc : (run apres .vide es).cmd ≠ []) : ∀ c ∈ commandes es, c ≠ [] := by
  have ht := h.tubes
  rw [← h.tenu.commandes, List.dropLast_concat] at ht
  intro c hm
  rw [← h.tenu.commandes] at hm
  rcases List.mem_append.1 hm with hm | hm
  · exact ht c hm
  · rw [List.mem_singleton.1 hm]
    exact hc

theorem conforme_erreur {ts : List Octets} (h : ¬Grammaire ts) (message : String) (b : Bool) :
    Conforme ts ⟨some message, none, none, none, b⟩ := by
  refine ⟨⟨?_, fun hg => absurd hg h⟩, ?_, fun _ => ⟨rfl, rfl, rfl⟩⟩
  · intro he
    cases he
  · intro he
    cases he

/-- without a word or a pipe, `seq` is empty -/
theorem lit_sansMot {ts : List Octets} (h : SansMot ts) : ¬∃ s, lit ts = some s ∧ Conforme ts s := by
  obtain ⟨es, hd, hc, rfl⟩ := h
  have hT := hd.tenu
  have ha : analyse (jetons es) .vide = ⟨run apres .vide es, none⟩ := by
    simpa [analyse] using hd.commencee.analyse_debut []
  have hvide : (run apres .vide es).seq = [] ∧ (run apres .vide es).cmd = [] := by
    have hs := hT.commandes
    rw [hc] at hs
    cases hq : (run apres .vide es).seq with
    | nil => simpa [hq] using hs
    | cons c q => simp [hq] at hs
  rintro ⟨s, hs, hconf⟩
  simp only [lit, ha, hvide.1, hvide.2, ne_eq, not_true_eq_false, if_false, Option.some.injEq] at hs
  subst hs
  obtain ⟨seq, hseq, hne, -⟩ := hconf.seq rfl
  simp only [Option.some.injEq] at hseq
  exact hne hseq.symm

/-- an operator taken as a file name is a literal for the error exit, and the line is not in the grammar -/
theorem lit_operateurPourNom {ts : List Octets} (h : OperateurPourNom ts) : ¬∃ s, lit ts = some s ∧ Conforme ts s := by
  obtain ⟨es, c, op, post, hd, hl, hop, rfl⟩ := h
  have hlit := litteral_operateur hop
  have hng : ¬Grammaire (jetons es ++ [c] :: [op] :: post) := by
    intro hg
    obtain ⟨f, post', hp, hf⟩ := nom_attendu hd hl hg
    obtain ⟨rfl, -⟩ := List.cons.inj hp
    exact hf.2 hlit
  have hnet (message : String) (reste : List Octets) :
      nettoie message (analyse (jetons es ++ [c] :: [op] :: post) .vide).lecture reste = none := by
    rw [hd.commencee.analyse_debut]
    apply nettoie_none (w := [op]) _ hlit
    rcases analyse_nom hd.tenu hl op post with hf | hf
    · simp [nettoyes, hf]
    · simp [nettoyes, hf]
  rintro ⟨s, hs, hconf⟩
  simp only [lit] at hs
  cases he : (analyse (jetons es ++ [c] :: [op] :: post) .vide).erreur with
  | some e =>
    rw [he] at hs
    simp [hnet] at hs
  | none =>
    have hne : s.err ≠ none := fun h => hng (hconf.grammaire.1 h)
    simp only [he, hnet] at hs
    split_ifs at hs with h1 h2
    · simp only [Option.some.injEq] at hs
      exact hne (by rw [← hs])
    · simp only [Option.some.injEq] at hs
      exact hne (by rw [← hs])

theorem lit_espApresRefus {ts : List Octets} (h : EspApresRefus ts) : lit ts = none := by
  obtain ⟨es, c, post, hd, hr, hm, rfl⟩ := h
  obtain ⟨message, ha⟩ := analyse_refus hd.tenu hr post
  have ha' := (hd.commencee.analyse_debut ([c] :: post)).trans ha
  simp [lit, ha', nettoie_reste hm (show Debute [38] 38 from rfl)]

/-- the three kinds of lines that are not taken as the header says -/
theorem lit_iff {ts : List Octets} (hts : ∀ w ∈ ts, Jeton w) :
    (∃ s, lit ts = some s ∧ Conforme ts s) ↔ ¬SansMot ts ∧ ¬OperateurPourNom ts ∧ ¬EspApresRefus ts := by
  constructor
  · rintro ⟨s, hs, hconf⟩
    refine ⟨fun h => lit_sansMot h ⟨s, hs, hconf⟩, fun h => lit_operateurPourNom h ⟨s, hs, hconf⟩, fun h => ?_⟩
    rw [lit_espApresRefus h] at hs
    cases hs
  · rintro ⟨hmot, hnom, hesp⟩
    obtain ⟨es, reste, hd, rfl, hs⟩ := decoupage ts hts
    have hT := hd.tenu
    cases hs with
    | fin =>
      rw [List.append_nil] at hmot ⊢
      have ha : analyse (jetons es) .vide = ⟨run apres .vide es, none⟩ := by
        simpa [analyse] using hd.commencee.analyse_debut []
      by_cases hcmd : (run apres .vide es).cmd = []
      · by_cases hseq : (run apres .vide es).seq = []
        · exact absurd ⟨es, hd, by rw [← hT.commandes, hseq, hcmd]; rfl, rfl⟩ hmot
        · have hP := propre_vide_run hd.ordinaire
          refine ⟨_, ?_, conforme_erreur (incomplet_hors_grammaire hd hcmd) "misplaced pipe"
            (run apres .vide es).background⟩
          have hn := nettoie_eq "misplaced pipe" [] (by simp) hP.seq hP.cmd hP.inFile hP.outFile
          simp [lit, ha, hcmd, hseq, hn]
      · have hc := hd.commencee.complet hcmd
        exact ⟨_, hd.commencee.lit_ligne hc, ⟨fun _ => ⟨es, hd, hc, rfl⟩, fun _ => rfl⟩,
          fun _ => ⟨_, rfl, commandes_ne es, hc⟩, fun he => absurd rfl he⟩
    | refus c post hr =>
      obtain ⟨message, ha⟩ := analyse_refus hT hr post
      have hpost : ∀ w ∈ post, ¬Debute w 38 := by
        intro w hw hw38
        have hj : w = [38] := jeton_debute (hts w (by simp [hw])) (by decide) hw38
        exact hesp ⟨es, c, post, hd, hr, hj ▸ hw, rfl⟩
      exact ⟨_, lit_erreur hd ((hd.commencee.analyse_debut _).trans ha) hpost,
        conforme_erreur (refus_hors_grammaire hd hr post) _ _⟩
    | manque c hl =>
      obtain ⟨message, ha⟩ := analyse_manque hT hl
      refine ⟨_, lit_erreur hd ((hd.commencee.analyse_debut _).trans ha) (by simp), conforme_erreur ?_ _ _⟩
      intro hg
      obtain ⟨f, post', hp, -⟩ := nom_attendu hd hl hg
      cases hp
    | nom c op post hl hop => exact absurd ⟨es, c, op, post, hd, hl, hop, rfl⟩ hnom

/-- no string of the structure of the call before is a literal -/
def Liberable (avant : Option Cmdline) : Prop :=
  ∀ s ∈ avant, ∀ w ∈ s.inFile.toList ++ s.outFile.toList ++ (s.seq.getD []).flatten, ¬Litteral w

theorem freecmd_iff (s : Cmdline) :
    freecmd s = some () ↔ ∀ w ∈ s.inFile.toList ++ s.outFile.toList ++ (s.seq.getD []).flatten, ¬Litteral w := by
  rw [freecmd_eq, ← List.append_assoc]
  refine ⟨fun h w hw hl => ?_, freeTous_eq⟩
  rw [freeTous_none hw hl] at h
  cases h

/-- a call is defined when the structure before it can be freed, and the line comes back -/
theorem readcmd_eq (avant : Option Cmdline) (line : Option Octets) :
    (Liberable avant ∧
        readcmd avant line = line.elim (some none) fun line => (lit (splitInWords line)).map some) ∨
      (¬Liberable avant ∧ readcmd avant line = none) := by
  have hsuite : readcmd none line = line.elim (some none) fun line => (lit (splitInWords line)).map some := by
    cases line with
    | none => rfl
    | some line => rfl
  cases avant with
  | none => exact Or.inl ⟨by simp [Liberable], hsuite⟩
  | some s =>
    have hlib : Liberable (some s) ↔ freecmd s = some () := by simp [Liberable, freecmd_iff]
    cases hf : freecmd s with
    | none => exact Or.inr ⟨by simp [hlib, hf], by simp [readcmd, hf]⟩
    | some u =>
      have hr : readcmd (some s) line = readcmd none line := by simp [readcmd, hf]
      exact Or.inl ⟨by simp [hlib, hf], hr.trans hsuite⟩

/-- **What `readcmd` accepts.** For every line, and every structure left by the call before: the call is defined, err
is null exactly on the lines of the grammar, `seq` is then a non-empty sequence of non-empty commands, and all is null
with an error; if and only if the structure left before holds no operator, and the line has a word of a command or a
pipe, gives no operator as the file name of the first `<` or `>` that is read, and has no `&` after the token at which it
is refused. -/
theorem readcmd_iff (avant : Option Cmdline) (line : Octets) :
    (∃ s, readcmd avant (some line) = some (some s) ∧ Conforme (splitInWords line) s) ↔
      Liberable avant ∧ ¬SansMot (splitInWords line) ∧ ¬OperateurPourNom (splitInWords line) ∧
        ¬EspApresRefus (splitInWords line) := by
  rw [← lit_iff fun w hw => jeton_splitInWords hw]
  rcases readcmd_eq avant (some line) with ⟨hl, hr⟩ | ⟨hl, hr⟩
  · rw [hr]
    simp [hl]
  · rw [hr]
    simp [hl]

/-- **The empty line.** It is accepted, and `seq[0]` is null. -/
theorem ligne_vide :
    readcmd none (some []) = some (some ⟨none, none, none, some [], false⟩) ∧
      ¬∃ s, readcmd none (some []) = some (some s) ∧ Conforme (splitInWords []) s := by
  refine ⟨by decide, ?_⟩
  rintro ⟨s, hs, hconf⟩
  obtain rfl : s = ⟨none, none, none, some [], false⟩ := by
    have h : readcmd none (some []) = some (some ⟨none, none, none, some [], false⟩) := by decide
    rw [h] at hs
    simpa using hs.symm
  obtain ⟨seq, hseq, hne, -⟩ := hconf.seq rfl
  simp only [Option.some.injEq] at hseq
  exact hne hseq.symm

end Semestre6.Shell
