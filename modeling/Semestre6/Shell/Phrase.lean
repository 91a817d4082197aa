/-
The lines that `readcmd` gives back without an error, and those it does not come back from (readcmd.c). The grammar asks
for file names that are ordinary words; the loop takes any token for one.

- `Phrase.lit`: a line whose commands all have a word gives back these commands;
- `lit_abandonnee`: a line refused while it holds an operator that the error exit frees does not come back;
- `lit_cases`: any other line gives back no command.
-/
import Semestre6.Shell.Grammaire

namespace Semestre6.Shell

open Semestre6.Ftp (Octets octets)
open Semestre6.Ftp.Parse
open Transition
open Lecture

/-- the loop takes any token as a file name -/
def Nom (_ : Octets) : Prop := True

/-- one or more commands, each with a word, and the file names as they come -/
structure Phrase (es : List Element) : Prop where
  commencee : Commencee Nom es
  commandes : ∀ c ∈ commandes es, c ≠ []

def noms (es : List Element) : List Octets := entrees es ++ sorties es

/-- the line is refused here: at a redirection given twice or without a name, at a pipe without a command before it, or
at its end after a pipe -/
def Arretee (es : List Element) (reste : List Octets) : Prop :=
  (reste = [] ∧ 1 < (commandes es).length ∧ (commandes es).getLast? = some []) ∨
    ∃ c post, reste = [c] :: post ∧ (Refuse es c ∨ Libre es c ∧ post = [])

/-- refused, with an operator among what the error exit frees: a file name, or an `&` further on -/
def Abandonnee (ts : List Octets) : Prop :=
  ∃ es reste, Commencee Nom es ∧ Arretee es reste ∧ ts = jetons es ++ reste ∧
    ((∃ f ∈ noms es, Litteral f) ∨ [38] ∈ reste.tail)

variable {P : Octets → Prop} {es : List Element} {ts reste : List Octets}

theorem mem_prefixe {d : List Octets} {l : List (List Octets)} {w : Octets} (h : w ∈ (prefixe d l).flatten) :
    w ∈ d ∨ w ∈ l.flatten := by
  cases l with
  | nil => simpa [prefixe] using h
  | cons c l => simpa [prefixe, or_assoc] using h

/-- the words of the commands are words of the line -/
theorem mot_mem {w : Octets} (h : w ∈ (commandes es).flatten) : Element.mot w ∈ es := by
  induction es with
  | nil => simp [commandes] at h
  | cons e es ih =>
    cases e with
    | mot v =>
      rcases mem_prefixe h with hv | hes
      · rw [List.mem_singleton.1 hv]
        exact List.mem_cons_self
      · exact List.mem_cons_of_mem _ (ih hes)
    | tube => exact List.mem_cons_of_mem _ (ih (by simpa [commandes] using h))
    | entree f => exact List.mem_cons_of_mem _ (ih h)
    | sortie f => exact List.mem_cons_of_mem _ (ih h)
    | esp => exact List.mem_cons_of_mem _ (ih h)

theorem Commencee.mot_ordinaire (h : Commencee P es) {w : Octets} (hw : w ∈ (commandes es).flatten) :
    MotOrdinaire w :=
  h.lisible (.mot w) (mot_mem hw)

/-- what the error exit frees: the words of the commands, the file names and what is still to read -/
theorem Commencee.mem_nettoyes (h : Commencee P es) (post : List Octets) (w : Octets) :
    w ∈ nettoyes (run apres .vide es) post ↔
      w ∈ resteAFree post ∨ w ∈ (commandes es).flatten ∨ w ∈ noms es := by
  have hT := h.tenu
  have hcmd : (commandes es).flatten = (run apres .vide es).seq.flatten ++ (run apres .vide es).cmd := by
    rw [← hT.commandes]
    simp
  rw [hcmd, noms, ← hT.entrees, ← hT.sorties]
  simp [nettoyes, or_assoc]

theorem mem_resteAFree (hts : ∀ w ∈ ts, Jeton w) {w : Octets} (hw : w ∈ resteAFree ts) (hl : Litteral w) :
    [38] ∈ ts := by
  simp only [resteAFree, List.mem_filter, decide_eq_true_eq, not_or] at hw
  obtain ⟨hmem, h60, h62, h124⟩ := hw
  rcases hts w hmem with ⟨c, hc, rfl⟩ | hord
  · rcases hc with rfl | rfl | rfl | rfl
    · exact absurd rfl h60
    · exact absurd rfl h62
    · exact absurd rfl h124
    · exact hmem
  · exact absurd hl hord.2

/-- the error exit frees a literal only if it is a file name or an `&` -/
theorem Commencee.litteral_iff (h : Commencee P es) {post : List Octets} (hpost : ∀ w ∈ post, Jeton w) :
    (∃ w ∈ nettoyes (run apres .vide es) post, Litteral w) ↔ (∃ f ∈ noms es, Litteral f) ∨ [38] ∈ post := by
  apply Iff.intro
  · intro hw
    obtain ⟨w, hw, hl⟩ := hw
    rcases (h.mem_nettoyes post w).1 hw with hw | hw | hw
    · exact .inr (mem_resteAFree hpost hw hl)
    · exact absurd hl (h.mot_ordinaire hw).2
    · exact .inl ⟨w, hw, hl⟩
  · intro hw
    rcases hw with ⟨f, hf, hl⟩ | hesp
    · exact ⟨f, (h.mem_nettoyes post f).2 (.inr (.inr hf)), hl⟩
    · refine ⟨[38], (h.mem_nettoyes post _).2 (.inl ?_), litteral_operateur (by decide)⟩
      simp [resteAFree, hesp, Debute]

/-! ## The call -/

theorem nettoie_cases (message : String) (l : Lecture) (words : List Octets) :
    (nettoie message l words = none ∧ ∃ w ∈ nettoyes l words, Litteral w) ∨
      (nettoie message l words = some ⟨some message, none, none, none, l.background⟩ ∧
        ¬∃ w ∈ nettoyes l words, Litteral w) := by
  by_cases h : ∃ w ∈ nettoyes l words, Litteral w
  · obtain ⟨w, hw, hl⟩ := h
    exact .inl ⟨nettoie_none hw hl, w, hw, hl⟩
  · refine .inr ⟨?_, h⟩
    rw [nettoie_def, freeTous_eq fun w hw hl => h ⟨w, hw, hl⟩]
    rfl

/-- a refused line goes to the error exit with what is still to read -/
theorem Commencee.lit_arretee (h : Commencee P es) (ha : Arretee es reste) :
    ∃ message, lit (jetons es ++ reste) = nettoie message (run apres .vide es) reste.tail := by
  have hT := h.tenu
  rcases ha with ⟨rfl, hlen, hlast⟩ | ⟨c, post, rfl, hr | ⟨hl, rfl⟩⟩
  · have ha : analyse (jetons es) .vide = ⟨run apres .vide es, none⟩ := by
      simpa [analyse] using h.analyse_debut []
    have hcmd : (run apres .vide es).cmd = [] := hT.cmd_iff.2 hlast
    have hseq : (run apres .vide es).seq ≠ [] := by
      intro hseq
      rw [← hT.commandes, hseq] at hlen
      simp at hlen
    exact ⟨"misplaced pipe", by simp [lit, ha, hcmd, hseq]⟩
  · obtain ⟨message, hm⟩ := analyse_refus hT hr post
    have ha := (h.analyse_debut ([c] :: post)).trans hm
    exact ⟨message, by simp [lit, ha]⟩
  · obtain ⟨message, hm⟩ := analyse_manque hT hl
    have ha := (h.analyse_debut [[c]]).trans hm
    exact ⟨message, by simp [lit, ha]⟩

theorem lit_abandonnee (hts : ∀ w ∈ ts, Jeton w) (h : Abandonnee ts) : lit ts = none := by
  obtain ⟨es, reste, hd, ha, rfl, hl⟩ := h
  have hpost : ∀ w ∈ reste.tail, Jeton w := fun w hw => hts w (List.mem_append_right _ (List.mem_of_mem_tail hw))
  obtain ⟨message, hlit⟩ := hd.lit_arretee ha
  obtain ⟨w, hw, hl⟩ := (hd.litteral_iff hpost).2 hl
  rw [hlit, nettoie_none hw hl]

theorem Phrase.lit (h : Phrase es) :
    ∃ s, Shell.lit (jetons es) = some s ∧ s.err = none ∧ s.seq = some (Shell.commandes es) ∧
      s.inFile.toList ++ s.outFile.toList = noms es := by
  have hT := h.commencee.tenu
  refine ⟨_, h.commencee.lit_ligne h.commandes, rfl, rfl, ?_⟩
  rw [hT.entrees, hT.sorties]
  rfl

/-- the next call comes back when no file name is an operator -/
theorem Phrase.liberable_iff (h : Phrase es) {s : Cmdline} (hseq : s.seq = some (Shell.commandes es))
    (hnoms : s.inFile.toList ++ s.outFile.toList = noms es) :
    Liberable (some s) ↔ ¬∃ f ∈ noms es, Litteral f := by
  have hmots : ∀ w ∈ (Shell.commandes es).flatten, ¬Litteral w := fun w hw => (h.commencee.mot_ordinaire hw).2
  unfold Liberable
  rw [← hnoms]
  apply Iff.intro
  · intro hl hf
    obtain ⟨f, hf, hlit⟩ := hf
    exact hl s rfl f (List.mem_append_left _ hf) hlit
  · intro hn s' hs w hw hlit
    obtain rfl := Option.some.inj hs
    rcases List.mem_append.1 hw with hw | hw
    · exact hn ⟨w, hw, hlit⟩
    · rw [hseq] at hw
      exact hmots w hw hlit

/-- a command line without a command: after an error, or without a word or a pipe -/
def SansCommande (s : Cmdline) : Prop := s.seq = none ∨ s.err = none ∧ s.seq = some []

/-- **What a line gives back.** It does not come back, or it is a line of commands, or it gives back no command. -/
theorem lit_cases (hts : ∀ w ∈ ts, Jeton w) :
    (lit ts = none ∧ Abandonnee ts) ∨ (∃ es, Phrase es ∧ jetons es = ts) ∨
      ∃ s, lit ts = some s ∧ SansCommande s := by
  obtain ⟨es, reste, hd, rfl, hr⟩ := (commencee_nil Nom).decoupage ts hts
  rw [List.nil_append] at hd hr
  have hT := hd.tenu
  have hpost : ∀ w ∈ reste.tail, Jeton w := fun w hw => hts w (List.mem_append_right _ (List.mem_of_mem_tail hw))
  have hrefus (ha : Arretee es reste) :
      (lit (jetons es ++ reste) = none ∧ Abandonnee (jetons es ++ reste)) ∨
        ∃ s, lit (jetons es ++ reste) = some s ∧ SansCommande s := by
    obtain ⟨message, hlit⟩ := hd.lit_arretee ha
    rw [hlit]
    rcases nettoie_cases message (run apres .vide es) reste.tail with ⟨hn, hl⟩ | ⟨hs, -⟩
    · exact .inl ⟨hn, es, reste, hd, ha, rfl, (hd.litteral_iff hpost).1 hl⟩
    · exact .inr ⟨_, hs, .inl rfl⟩
  cases hr with
  | refus c post hr =>
    rcases hrefus (.inr ⟨c, post, rfl, .inl hr⟩) with h | h
    · exact .inl h
    · exact .inr (.inr h)
  | manque c hl =>
    rcases hrefus (.inr ⟨c, [], rfl, .inr ⟨hl, rfl⟩⟩) with h | h
    · exact .inl h
    · exact .inr (.inr h)
  | nom c f post hl hf => exact absurd trivial hf
  | fin =>
    by_cases hcmd : (run apres .vide es).cmd = []
    · by_cases hseq : (run apres .vide es).seq = []
      · have ha : analyse (jetons es) .vide = ⟨run apres .vide es, none⟩ := by
          simpa [analyse] using hd.analyse_debut []
        exact .inr (.inr ⟨_, by simp [lit, ha, hcmd, hseq]; rfl, .inr ⟨rfl, rfl⟩⟩)
      · have hlen : 1 < (commandes es).length := by
          have hpos := List.length_pos_iff.2 hseq
          rw [← hT.commandes]
          simpa using hpos
        rcases hrefus (.inl ⟨rfl, hlen, hT.cmd_iff.1 hcmd⟩) with h | h
        · exact .inl h
        · exact .inr (.inr h)
    · exact .inr (.inl ⟨es, ⟨hd, hd.complet hcmd⟩, by simp⟩)

end Semestre6.Shell
