/-
The tokens of a line: the operators, one element each, and the maximal runs of letters between them and the blanks.

- `Placement`: the tokens where they stand in the line, each with the blanks before it; `Decoupage`: the tokens of a
  line;
- `scinde`: the tokens, read in one pass; `decoupage_iff`: they are the only ones;
- `Decoupage.flatten`: put end to end they are the line without its blanks.
-/
import Mathlib.Tactic

namespace Semestre6.Jetons

variable {α : Type*} (blanc op : α → Prop)

def Lettre (c : α) : Prop := ¬blanc c ∧ ¬op c

/-- a non-empty run of letters -/
def Mot (w : List α) : Prop := w ≠ [] ∧ ∀ c ∈ w, Lettre blanc op c

/-- each token with the blanks before it, and the blanks at the end -/
structure Placement (ps : List (List α × List α)) (fin l : List α) : Prop where
  ligne : l = ps.flatMap (fun p => p.1 ++ p.2) ++ fin
  blancs : ∀ p ∈ ps, ∀ c ∈ p.1, blanc c
  fin_blancs : ∀ c ∈ fin, blanc c
  jeton : ∀ p ∈ ps, (∃ c, op c ∧ p.2 = [c]) ∨ Mot blanc op p.2
  /-- two words that follow each other are apart -/
  maximal : ps.IsChain fun p q => Mot blanc op p.2 → Mot blanc op q.2 → q.1 ≠ []

def Decoupage (l : List α) (ts : List (List α)) : Prop := ∃ ps fin, Placement blanc op ps fin l ∧ ps.map Prod.snd = ts

/-- the line does not begin with a letter -/
def Detachee (l : List α) : Prop := ∀ c ∈ l.head?, ¬Lettre blanc op c

/-- the word being read, if there is one, before the tokens that follow it -/
def ajoute (w : List α) (ts : List (List α)) : List (List α) := if w = [] then ts else w :: ts

def scinde [DecidablePred blanc] [DecidablePred op] (w : List α) : List α → List (List α)
  | [] => ajoute w []
  | c :: l =>
    if blanc c then ajoute w (scinde [] l)
    else if op c then ajoute w ([c] :: scinde [] l)
    else scinde (w ++ [c]) l

variable {blanc op} {w l fin : List α} {c : α} {ts : List (List α)} {ps : List (List α × List α)}

theorem ajoute_inj {ts' : List (List α)} : ajoute w ts = ajoute w ts' ↔ ts = ts' := by
  unfold ajoute
  split_ifs <;> simp

theorem not_mot_op (hc : op c) : ¬Mot blanc op [c] := fun h => (h.2 c List.mem_cons_self).2 hc

theorem lettres_snoc (hw : ∀ c ∈ w, Lettre blanc op c) (hc : Lettre blanc op c) :
    ∀ x ∈ w ++ [c], Lettre blanc op x := by
  intro x hx
  rcases List.mem_append.1 hx with hx | hx
  · exact hw x hx
  · exact List.mem_singleton.1 hx ▸ hc

/-! ## The tokens read are those of the line -/

theorem decoupage_nil : Decoupage blanc op ([] : List α) [] :=
  ⟨[], [], ⟨rfl, by simp, by simp, by simp, List.isChain_nil⟩, rfl⟩

theorem decoupage_blanc (hc : blanc c) (h : Decoupage blanc op l ts) : Decoupage blanc op (c :: l) ts := by
  obtain ⟨ps, fin, hp, rfl⟩ := h
  cases ps with
  | nil =>
    refine ⟨[], c :: fin, ⟨by simpa using hp.ligne, by simp, ?_, by simp, List.isChain_nil⟩, rfl⟩
    exact List.forall_mem_cons.2 ⟨hc, hp.fin_blancs⟩
  | cons p ps =>
    obtain ⟨hb, hbs⟩ := List.forall_mem_cons.1 hp.blancs
    refine ⟨(c :: p.1, p.2) :: ps, fin, ⟨?_, ?_, hp.fin_blancs, ?_, ?_⟩, rfl⟩
    · simp [hp.ligne]
    · exact List.forall_mem_cons.2 ⟨List.forall_mem_cons.2 ⟨hc, hb⟩, hbs⟩
    · exact List.forall_mem_cons.2 (List.forall_mem_cons.1 hp.jeton)
    · exact List.isChain_cons.2 (List.isChain_cons.1 hp.maximal)

/-- one more token, right before what follows -/
theorem decoupage_cons {t : List α} (ht : (∃ c, op c ∧ t = [c]) ∨ Mot blanc op t)
    (hd : Mot blanc op t → Detachee blanc op l) (h : Decoupage blanc op l ts) :
    Decoupage blanc op (t ++ l) (t :: ts) := by
  obtain ⟨ps, fin, hp, rfl⟩ := h
  refine ⟨([], t) :: ps, fin, ⟨by simp [hp.ligne], ?_, hp.fin_blancs, ?_, ?_⟩, rfl⟩
  · exact List.forall_mem_cons.2 ⟨by simp, hp.blancs⟩
  · exact List.forall_mem_cons.2 ⟨ht, hp.jeton⟩
  · refine List.isChain_cons.2 ⟨?_, hp.maximal⟩
    intro q hq hm hmq hvide
    -- the second word would begin the rest of the line
    obtain ⟨ps', rfl⟩ : ∃ ps', ps = q :: ps' := List.head?_eq_some_iff.1 hq
    obtain ⟨c, w, hcw⟩ := List.exists_cons_of_ne_nil hmq.1
    have hl : l.head? = some c := by simp [hp.ligne, hvide, hcw]
    exact hd hm c hl (hmq.2 c (hcw ▸ List.mem_cons_self))

theorem decoupage_ajoute (hw : ∀ c ∈ w, Lettre blanc op c) (hd : Detachee blanc op l) (h : Decoupage blanc op l ts) :
    Decoupage blanc op (w ++ l) (ajoute w ts) := by
  unfold ajoute
  split_ifs with hvide
  · rwa [hvide]
  · exact decoupage_cons (.inr ⟨hvide, hw⟩) (fun _ => hd) h

theorem Placement.tail {p : List α × List α} (h : Placement blanc op (p :: ps) fin l) :
    Placement blanc op ps fin (ps.flatMap (fun p => p.1 ++ p.2) ++ fin) :=
  ⟨rfl, (List.forall_mem_cons.1 h.blancs).2, h.fin_blancs, (List.forall_mem_cons.1 h.jeton).2,
    (List.isChain_cons.1 h.maximal).2⟩

/-- what follows a word does not begin with a letter -/
theorem Placement.detachee {p : List α × List α} (h : Placement blanc op (p :: ps) fin l) (hm : Mot blanc op p.2) :
    Detachee blanc op (ps.flatMap (fun p => p.1 ++ p.2) ++ fin) := by
  intro c hc hlettre
  cases ps with
  | nil => exact hlettre.1 (h.fin_blancs c (List.mem_of_mem_head? (by simpa using hc)))
  | cons q ps =>
    cases hq : q.1 with
    | cons b g =>
      obtain rfl : b = c := by simpa [hq] using hc
      exact hlettre.1 (h.blancs q (by simp) b (hq ▸ List.mem_cons_self))
    | nil =>
      rcases h.jeton q (by simp) with ⟨o, ho, hqo⟩ | hmq
      · obtain rfl : o = c := by simpa [hq, hqo] using hc
        exact hlettre.2 ho
      · exact (List.isChain_cons_cons.1 h.maximal).1 hm hmq hq

variable [DecidablePred blanc] [DecidablePred op]

theorem decoupage_scinde (hw : ∀ c ∈ w, Lettre blanc op c) : Decoupage blanc op (w ++ l) (scinde blanc op w l) := by
  induction l generalizing w with
  | nil => exact decoupage_ajoute hw (by simp [Detachee]) decoupage_nil
  | cons c l ih =>
    have hvide : Decoupage blanc op l (scinde blanc op [] l) := ih (w := []) (by simp)
    rw [scinde]
    split_ifs with hb ho
    · exact decoupage_ajoute hw (by simp [Detachee, Lettre, hb]) (decoupage_blanc hb hvide)
    · refine decoupage_ajoute hw (by simp [Detachee, Lettre, ho]) ?_
      exact decoupage_cons (.inl ⟨c, ho, rfl⟩) (fun hm => absurd hm (not_mot_op ho)) hvide
    · have h := ih (lettres_snoc hw ⟨hb, ho⟩)
      rwa [List.append_assoc] at h

/-! ## There are no others -/

theorem scinde_blancs {b : List α} (hb : ∀ c ∈ b, blanc c) : scinde blanc op [] (b ++ l) = scinde blanc op [] l := by
  induction b with
  | nil => rfl
  | cons c b ih =>
    obtain ⟨hc, hb⟩ := List.forall_mem_cons.1 hb
    calc scinde blanc op [] (c :: (b ++ l)) = scinde blanc op [] (b ++ l) := by simp [scinde, hc, ajoute]
      _ = scinde blanc op [] l := ih hb

theorem scinde_lettres {v : List α} (hw : ∀ c ∈ w, Lettre blanc op c) :
    scinde blanc op v (w ++ l) = scinde blanc op (v ++ w) l := by
  induction w generalizing v with
  | nil => simp
  | cons c w ih =>
    obtain ⟨⟨hb, ho⟩, hw⟩ := List.forall_mem_cons.1 hw
    calc scinde blanc op v (c :: (w ++ l)) = scinde blanc op (v ++ [c]) (w ++ l) := by simp [scinde, hb, ho]
      _ = scinde blanc op (v ++ [c] ++ w) l := ih hw
      _ = scinde blanc op (v ++ c :: w) l := by simp

theorem scinde_detachee (hd : Detachee blanc op l) : scinde blanc op w l = ajoute w (scinde blanc op [] l) := by
  cases l with
  | nil => simp [scinde, ajoute]
  | cons c l =>
    have hc : ¬Lettre blanc op c := hd c rfl
    by_cases hb : blanc c
    · simp [scinde, hb, ajoute]
    · have ho : op c := by
        by_contra ho
        exact hc ⟨hb, ho⟩
      simp [scinde, hb, ho, ajoute]

theorem Placement.scinde_eq (hdis : ∀ c, op c → ¬blanc c) (h : Placement blanc op ps fin l) :
    scinde blanc op [] l = ps.map Prod.snd := by
  induction ps generalizing l with
  | nil =>
    have hs : scinde blanc op [] (fin ++ []) = scinde blanc op [] [] := scinde_blancs h.fin_blancs
    rw [h.ligne]
    simpa [scinde, ajoute] using hs
  | cons p ps ih =>
    have hsuite := ih h.tail
    have hb := (List.forall_mem_cons.1 h.blancs).1
    have hl : l = p.1 ++ (p.2 ++ (ps.flatMap (fun p => p.1 ++ p.2) ++ fin)) := by simp [h.ligne]
    rw [hl, scinde_blancs hb, List.map_cons, ← hsuite]
    rcases h.jeton p List.mem_cons_self with ⟨c, hc, hp⟩ | hm
    · rw [hp]
      simp [scinde, hdis c hc, hc, ajoute]
    · rw [scinde_lettres hm.2, List.nil_append, scinde_detachee (h.detachee hm), ajoute, if_neg hm.1]

/-- **The tokens of a line** are those read in one pass, and no others. -/
theorem decoupage_iff (hdis : ∀ c, op c → ¬blanc c) : Decoupage blanc op l ts ↔ ts = scinde blanc op [] l := by
  apply Iff.intro
  · intro h
    obtain ⟨ps, fin, hp, rfl⟩ := h
    exact (hp.scinde_eq hdis).symm
  · intro h
    rw [h]
    exact decoupage_scinde (w := []) (by simp)

omit [DecidablePred op] in
/-- put end to end, the tokens are the line without its blanks -/
theorem Decoupage.flatten (hdis : ∀ c, op c → ¬blanc c) (h : Decoupage blanc op l ts) :
    ts.flatten = l.filter fun c => ¬blanc c := by
  obtain ⟨ps, fin, hp, rfl⟩ := h
  induction ps generalizing l with
  | nil =>
    have hfin : fin.filter (fun c => ¬blanc c) = [] := by simpa using hp.fin_blancs
    simpa [hp.ligne] using hfin.symm
  | cons p ps ih =>
    have hg : p.1.filter (fun c => ¬blanc c) = [] := by simpa using (List.forall_mem_cons.1 hp.blancs).1
    have ht : p.2.filter (fun c => ¬blanc c) = p.2 := by
      rw [List.filter_eq_self]
      intro c hc
      rcases hp.jeton p List.mem_cons_self with ⟨o, ho, hpo⟩ | hm
      · obtain rfl : c = o := by simpa [hpo] using hc
        simpa using hdis c ho
      · simpa using (hm.2 c hc).1
    rw [hp.ligne, List.flatMap_cons, List.append_assoc, List.filter_append, List.filter_append, hg, ht,
      List.nil_append, List.map_cons, List.flatten_cons, ih hp.tail]

end Semestre6.Jetons
