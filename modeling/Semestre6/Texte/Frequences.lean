/-
The counts that Learn stores, whatever the way in which the tokens are cut into words.

- `newWorsSeq_comptage`: one call adds one pair to both tables;
- `Appris.ligne`: the table of a word counts its successors;
- `flux`: in a chain of words, successors and predecessors differ at the two ends only;
- `learn_bilan`: the lines of LangModel add up to Frequencies_learn, which adds up to the number of words.
-/
import Semestre6.Texte.Pipo

namespace Semestre6.Apnee3

open Dictionnaire Scanner

/-- `Learn`, for any way to cut a token into words -/
def learnPar (morceaux : Mot → List Mot) (texte : List Char) : Pipo :=
  ((jetons texte).foldl (fun e word2 => (morceaux word2).foldl apprend e) (nouveau, fantome)).1

theorem learn_eq_learnPar (texte : List Char) : learn texte = learnPar morceaux texte := rfl

/-- how often a word was learned as the first of a pair, and as the second -/
def predecesseur (p : Pipo) (o : Ordre Mot) (w : Mot) : ℕ := sum o ((get p.langModel w).getD [])
def successeur (p : Pipo) (o : Ordre Mot) (w : Mot) : ℕ :=
  ((o.enumere (cles p.langModel)).map fun a => compte p a w).sum

/-- the last word learned, '.' if there is none -/
def dernier (ms : List Mot) : Mot := ms.getLastD fantome

/-- what the tables of a model that has learned the words `ms` hold -/
structure Bilan (p : Pipo) (o : Ordre Mot) (ms : List Mot) : Prop where
  lignes : ∀ w t, get p.langModel w = some t → get p.frequenciesLearn w = some (sum o t)
  absents : ∀ w, get p.langModel w = none → get p.frequenciesLearn w = none
  total : sum o p.frequenciesLearn = ms.length
  frequencePositive : ∀ w n, get p.frequenciesLearn w = some n → 1 ≤ n
  comptePositif : ∀ w t w2 n, get p.langModel w = some t → get t w2 = some n → 1 ≤ n
  /-- every word of the text was learned as a successor -/
  appris : ∀ w, successeur p o w = ms.count w
  flux : ∀ w, (successeur p o w : ℤ) - predecesseur p o w =
    (if w = dernier ms then 1 else 0) - if w = fantome then 1 else 0

variable {p : Pipo} {l : List (Mot × Mot)} {w : Mot} {ms ws : List Mot} {c : List (Mot × ℕ)}

/-! ## Both tables -/

theorem incremente_compte (h : Compte c ws) (w : Mot) : Compte (incremente c w) (ws ++ [w]) where
  sansDouble := nodup_incremente h.sansDouble
  valeur := by
    intro k
    rw [get_incremente, h.getD]
    by_cases hk : w = k
    · rw [if_pos hk, if_pos (by simp [hk]), hk, List.count_append, List.count_singleton_self]
    · have hmem : k ∈ ws ++ [w] ↔ k ∈ ws := by simp [Ne.symm hk]
      have hcount : (ws ++ [w]).count k = ws.count k := by simp [List.count_append, hk]
      rw [if_neg hk, h.valeur]
      simp only [hmem, hcount]

/-- the pairs learned, in both tables -/
structure Comptage (p : Pipo) (l : List (Mot × Mot)) : Prop where
  appris : Appris p l
  frequences : Compte p.frequenciesLearn (l.map Prod.fst)
  sansDouble : (cles p.langModel).Nodup

theorem nouveau_comptage : Comptage nouveau [] :=
  ⟨nouveau_appris, ⟨List.nodup_nil, fun _ => rfl⟩, List.nodup_nil⟩

theorem nodup_langModel (h : (cles p.langModel).Nodup) (w1 w2 : Mot) : (cles (newWorsSeq p w1 w2).langModel).Nodup := by
  unfold newWorsSeq
  cases get p.langModel w1 with
  | none => exact nodup_put h
  | some t => exact nodup_put h

/-- **One pair more.** -/
theorem newWorsSeq_comptage (h : Comptage p l) (w1 w2 : Mot) : Comptage (newWorsSeq p w1 w2) (l ++ [(w1, w2)]) where
  appris := newWorsSeq_appris h.appris w1 w2
  frequences := by
    rw [List.map_append]
    exact incremente_compte h.frequences w1
  sansDouble := nodup_langModel h.sansDouble w1 w2

theorem foldl_comptage (h : Comptage p l) (w : Mot) (ms : List Mot) :
    Comptage (ms.foldl apprend (p, w)).1 (l ++ (w :: ms).zip ms) := by
  induction ms generalizing p l w with
  | nil => simpa using h
  | cons m ms ih =>
    have hm := ih (newWorsSeq_comptage h w m) m
    rw [List.append_assoc] at hm
    exact hm

/-- glued words and plain words go through the same chain of `word1` -/
theorem learnPar_comptage (morceaux : Mot → List Mot) (texte : List Char) :
    Comptage (learnPar morceaux texte) (paires ((jetons texte).flatMap morceaux)) := by
  have h := foldl_comptage nouveau_comptage fantome ((jetons texte).flatMap morceaux)
  rw [List.foldl_flatMap] at h
  exact h

/-! ## The lines of LangModel -/

/-- the successors of a word in the pairs learned -/
def suivants (l : List (Mot × Mot)) (w : Mot) : List Mot := (l.filter fun x => x.1 = w).map Prod.snd

/-- the predecessors of a word -/
def precedents (l : List (Mot × Mot)) (w : Mot) : List Mot := (l.filter fun x => x.2 = w).map Prod.fst

theorem count_suivants (l : List (Mot × Mot)) (w b : Mot) : (suivants l w).count b = l.count (w, b) := by
  rw [suivants, List.count_eq_countP, List.countP_map, List.countP_filter, List.count_eq_countP]
  apply List.countP_congr
  intro x _
  simp [Prod.ext_iff, and_comm]

theorem count_precedents (l : List (Mot × Mot)) (w a : Mot) : (precedents l w).count a = l.count (a, w) := by
  rw [precedents, List.count_eq_countP, List.countP_map, List.countP_filter, List.count_eq_countP]
  apply List.countP_congr
  intro x _
  simp [Prod.ext_iff]

theorem length_suivants (l : List (Mot × Mot)) (w : Mot) : (suivants l w).length = (l.map Prod.fst).count w := by
  rw [suivants, List.length_map, ← List.countP_eq_length_filter, List.count_eq_countP, List.countP_map]
  apply List.countP_congr
  intro x _
  simp

theorem length_precedents (l : List (Mot × Mot)) (w : Mot) : (precedents l w).length = (l.map Prod.snd).count w := by
  rw [precedents, List.length_map, ← List.countP_eq_length_filter, List.count_eq_countP, List.countP_map]
  apply List.countP_congr
  intro x _
  simp

/-- the table of a word counts its successors -/
theorem Appris.ligne (h : Appris p l) {t : List (Mot × ℕ)} (ht : get p.langModel w = some t) :
    Compte t (suivants l w) where
  sansDouble := h.sansDouble w t ht
  valeur := by
    intro b
    have hmem : b ∈ suivants l w ↔ (w, b) ∈ l := by
      rw [← List.count_pos_iff, count_suivants, List.count_pos_iff]
    rw [h.compteDe w t ht, nombre]
    simp only [hmem, count_suivants]

theorem Appris.sum_ligne (h : Appris p l) (o : Ordre Mot) {t : List (Mot × ℕ)} (ht : get p.langModel w = some t) :
    sum o t = (l.map Prod.fst).count w := by
  rw [Apnee3.sum_eq, (h.ligne ht).sum_eq o, length_suivants]

theorem Comptage.predecesseur_eq (h : Comptage p l) (o : Ordre Mot) (w : Mot) :
    predecesseur p o w = (l.map Prod.fst).count w := by
  unfold predecesseur
  cases ht : get p.langModel w with
  | none =>
    have hnot : w ∉ l.map Prod.fst := by
      intro hw
      obtain ⟨x, hx, rfl⟩ := List.mem_map.1 hw
      exact h.appris.absent _ ht x.2 hx
    rw [List.count_eq_zero_of_not_mem hnot, Apnee3.sum_eq]
    simp [cles, (o.perm []).eq_nil]
  | some t => exact h.appris.sum_ligne o ht

theorem Comptage.successeur_eq (h : Comptage p l) (o : Ordre Mot) (w : Mot) :
    successeur p o w = (l.map Prod.snd).count w := by
  have hperm := o.perm (cles p.langModel)
  have hcompte : ∀ a, compte p a w = (precedents l w).count a := fun a => by
    rw [h.appris.compte_eq, count_precedents]
  unfold successeur
  simp only [hcompte]
  rw [sum_count (hperm.nodup_iff.2 h.sansDouble), length_precedents]
  intro a ha
  rw [hperm.mem_iff, mem_cles_iff]
  have hin : (a, w) ∈ l := by rwa [← List.count_pos_iff, ← count_precedents, List.count_pos_iff]
  cases ht : get p.langModel a with
  | none => exact absurd hin (h.appris.absent a ht w)
  | some t => exact ⟨t, rfl⟩

/-! ## The flow of words -/

theorem map_fst_zip (w : Mot) (ms : List Mot) : ((w :: ms).zip ms).map Prod.fst = (w :: ms).dropLast := by
  induction ms generalizing w with
  | nil => rfl
  | cons m ms ih => rw [List.zip_cons_cons, List.map_cons, ih, List.dropLast_cons_cons]

theorem map_snd_paires (ms : List Mot) : (paires ms).map Prod.snd = ms := by
  rw [paires, List.map_snd_zip]
  simp

/-- **In a chain of words**, the first is one predecessor more and the last one successor more. -/
theorem flux (ms : List Mot) (w : Mot) :
    (ms.count w : ℤ) - ((fantome :: ms).dropLast.count w : ℤ) =
      (if w = dernier ms then 1 else 0) - if w = fantome then 1 else 0 := by
  have hlast : (fantome :: ms).dropLast ++ [dernier ms] = fantome :: ms := by
    cases ms using List.reverseRecOn with
    | nil => rfl
    | append_singleton ms m =>
      have hm : dernier (ms ++ [m]) = m := by simp [dernier]
      rw [hm, ← List.cons_append, List.dropLast_concat]
  have hcount := congrArg (List.count w) hlast
  rw [List.count_append, List.count_singleton, List.count_cons] at hcount
  simp only [beq_iff_eq, eq_comm (b := w)] at hcount
  split_ifs at hcount ⊢ <;> omega

/-- **What Learn stores**, for every text and every way to cut its tokens. -/
theorem learn_bilan (morceaux : Mot → List Mot) (texte : List Char) (o : Ordre Mot) :
    Bilan (learnPar morceaux texte) o ((jetons texte).flatMap morceaux) := by
  have h := learnPar_comptage morceaux texte
  refine ⟨?_, ?_, ?_, fun w n hn => h.frequences.pos hn, fun w t w2 n ht hn => (h.appris.ligne ht).pos hn, ?_, ?_⟩
  · intro w t ht
    obtain ⟨b, hb⟩ := h.appris.present w t ht
    have hmem : w ∈ (paires ((jetons texte).flatMap morceaux)).map Prod.fst := List.mem_map.2 ⟨_, hb, rfl⟩
    rw [h.frequences.valeur, if_pos hmem, h.appris.sum_ligne o ht]
  · intro w hw
    rw [h.frequences.valeur, if_neg]
    intro hmem
    obtain ⟨x, hx, rfl⟩ := List.mem_map.1 hmem
    exact h.appris.absent _ hw x.2 hx
  · rw [Apnee3.sum_eq, h.frequences.sum_eq o, List.length_map, paires, List.length_zip, List.length_cons]
    omega
  · intro w
    rw [h.successeur_eq, map_snd_paires]
  · intro w
    rw [h.successeur_eq, h.predecesseur_eq, map_snd_paires, paires, map_fst_zip]
    exact flux _ w

end Semestre6.Apnee3
