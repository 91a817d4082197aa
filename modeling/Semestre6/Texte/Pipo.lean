/-
Pipo.java: Learn counts in a Hashtable of Hashtables the words that follow each word of a text, '.' standing before the
first, and Talk draws words from these counts.

- `learn_appris`: after Learn the model holds every pair of consecutive words of the text with the number of times it
  occurs, and nothing else;
- `avance_spec`: a positive draw below 1 stops inside the enumeration, on one of its words; a draw of 0 stops before it
  and leaves the word as it was;
- `tour_iff`: one turn goes through and prints a successor of the last word exactly when that word has one, and the draw
  is positive or the word kept from the turn before is itself a successor;
- `talk_iff`: the whole of Talk, whatever the order in which the Hashtables are enumerated.
Witness that the condition is needed: `dernier_mot`, the last word of a text, which nothing follows.
-/
import Mathlib.Data.List.SplitBy
import Semestre6.Lib.Dictionnaire
import Semestre6.Lib.Transition
import Semestre6.Texte.Scanner

namespace Semestre6.Apnee3

open Dictionnaire Scanner Transition

abbrev Mot := List Char

inductive JException where
  | nullPointer
  | noSuchElement
deriving DecidableEq, Repr

/-- the class of the patterns of Learn, where + and / are the ends of a range -/
def ponctuation (c : Char) : Bool := c ∈ ['.', ',', '!', '?', '<', '>', '='] || ('+' ≤ c && c ≤ '/')

/-- what `.` matches in a pattern -/
def horsFinDeLigne (c : Char) : Bool := c ∉ ['\n', '\r', '\u0085', '\u2028', '\u2029']

/-- `word2.matches`: anything, then a punctuation mark -/
def estCollee (word2 : Mot) : Bool :=
  match word2.getLast? with
  | some c => ponctuation c && word2.dropLast.all horsFinDeLigne
  | none => false

/-- `word2.split`, before every punctuation mark and after every closing bracket, for a word that is not empty -/
def splitedWord (word2 : Mot) : List Mot := word2.splitBy fun a b => !(ponctuation b || a == ']')

/-- the words that one token gives -/
def morceaux (word2 : Mot) : List Mot := if estCollee word2 then splitedWord word2 else [word2]

/-- the counts are ints: the text has fewer than 2^31 words -/
structure Pipo where
  langModel : List (Mot × List (Mot × ℕ))
  frequenciesLearn : List (Mot × ℕ)

def nouveau : Pipo := ⟨[], []⟩

/-- one occurrence more -/
def incremente (h : List (Mot × ℕ)) (w : Mot) : List (Mot × ℕ) :=
  match get h w with
  | some occ => put h w (occ + 1)
  | none => put h w 1

def newWorsSeq (p : Pipo) (w1 w2 : Mot) : Pipo where
  langModel :=
    match get p.langModel w1 with
    | some t => put p.langModel w1 (incremente t w2)
    | none => put p.langModel w1 (put [] w2 1)
  frequenciesLearn := incremente p.frequenciesLearn w1

/-- one word learned; the second component is `word1` -/
def apprend (e : Pipo × Mot) (s : Mot) : Pipo × Mot := (newWorsSeq e.1 e.2 s, s)

def fantome : Mot := ['.']

def learn (texte : List Char) : Pipo :=
  ((jetons texte).foldl (fun e word2 => (morceaux word2).foldl apprend e) (nouveau, fantome)).1

/-- `sum` over the keys in the order of their enumeration -/
def sum (o : Ordre Mot) (h : List (Mot × ℕ)) : ℕ := (o.enumere (cles h)).foldl (fun s w => s + (get h w).getD 0) 0

/-- the variables of Talk, and what it has printed -/
structure Voix where
  w1 : Mot
  w2 : Mot
  frequenciesGen : List (Mot × ℕ)
  sortie : List Mot

/-- the end of a turn: `w2` is counted and printed, and is the word to follow -/
def Voix.dit (v : Voix) (w2 : Mot) : Voix := ⟨w2, w2, incremente v.frequenciesGen w2, v.sortie ++ [w2]⟩

/-- the inner loop on the keys left to enumerate; the probabilities are exact -/
def avance (table : List (Mot × ℕ)) (sumKeys : ℕ) (tirageRand : ℚ) : List Mot → ℚ → Mot → Except JException Mot
  | [], currentProba, w2 => if currentProba < tirageRand then .error .noSuchElement else .ok w2
  | w :: e, currentProba, w2 =>
    if currentProba < tirageRand then
      avance table sumKeys tirageRand e (currentProba + ((get table w).getD 0 : ℕ) / sumKeys) w
    else .ok w2

/-- one turn of the while loop, with its draw -/
def tour (p : Pipo) (o : Ordre Mot) (v : Voix) (tirageRand : ℚ) : Except JException Voix :=
  match get p.langModel v.w1 with
  | none => .error .nullPointer
  | some table => do
    let w2 ← avance table (sum o table) tirageRand (o.enumere (cles table)) 0 v.w2
    .ok (v.dit w2)

/-- the words printed by Talk, which draws `tirage i` at its turn `i` -/
def talk (p : Pipo) (o : Ordre Mot) (frequenciesGen : List (Mot × ℕ)) (nbWord : ℕ) (tirage : ℕ → ℚ) :
    Except JException (List Mot) :=
  (((List.range nbWord).map tirage).foldlM (tour p o) ⟨fantome, [], frequenciesGen, []⟩).map Voix.sortie

/-! ## What Learn stores -/

/-- the words of a text -/
def mots (texte : List Char) : List Mot := (jetons texte).flatMap morceaux

/-- each word with the one before it -/
def paires (ms : List Mot) : List (Mot × Mot) := (fantome :: ms).zip ms

/-- the count of `w2` as a successor of `w1` -/
def compte (p : Pipo) (w1 w2 : Mot) : ℕ := ((get p.langModel w1).bind fun t => get t w2).getD 0

/-- the count of a pair, if it occurs -/
def nombre (l : List (Mot × Mot)) (x : Mot × Mot) : Option ℕ := if x ∈ l then some (l.count x) else none

/-- the model holds the pairs of `l`, each with its number -/
structure Appris (p : Pipo) (l : List (Mot × Mot)) : Prop where
  absent : ∀ a, get p.langModel a = none → ∀ b, (a, b) ∉ l
  present : ∀ a t, get p.langModel a = some t → ∃ b, (a, b) ∈ l
  sansDouble : ∀ a t, get p.langModel a = some t → (cles t).Nodup
  compteDe : ∀ a t, get p.langModel a = some t → ∀ b, get t b = nombre l (a, b)

variable {p : Pipo} {o : Ordre Mot} {l : List (Mot × Mot)} {a b w1 w2 : Mot} {h : List (Mot × ℕ)}

theorem nombre_getD (l : List (Mot × Mot)) (x : Mot × Mot) : (nombre l x).getD 0 = l.count x := by
  unfold nombre
  split_ifs with hx
  · rfl
  · exact (List.count_eq_zero_of_not_mem hx).symm

theorem nombre_append_self (l : List (Mot × Mot)) (x : Mot × Mot) : nombre (l ++ [x]) x = some (l.count x + 1) := by
  have hmem : x ∈ l ++ [x] := by simp
  rw [nombre, if_pos hmem, List.count_append, List.count_singleton_self]

theorem nombre_append_of_ne (l : List (Mot × Mot)) {x y : Mot × Mot} (h : x ≠ y) :
    nombre (l ++ [x]) y = nombre l y := by
  have hmem : y ∈ l ++ [x] ↔ y ∈ l := by simp [Ne.symm h]
  have hcount : (l ++ [x]).count y = l.count y := by simp [List.count_append, h]
  unfold nombre
  simp only [hmem, hcount]

theorem get_incremente : get (incremente h w1) w2 = if w1 = w2 then some ((get h w1).getD 0 + 1) else get h w2 := by
  unfold incremente
  cases hw : get h w1 with
  | none => exact get_put
  | some occ => exact get_put

theorem nodup_incremente (hn : (cles h).Nodup) : (cles (incremente h w1)).Nodup := by
  unfold incremente
  cases get h w1 with
  | none => exact nodup_put hn
  | some occ => exact nodup_put hn

/-- the counts of the successors of one word, before and after one more -/
theorem get_langModel (p : Pipo) (w1 w2 a : Mot) :
    get (newWorsSeq p w1 w2).langModel a =
      if w1 = a then some (incremente ((get p.langModel w1).getD []) w2) else get p.langModel a := by
  unfold newWorsSeq
  cases hw : get p.langModel w1 with
  | none => exact get_put
  | some t => exact get_put

theorem nouveau_appris : Appris nouveau [] where
  absent := by simp
  present a t h := by simp [nouveau, Dictionnaire.get] at h
  sansDouble a t h := by simp [nouveau, Dictionnaire.get] at h
  compteDe a t h := by simp [nouveau, Dictionnaire.get] at h

theorem Appris.get_getD (h : Appris p l) (a b : Mot) : get ((get p.langModel a).getD []) b = nombre l (a, b) := by
  cases ht : get p.langModel a with
  | none => exact (if_neg (h.absent a ht b)).symm
  | some t => exact h.compteDe a t ht b

/-- **One pair more.** -/
theorem newWorsSeq_appris (h : Appris p l) (w1 w2 : Mot) : Appris (newWorsSeq p w1 w2) (l ++ [(w1, w2)]) where
  absent := by
    intro a ha b hb
    rw [get_langModel] at ha
    split_ifs at ha with hw
    rw [List.mem_append, List.mem_singleton, Prod.mk.injEq] at hb
    exact hb.elim (h.absent a ha b) fun hb => hw hb.1.symm
  present := by
    intro a t ha
    rw [get_langModel] at ha
    split_ifs at ha with hw
    · exact ⟨w2, by simp [hw]⟩
    · obtain ⟨b, hb⟩ := h.present a t ha
      exact ⟨b, List.mem_append_left _ hb⟩
  sansDouble := by
    intro a t ha
    rw [get_langModel] at ha
    split_ifs at ha with hw
    · rw [← Option.some.inj ha]
      apply nodup_incremente
      cases ht : get p.langModel w1 with
      | none => exact List.nodup_nil
      | some t => exact h.sansDouble w1 t ht
    · exact h.sansDouble a t ha
  compteDe := by
    intro a t ha b
    rw [get_langModel] at ha
    split_ifs at ha with hw
    · subst hw
      rw [← Option.some.inj ha, get_incremente, h.get_getD, h.get_getD]
      by_cases hb : w2 = b
      · subst hb
        rw [if_pos rfl, nombre_getD, nombre_append_self]
      · rw [if_neg hb, nombre_append_of_ne l fun h => hb (Prod.mk.inj h).2]
    · rw [h.compteDe a t ha, nombre_append_of_ne l fun h => hw (Prod.mk.inj h).1]

theorem foldl_appris (h : Appris p l) (w : Mot) (ms : List Mot) :
    Appris (ms.foldl apprend (p, w)).1 (l ++ (w :: ms).zip ms) := by
  induction ms generalizing p l w with
  | nil => simpa using h
  | cons m ms ih =>
    have hm := ih (newWorsSeq_appris h w m) m
    rw [List.append_assoc] at hm
    exact hm

/-- **Learn** stores the pairs of consecutive words of the text. -/
theorem learn_appris (texte : List Char) : Appris (learn texte) (paires (mots texte)) := by
  have h := foldl_appris nouveau_appris fantome (mots texte)
  rw [mots, List.foldl_flatMap] at h
  exact h

theorem Appris.compte_eq (h : Appris p l) (a b : Mot) : compte p a b = l.count (a, b) := by
  unfold compte
  cases ht : get p.langModel a with
  | none => exact (List.count_eq_zero_of_not_mem (h.absent a ht b)).symm
  | some t => rw [Option.bind_some, h.compteDe a t ht b, nombre_getD]

theorem Appris.compte_pos (h : Appris p l) : 1 ≤ compte p a b ↔ (a, b) ∈ l := by
  rw [h.compte_eq, Nat.one_le_iff_ne_zero, ← Nat.pos_iff_ne_zero, List.count_pos_iff]

/-! ## One draw -/

theorem foldl_add_eq (f : Mot → ℕ) (ws : List Mot) (s : ℕ) : ws.foldl (fun s w => s + f w) s = s + (ws.map f).sum := by
  induction ws generalizing s with
  | nil => rfl
  | cons w ws ih => rw [List.foldl_cons, ih, List.map_cons, List.sum_cons, Nat.add_assoc]

theorem sum_eq (o : Ordre Mot) (h : List (Mot × ℕ)) :
    sum o h = ((o.enumere (cles h)).map fun w => (get h w).getD 0).sum := by
  rw [sum, foldl_add_eq, Nat.zero_add]

/-- a sum of counts that is not 0 makes probabilities that add up to 1 -/
theorem sum_proba {table : List (Mot × ℕ)} (hpos : 0 < sum o table) :
    ((o.enumere (cles table)).map fun w => (((get table w).getD 0 : ℕ) : ℚ) / sum o table).sum = 1 := by
  have hcast : ((o.enumere (cles table)).map fun w => (((get table w).getD 0 : ℕ) : ℚ)).sum = sum o table := by
    rw [sum_eq, Nat.cast_list_sum, List.map_map]
    rfl
  have hne : (sum o table : ℚ) ≠ 0 := by exact_mod_cast hpos.ne'
  simp only [div_eq_mul_inv]
  rw [List.sum_map_mul_right, hcast, mul_inv_cancel₀ hne]

/-- **The inner loop** goes to the word whose share holds the draw, if the shares left reach it. -/
theorem avance_spec (table : List (Mot × ℕ)) (s : ℕ) (t : ℚ) (e : List Mot) (proba : ℚ) (w2 : Mot)
    (ht : t ≤ proba + (e.map fun w => (((get table w).getD 0 : ℕ) : ℚ) / s).sum) :
    ∃ w, avance table s t e proba w2 = .ok w ∧ ((proba < t ∧ w ∈ e) ∨ (t ≤ proba ∧ w = w2)) := by
  induction e generalizing proba w2 with
  | nil =>
    have ht : t ≤ proba := by simpa using ht
    exact ⟨w2, if_neg (not_lt.2 ht), .inr ⟨ht, rfl⟩⟩
  | cons w e ih =>
    rw [avance]
    by_cases hlt : proba < t
    · rw [if_pos hlt]
      rw [List.map_cons, List.sum_cons, ← add_assoc] at ht
      obtain ⟨w', hw', hcase⟩ := ih _ w ht
      refine ⟨w', hw', .inl ⟨hlt, ?_⟩⟩
      apply hcase.elim
      · intro h
        exact List.mem_cons_of_mem w h.2
      · intro h
        rw [h.2]
        exact List.mem_cons_self
    · rw [if_neg hlt]
      exact ⟨w2, rfl, .inr ⟨not_lt.1 hlt, rfl⟩⟩

/-- the counts after a word of the model are not all 0 -/
theorem Appris.sum_pos (h : Appris p l) {table : List (Mot × ℕ)} (ht : get p.langModel a = some table) :
    0 < sum o table := by
  obtain ⟨b, hb⟩ := h.present a table ht
  have hget : get table b = some (l.count (a, b)) := by rw [h.compteDe a table ht, nombre, if_pos hb]
  have hmem : b ∈ o.enumere (cles table) := (o.perm _).mem_iff.2 (mem_cles_iff.2 ⟨_, hget⟩)
  have hle : (get table b).getD 0 ≤ sum o table := by
    rw [sum_eq]
    exact List.le_sum_of_mem (List.mem_map.2 ⟨b, hmem, rfl⟩)
  rw [hget, Option.getD_some] at hle
  exact lt_of_lt_of_le (List.count_pos_iff.2 hb) hle

/-- the word printed last has a successor in the text, and the draw is positive or the variable w2 holds one -/
def Possible (ms : List Mot) (v : Voix) (t : ℚ) : Prop :=
  (∃ b, (v.w1, b) ∈ paires ms) ∧ (0 < t ∨ (v.w1, v.w2) ∈ paires ms)

/-- **One turn.** -/
theorem tour_iff {ms : List Mot} (h : Appris p (paires ms)) (o : Ordre Mot) (v : Voix) {t : ℚ} (h1 : t < 1) :
     (∃ v', tour p o v t = .ok v' ∧ 1 ≤ compte p v.w1 v'.w1) ↔ Possible ms v t := by
  cases ht : get p.langModel v.w1 with
  | none =>
    apply iff_of_false
    · intro hv
      obtain ⟨v', hv', -⟩ := hv
      rw [tour, ht] at hv'
      cases hv'
    · intro hp
      obtain ⟨⟨b, hb⟩, -⟩ := hp
      exact h.absent _ ht b hb
  | some table =>
    have hshares : t ≤ 0 + ((o.enumere (cles table)).map
        fun w => (((get table w).getD 0 : ℕ) : ℚ) / sum o table).sum := by
      rw [sum_proba (h.sum_pos ht), zero_add]
      exact h1.le
    obtain ⟨w, hw, hcase⟩ := avance_spec table (sum o table) t _ 0 v.w2 hshares
    have htour : tour p o v t = .ok (v.dit w) := by
      rw [tour, ht]
      exact congrArg (· >>= _) hw
    have hsucc : (∃ v', tour p o v t = .ok v' ∧ 1 ≤ compte p v.w1 v'.w1) ↔ (v.w1, w) ∈ paires ms := by
      rw [htour]
      simp only [Except.ok.injEq, exists_eq_left', h.compte_pos, Voix.dit]
    rw [hsucc, Possible, and_iff_right (h.present _ table ht)]
    apply hcase.elim
    · intro hc
      have hmem : w ∈ cles table := (o.perm _).mem_iff.1 hc.2
      obtain ⟨n, hn⟩ := mem_cles_iff.1 hmem
      rw [h.compteDe _ table ht, nombre] at hn
      split_ifs at hn with hin
      exact iff_of_true hin (.inl hc.1)
    · intro hc
      rw [hc.2, or_iff_right (not_lt.2 hc.1)]

theorem sortie_tour {v v' : Voix} {t : ℚ} (h : tour p o v t = .ok v') : v'.sortie = v.sortie ++ [v'.w1] := by
  unfold tour at h
  split at h
  · cases h
  · rename_i table _
    cases hw : avance table (sum o table) t (o.enumere (cles table)) 0 v.w2 with
    | error e => simp [hw, bind, Except.bind] at h
    | ok w =>
      simp only [hw, bind, Except.bind, Except.ok.injEq] at h
      rw [← h, Voix.dit]

/-! ## The whole of Talk -/

theorem sortie_tours {v v' : Voix} {ts : List ℚ} (h : ts.foldlM (tour p o) v = .ok v') :
    ∃ l, v'.sortie = v.sortie ++ l := by
  induction ts generalizing v with
  | nil => exact ⟨[], by rw [List.append_nil, Except.ok.inj h]⟩
  | cons t ts ih =>
    cases hv : tour p o v t with
    | error e => simp [hv, bind, Except.bind] at h
    | ok v₁ =>
      simp only [List.foldlM_cons, hv, bind, Except.bind] at h
      obtain ⟨l, hl⟩ := ih h
      exact ⟨v₁.w1 :: l, by rw [hl, sortie_tour hv, List.append_assoc, List.singleton_append]⟩

/-- the draws of a list, from any state of the loop -/
theorem tours_iff {ms : List Mot} (h : Appris p (paires ms)) (o : Ordre Mot) (v : Voix) (ts : List ℚ)
    (hts : ∀ t ∈ ts, t < 1) :
    (∃ v' l, ts.foldlM (tour p o) v = .ok v' ∧ v'.sortie = v.sortie ++ l ∧ l.length = ts.length ∧
        (v.w1 :: l).IsChain fun a b => 1 ≤ compte p a b) ↔
      AlwaysM (fun v t => (tour p o v t).toOption) (Possible ms) v ts := by
  induction ts generalizing v with
  | nil => simp [AlwaysM, pure, Except.pure]
  | cons t ts ih =>
    rw [List.forall_mem_cons] at hts
    have hstep := tour_iff h o v hts.1
    cases hv : tour p o v t with
    | error e =>
      apply iff_of_false
      · intro hrun
        obtain ⟨v', l, hrun, -⟩ := hrun
        rw [List.foldlM_cons, hv] at hrun
        cases hrun
      · intro hp
        obtain ⟨v', hv', -⟩ := hstep.2 hp.1
        rw [hv] at hv'
        cases hv'
    | ok v₁ =>
      rw [hv] at hstep
      simp only [Except.ok.injEq, exists_eq_left'] at hstep
      have hsome : (tour p o v t).toOption = some v₁ := by rw [hv]; rfl
      rw [alwaysM_cons hsome, ← hstep, ← ih v₁ hts.2, List.foldlM_cons, hv]
      have hsortie := sortie_tour hv
      apply Iff.intro
      · intro hrun
        obtain ⟨v', l, hrun, hl, hlen, hchaine⟩ := hrun
        obtain ⟨l', hl'⟩ := sortie_tours hrun
        have hll : l = v₁.w1 :: l' := by
          rw [hl', hsortie, List.append_assoc, List.singleton_append] at hl
          exact (List.append_cancel_left hl).symm
        rw [hll] at hlen hchaine
        rw [List.isChain_cons_cons] at hchaine
        exact ⟨hchaine.1, v', l', hrun, hl', Nat.succ.inj hlen, hchaine.2⟩
      · intro hrun
        obtain ⟨hcompte, v', l, hrun, hl, hlen, hchaine⟩ := hrun
        refine ⟨v', v₁.w1 :: l, hrun, ?_, congrArg Nat.succ hlen, List.isChain_cons_cons.2 ⟨hcompte, hchaine⟩⟩
        rw [hl, hsortie, List.append_assoc, List.singleton_append]

/-- **Talk prints `nbWord` words**, each a successor of the one before it, exactly when at every turn the word printed
last ('.' at first) has a successor in the text, and the draw is positive or the word that w2 holds (none at first) is
one. -/
theorem talk_iff (texte : List Char) (o : Ordre Mot) (frequenciesGen : List (Mot × ℕ)) (nbWord : ℕ) (tirage : ℕ → ℚ)
    (htirage : ∀ i, 0 ≤ tirage i ∧ tirage i < 1) :
    (∃ l, talk (learn texte) o frequenciesGen nbWord tirage = .ok l ∧ l.length = nbWord ∧
        (fantome :: l).IsChain fun a b => 1 ≤ compte (learn texte) a b) ↔
      AlwaysM (fun v t => (tour (learn texte) o v t).toOption) (Possible (mots texte)) ⟨fantome, [], frequenciesGen, []⟩
        ((List.range nbWord).map tirage) := by
  have hts : ∀ t ∈ (List.range nbWord).map tirage, t < 1 := by
    intro t ht
    obtain ⟨i, -, rfl⟩ := List.mem_map.1 ht
    exact (htirage i).2
  rw [← tours_iff (learn_appris texte) o _ _ hts, talk]
  cases ((List.range nbWord).map tirage).foldlM (tour (learn texte) o) ⟨fantome, [], frequenciesGen, []⟩ with
  | error e => simp [Except.map]
  | ok v => simp [Except.map]

theorem talk_iff_un_mot :
    (∃ l, talk (learn ['a']) ⟨id, List.Perm.refl⟩ [] 1 (fun _ => 1 / 2) = .ok l ∧ l.length = 1 ∧
        (fantome :: l).IsChain fun a b => 1 ≤ compte (learn ['a']) a b) ↔
      AlwaysM (fun v t => (tour (learn ['a']) ⟨id, List.Perm.refl⟩ v t).toOption) (Possible (mots ['a']))
        ⟨fantome, [], [], []⟩ ((List.range 1).map fun _ => 1 / 2) :=
  talk_iff ['a'] ⟨id, List.Perm.refl⟩ [] 1 (fun _ => 1 / 2) fun _ => by norm_num

/-- **The last word.** On a text of one word the second turn looks up a word that nothing follows. -/
theorem dernier_mot : ¬ ∀ (texte : List Char) (o : Ordre Mot) (frequenciesGen : List (Mot × ℕ)) (nbWord : ℕ)
    (tirage : ℕ → ℚ), jetons texte ≠ [] → (∀ i, 0 ≤ tirage i ∧ tirage i < 1) →
    ∃ l, talk (learn texte) o frequenciesGen nbWord tirage = .ok l ∧ l.length = nbWord ∧
      (fantome :: l).IsChain fun a b => 1 ≤ compte (learn texte) a b := by
  intro h
  have htalk : talk (learn ['a']) ⟨id, List.Perm.refl⟩ [] 2 (fun _ => 1 / 2) = .error .nullPointer := by decide +kernel
  obtain ⟨l, hl, -⟩ := h ['a'] ⟨id, List.Perm.refl⟩ [] 2 (fun _ => 1 / 2) (by decide) fun _ => by norm_num
  rw [htalk] at hl
  cases hl

end Semestre6.Apnee3
