/-
The projection and the subtraction of Joiner.java, each by rescans (naif) and through a Hashtable (hash).

- `DeuxChamps.split_eq`: two fields that are not empty are enough for split to give the first two fields of the line;
- `boucleProjectionNaif_eq`, `boucleProjectionHash_eq`: with either record of the names already met, the loop prints the
  new ones;
- `trouve_eq`, `remplitCles_eq`: the rescan of f2 and the table of f2 answer the same question;
- `hash_eq_naif`: each operator prints the same lines in both versions, and which ones.
-/
import Semestre6.Fichiers.Joiner

namespace Semestre6.Joiner

open Jointure Scanner

/-! ## projection -/

/-- the loop on the names already met, from `i` on, and the value of `i` after it -/
def cherche (nom t1_splited : List Ligne) (i : ℕ) : Except JException ℕ :=
  if h : i < nom.length then
    match t1_splited[1]? with
    | none => .error .arrayIndexOutOfBounds
    | some k => if nom[i] = k then .ok i else cherche nom t1_splited (i + 1)
  else .ok i
termination_by nom.length - i

def boucleProjectionNaif (nom : List Ligne) : List Ligne → List Ligne × Option JException
  | [] => ([], none)
  | t1 :: in1 =>
    if hasNext (t1 :: in1) then
      match cherche nom (split t1) 0 with
      | .error e => ([], some e)
      | .ok i =>
        if i ≥ nom.length then
          match (split t1)[1]? with
          | none => ([], some .arrayIndexOutOfBounds)
          | some k =>
            let r := boucleProjectionNaif (nom ++ [k]) in1
            (k :: r.1, r.2)
        else boucleProjectionNaif nom in1
    else ([], none)

def projectionNaif (f1 : List Ligne) : List Ligne × Option JException := boucleProjectionNaif [] f1

def boucleProjectionHash (hashed : Table) : List Ligne → List Ligne × Option JException
  | [] => ([], none)
  | t1 :: in1 =>
    if hasNext (t1 :: in1) then
      match (split t1)[1]? with
      | none => ([], some .arrayIndexOutOfBounds)
      | some k =>
        if (hashed k).isSome then boucleProjectionHash hashed in1
        else
          let r := boucleProjectionHash (Function.update hashed k (some k)) in1
          (k :: r.1, r.2)
    else ([], none)

def projectionHash (f1 : List Ligne) : List Ligne × Option JException := boucleProjectionHash (fun _ => none) f1

/-! ## soustraire -/

/-- the loop on in2, which stops at the first match -/
def trouve (t1_splited : List Ligne) : List Ligne → Except JException Bool
  | [] => .ok false
  | t2 :: in2 =>
    if hasNext (t2 :: in2) then
      match t1_splited[0]?, (split t2)[1]? with
      | some a, some b => if a = b then .ok true else trouve t1_splited in2
      | _, _ => .error .arrayIndexOutOfBounds
    else .ok false

/-- in2 is opened again after each line of f1 -/
def soustraireNaif (f1 f2 : List Ligne) : List Ligne × Option JException :=
  match f1 with
  | [] => ([], none)
  | t1 :: in1 =>
    if hasNext (t1 :: in1) then
      match trouve (split t1) f2 with
      | .error e => ([], some e)
      | .ok true => soustraireNaif in1 f2
      | .ok false =>
        match (split t1)[0]? with
        | none => ([], some .arrayIndexOutOfBounds)
        | some a =>
          let r := soustraireNaif in1 f2
          (a :: r.1, r.2)
    else ([], none)

def remplitCles (hashed_t2 : Table) : List Ligne → Except JException Table
  | [] => .ok hashed_t2
  | t2 :: in2 =>
    if hasNext (t2 :: in2) then
      match (split t2)[1]? with
      | some b => remplitCles (Function.update hashed_t2 b (some b)) in2
      | none => .error .arrayIndexOutOfBounds
    else .ok hashed_t2

def boucleSoustraire (hashed_t2 : Table) : List Ligne → List Ligne × Option JException
  | [] => ([], none)
  | t1 :: in1 =>
    if hasNext (t1 :: in1) then
      match (split t1)[0]? with
      | none => ([], some .arrayIndexOutOfBounds)
      | some a =>
        let r := boucleSoustraire hashed_t2 in1
        (if (hashed_t2 a).isSome then r.1 else a :: r.1, r.2)
    else ([], none)

def soustraireHash (f1 f2 : List Ligne) : List Ligne × Option JException :=
  match remplitCles (fun _ => none) f2 with
  | .error e => ([], some e)
  | .ok hashed_t2 => boucleSoustraire hashed_t2 f1

/-! ## The shape of the files -/

/-- the fields of the line itself, which `split` may give in part -/
def premier (t : Ligne) : Ligne := (champs t).getD 0 []
def second (t : Ligne) : Ligne := (champs t).getD 1 []

/-- two fields at least are not empty -/
def DeuxChamps (t : Ligne) : Prop := 2 ≤ ((champs t).filter fun c => c ≠ []).length

instance (t : Ligne) : Decidable (DeuxChamps t) := by unfold DeuxChamps; infer_instance

variable {t t1 : Ligne} {f1 f2 nom : List Ligne} {table : Table}

/-- dropping the empty fields at the end leaves the others -/
theorem length_filter_le_rdropWhile (l : List Ligne) :
    (l.filter fun c => c ≠ []).length ≤ (l.rdropWhile (·.isEmpty)).length := by
  have hvides : (l.rtakeWhile (·.isEmpty)).filter (fun c => c ≠ []) = [] := by
    rw [List.filter_eq_nil_iff]
    intro c hc
    simpa using List.mem_rtakeWhile_imp hc
  calc (l.filter fun c => c ≠ []).length
      = ((l.rdropWhile (·.isEmpty) ++ l.rtakeWhile (·.isEmpty)).filter fun c => c ≠ []).length := by
        rw [List.rdropWhile_append_rtakeWhile]
    _ = ((l.rdropWhile (·.isEmpty)).filter fun c => c ≠ []).length := by
        rw [List.filter_append, hvides, List.append_nil]
    _ ≤ (l.rdropWhile (·.isEmpty)).length := List.length_filter_le _ _

/-- both indices are in range after `split`, and give the fields of the line -/
theorem DeuxChamps.split_eq (h : DeuxChamps t) :
    (split t)[0]? = some (premier t) ∧ (split t)[1]? = some (second t) := by
  have hlen : 2 ≤ (champs t).length := h.trans (List.length_filter_le _ _)
  have htab : '\t' ∈ t := by
    by_contra hn
    rw [champs, List.splitOn_eq_singleton hn] at hlen
    simp at hlen
  have hsplit : split t = (champs t).rdropWhile (·.isEmpty) := if_pos htab
  have hlen' : 2 ≤ (split t).length := hsplit ▸ h.trans (length_filter_le_rdropWhile _)
  have hpre : split t <+: champs t := hsplit ▸ List.rdropWhile_prefix _ _
  have hchamp : ∀ i, i < 2 → (split t)[i]? = some ((champs t).getD i []) := by
    intro i hi
    rw [List.getElem?_eq_getElem (by omega), hpre.getElem (by omega)]
    simp [List.getD, show i < (champs t).length by omega]
  exact ⟨hchamp 0 (by omega), hchamp 1 (by omega)⟩

/-! ## The projections -/

/-- the search of a name reaches the end exactly when the name is new -/
theorem cherche_eq {t1_splited : List Ligne} {k : Ligne} (hk : t1_splited[1]? = some k) (nom : List Ligne) (i : ℕ) :
    ∃ j, cherche nom t1_splited i = .ok j ∧ (j ≥ nom.length ↔ k ∉ nom.drop i) := by
  rw [cherche]
  by_cases hi : i < nom.length
  · rw [dif_pos hi, hk, List.drop_eq_getElem_cons hi]
    by_cases he : nom[i] = k
    · exact ⟨i, if_pos he, by simp [he, hi]⟩
    · obtain ⟨j, hj, hiff⟩ := cherche_eq hk nom (i + 1)
      refine ⟨j, (if_neg he).trans hj, hiff.trans ?_⟩
      rw [List.mem_cons, not_or]
      exact (and_iff_right (Ne.symm he)).symm
  · refine ⟨i, dif_neg hi, ?_⟩
    rw [List.drop_eq_nil_of_le (not_lt.1 hi)]
    simpa using not_lt.1 hi
termination_by nom.length - i

theorem boucleProjectionNaif_eq (nom : List Ligne) (h1 : ∀ t ∈ f1, NonBlanche t ∧ DeuxChamps t) :
    boucleProjectionNaif nom f1 = (nouveaux (fun k => decide (k ∈ nom)) (f1.map second), none) := by
  induction f1 generalizing nom with
  | nil => rfl
  | cons t1 in1 ih =>
    obtain ⟨⟨hblanche, hchamps⟩, h1⟩ := List.forall_mem_cons.1 h1
    have hk := hchamps.split_eq.2
    obtain ⟨j, hj, hiff⟩ := cherche_eq hk nom 0
    rw [boucleProjectionNaif, if_pos (hasNext_cons hblanche in1), List.map_cons, nouveaux_cons, hj, hk]
    rw [List.drop_zero] at hiff
    by_cases hn : second t1 ∈ nom
    · rw [if_pos (by simpa using hn)]
      exact (if_neg (mt hiff.1 (not_not.2 hn))).trans (ih nom h1)
    · have hvu : (fun x => decide (x ∈ nom) || x == second t1) = fun x => decide (x ∈ nom ++ [second t1]) := by
        funext x
        simp [List.mem_append, Bool.decide_or, beq_eq_decide]
      rw [if_neg (by simpa using hn), hvu]
      refine (if_pos (hiff.2 hn)).trans ?_
      simp only [ih _ h1]

theorem boucleProjectionHash_eq (hashed : Table) (h1 : ∀ t ∈ f1, NonBlanche t ∧ DeuxChamps t) :
    boucleProjectionHash hashed f1 = (nouveaux (fun k => (hashed k).isSome) (f1.map second), none) := by
  induction f1 generalizing hashed with
  | nil => rfl
  | cons t1 in1 ih =>
    obtain ⟨⟨hblanche, hchamps⟩, h1⟩ := List.forall_mem_cons.1 h1
    rw [boucleProjectionHash, if_pos (hasNext_cons hblanche in1), List.map_cons, nouveaux_cons, hchamps.split_eq.2]
    by_cases hn : (hashed (second t1)).isSome = true
    · rw [if_pos hn]
      exact (if_pos hn).trans (ih hashed h1)
    · have hvu : (fun x => (hashed x).isSome || x == second t1) =
          fun x => (Function.update hashed (second t1) (some (second t1)) x).isSome := by
        funext x
        by_cases hx : x = second t1 <;> simp [hx]
      rw [if_neg hn, hvu]
      refine (if_neg hn).trans ?_
      simp only [ih _ h1]

/-! ## The subtractions -/

theorem trouve_eq (ha : DeuxChamps t1) (h2 : ∀ t ∈ f2, NonBlanche t ∧ DeuxChamps t) :
    trouve (split t1) f2 = .ok (decide (premier t1 ∈ f2.map second)) := by
  induction f2 with
  | nil => rfl
  | cons t2 in2 ih =>
    obtain ⟨⟨hblanche, hchamps⟩, h2⟩ := List.forall_mem_cons.1 h2
    rw [trouve, if_pos (hasNext_cons hblanche in2), ha.split_eq.1, hchamps.split_eq.2, List.map_cons]
    by_cases he : premier t1 = second t2
    · exact (if_pos he).trans (by simp [he])
    · refine (if_neg he).trans ((ih h2).trans ?_)
      simp [he]

theorem soustraireNaif_eq (h1 : ∀ t ∈ f1, NonBlanche t ∧ DeuxChamps t) (h2 : ∀ t ∈ f2, NonBlanche t ∧ DeuxChamps t) :
    soustraireNaif f1 f2 = ((f1.map premier).filter fun a => a ∉ f2.map second, none) := by
  induction f1 with
  | nil => rfl
  | cons t1 in1 ih =>
    obtain ⟨⟨hblanche, hchamps⟩, h1⟩ := List.forall_mem_cons.1 h1
    rw [soustraireNaif, if_pos (hasNext_cons hblanche in1), trouve_eq hchamps h2, hchamps.split_eq.1, List.map_cons]
    by_cases hin : premier t1 ∈ f2.map second
    · rw [decide_eq_true hin, List.filter_cons_of_neg (by simpa using hin)]
      exact ih h1
    · rw [decide_eq_false hin, List.filter_cons_of_pos (by simpa using hin), ih h1]

theorem remplitCles_eq (table : Table) (h2 : ∀ t ∈ f2, NonBlanche t ∧ DeuxChamps t) :
    ∃ hashed_t2, remplitCles table f2 = .ok hashed_t2 ∧
      ∀ a, (hashed_t2 a).isSome ↔ (table a).isSome ∨ a ∈ f2.map second := by
  induction f2 generalizing table with
  | nil => exact ⟨table, rfl, by simp⟩
  | cons t2 in2 ih =>
    obtain ⟨⟨hblanche, hchamps⟩, h2⟩ := List.forall_mem_cons.1 h2
    obtain ⟨hashed_t2, he, hiff⟩ := ih (Function.update table (second t2) (some (second t2))) h2
    refine ⟨hashed_t2, ?_, ?_⟩
    · rw [remplitCles, if_pos (hasNext_cons hblanche in2), hchamps.split_eq.2]
      exact he
    · intro a
      rw [hiff, List.map_cons, List.mem_cons]
      by_cases ha : a = second t2 <;> simp [ha]

theorem boucleSoustraire_eq (table : Table) (h1 : ∀ t ∈ f1, NonBlanche t ∧ DeuxChamps t) :
    boucleSoustraire table f1 = ((f1.map premier).filter fun a => !(table a).isSome, none) := by
  induction f1 with
  | nil => rfl
  | cons t1 in1 ih =>
    obtain ⟨⟨hblanche, hchamps⟩, h1⟩ := List.forall_mem_cons.1 h1
    rw [boucleSoustraire, if_pos (hasNext_cons hblanche in1), hchamps.split_eq.1, List.map_cons, List.filter_cons]
    simp only [ih h1]
    cases (table (premier t1)).isSome <;> rfl

/-- **The hash versions print the same lines as the naive ones**, in the same order: the distinct second fields of f1,
and the first fields of f1 that are no line's second field in f2. -/
theorem hash_eq_naif (f1 f2 : List Ligne) (h1 : ∀ t ∈ f1, NonBlanche t ∧ DeuxChamps t)
    (h2 : ∀ t ∈ f2, NonBlanche t ∧ DeuxChamps t) :
    (projectionHash f1 = projectionNaif f1 ∧ projectionNaif f1 = ((f1.map second).eraseDups, none)) ∧
      (soustraireHash f1 f2 = soustraireNaif f1 f2 ∧
        soustraireNaif f1 f2 = ((f1.map premier).filter fun a => a ∉ f2.map second, none)) := by
  have hnaif : projectionNaif f1 = ((f1.map second).eraseDups, none) := by
    rw [projectionNaif, boucleProjectionNaif_eq [] h1, ← nouveaux_false]
    simp
  have hhash : projectionHash f1 = ((f1.map second).eraseDups, none) := by
    rw [projectionHash, boucleProjectionHash_eq _ h1, ← nouveaux_false]
    rfl
  have hsoustraire : soustraireHash f1 f2 = soustraireNaif f1 f2 := by
    obtain ⟨hashed_t2, he, hiff⟩ := remplitCles_eq (fun _ => none) h2
    rw [soustraireHash, he, soustraireNaif_eq h1 h2]
    refine (boucleSoustraire_eq hashed_t2 h1).trans ?_
    congr 1
    apply List.filter_congr
    intro a _
    have ha : (hashed_t2 a).isSome = decide (a ∈ f2.map second) := by
      rw [Bool.eq_iff_iff, hiff]
      simp
    rw [ha, decide_not]
  exact ⟨⟨hhash.trans hnaif.symm, hnaif⟩, hsoustraire, soustraireNaif_eq h1 h2⟩

theorem hash_eq_naif_trois :
    (projectionHash [['x', '\t', 'k'], ['y', '\t', 'k'], ['k', '\t', 'z']] =
        projectionNaif [['x', '\t', 'k'], ['y', '\t', 'k'], ['k', '\t', 'z']] ∧
      projectionNaif [['x', '\t', 'k'], ['y', '\t', 'k'], ['k', '\t', 'z']] = ([['k'], ['z']], none)) ∧
      (soustraireHash [['x', '\t', 'k'], ['y', '\t', 'k'], ['k', '\t', 'z']] [['a', '\t', 'x']] =
          soustraireNaif [['x', '\t', 'k'], ['y', '\t', 'k'], ['k', '\t', 'z']] [['a', '\t', 'x']] ∧
        soustraireNaif [['x', '\t', 'k'], ['y', '\t', 'k'], ['k', '\t', 'z']] [['a', '\t', 'x']] =
          ([['y'], ['k']], none)) :=
  hash_eq_naif _ _ (by decide) (by decide)

end Semestre6.Joiner
