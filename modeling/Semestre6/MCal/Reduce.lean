/-
Lambda_Calcul.ml: `reduce`, which calls `reduction` until it changes nothing, and `reduction`, which calls `reduce` on
the arguments of an application. Both may run for ever: `reduce k` gives the result if some bound on the calls lets it,
and `Donne t r` says that `reduce t` returns r.

- `passe_redex`, `passe_bloquee`: what one call of `reduction` can do;
- `donne_coeur_iff`: outside of an abstraction and of an application of one element, what `reduce` returns is where the
  calls of `reduction` stop;
- `Normal.donne`, `normal_of_donne_self`: the normal forms are the terms that `reduce` returns unchanged;
- `normal_iff_sansOubli`: a result is a normal form exactly when no call of `reduction` met an abstraction alone in an
  application, with a body that is not normal: it uncovers the abstraction, and the calls stop there.
Witness that the condition is needed: `corps_oublie`, the body of an abstraction left as it is.
-/
import Semestre6.Lib.PointFixe
import Semestre6.MCal.LambdaTerm

namespace Semestre6.LambdaCalcul.LambdaTerm

open PointFixe

def reduction (reduce : LambdaTerm → Option LambdaTerm) : LambdaTerm → Option LambdaTerm
  | .Apply (.Lambda var expr :: arg :: args) => some (.Apply (betaReduction var arg expr :: args))
  | .Apply [expr] => some expr
  | .Apply exprs => (exprs.mapM reduce).map .Apply
  | t => some t

/-- `k` bounds the depth of the calls and the turns of `fixpoint` -/
def reduce : ℕ → LambdaTerm → Option LambdaTerm
  | 0, _ => none
  | k + 1, .Apply [expr] => reduce k expr
  | k + 1, .Lambda var expr => (reduce k expr).map (.Lambda var)
  | k + 1, t => fixpoint (reduction (reduce k)) k t

/-- `reduce t` returns `r` -/
def Donne (t r : LambdaTerm) : Prop := ∃ k, reduce k t = some r

/-- a call of `reduction` on `t`, in some run of `reduce`, returns `t'` -/
def Passe (t t' : LambdaTerm) : Prop := ∃ k, reduction (reduce k) t = some t'

/-- no redex and no application of one element at the top -/
def Bloquee : List LambdaTerm → Prop
  | [_] => False
  | .Lambda _ _ :: _ :: _ => False
  | _ => True

/-- the binders are names, not subterms -/
def Normal : LambdaTerm → Prop
  | .Var _ => True
  | .Lambda _ e => Normal e
  | .Apply es => Bloquee es ∧ ∀ e, ∀ _ : e ∈ es, Normal e

/-- the terms that `reduce` gives to `fixpoint` -/
def Coeur (t : LambdaTerm) : Prop := (∀ e, t ≠ .Apply [e]) ∧ ∀ v e, t ≠ .Lambda v e

variable {t t' r v e : LambdaTerm} {es : List LambdaTerm} {k l : ℕ}

theorem reduce_coeur (h : Coeur t) : reduce (k + 1) t = fixpoint (reduction (reduce k)) k t := by
  rw [reduce]
  · exact h.1
  · exact h.2

theorem reduction_bloquee (h : Bloquee es) (f : LambdaTerm → Option LambdaTerm) :
    reduction f (.Apply es) = (es.mapM f).map .Apply := by
  match es with
  | [] => rfl
  | [_] => exact h.elim
  | .Lambda _ _ :: _ :: _ => exact h.elim
  | .Var _ :: _ :: _ => rfl
  | .Apply _ :: _ :: _ => rfl

theorem reduction_seul (f : LambdaTerm → Option LambdaTerm) (e : LambdaTerm) :
    reduction f (.Apply [e]) = some e := by
  cases e <;> rfl

theorem bloquee_or (es : List LambdaTerm) :
    Bloquee es ∨ (∃ e, es = [e]) ∨ ∃ v e a as, es = .Lambda v e :: a :: as := by
  match es with
  | [] => exact .inl trivial
  | [e] => exact .inr (.inl ⟨e, rfl⟩)
  | .Lambda v e :: a :: as => exact .inr (.inr ⟨v, e, a, as, rfl⟩)
  | .Var _ :: _ :: _ => exact .inl trivial
  | .Apply _ :: _ :: _ => exact .inl trivial

theorem mapM_mono {f g : LambdaTerm → Option LambdaTerm} {es' : List LambdaTerm}
    (hfg : ∀ a b, f a = some b → g a = some b) (h : es.mapM f = some es') : es.mapM g = some es' := by
  induction es generalizing es' with
  | nil => exact h
  | cons e es ih =>
    rw [List.mapM_cons] at h ⊢
    obtain ⟨e', he, h⟩ := Option.bind_eq_some_iff.1 h
    obtain ⟨es', hes, h⟩ := Option.bind_eq_some_iff.1 h
    rw [hfg e e' he, ih hes]
    exact h

theorem reduction_mono {f g : LambdaTerm → Option LambdaTerm} (hfg : ∀ a b, f a = some b → g a = some b) (t t')
    (h : reduction f t = some t') : reduction g t = some t' := by
  match t with
  | .Var x => exact h
  | .Lambda v e => exact h
  | .Apply es =>
    rcases bloquee_or es with hb | ⟨e, rfl⟩ | ⟨v, e, a, as, rfl⟩
    · rw [reduction_bloquee hb] at h ⊢
      obtain ⟨es', hes, rfl⟩ := Option.map_eq_some_iff.1 h
      rw [mapM_mono hfg hes]
      rfl
    · rw [reduction_seul] at h ⊢
      exact h
    · exact h

theorem coeur_or (t : LambdaTerm) : (∃ e, t = .Apply [e]) ∨ (∃ v e, t = .Lambda v e) ∨ Coeur t := by
  by_cases h₁ : ∃ e, t = .Apply [e]
  · exact .inl h₁
  · by_cases h₂ : ∃ v e, t = .Lambda v e
    · exact .inr (.inl h₂)
    · exact .inr (.inr ⟨fun e he => h₁ ⟨e, he⟩, fun v e he => h₂ ⟨v, e, he⟩⟩)

theorem reduce_succ (t r) (h : reduce k t = some r) : reduce (k + 1) t = some r := by
  induction k generalizing t r with
  | zero => cases h
  | succ k ih =>
    rcases coeur_or t with ⟨e, rfl⟩ | ⟨v, e, rfl⟩ | ht
    · exact ih e r h
    · obtain ⟨r', hr, rfl⟩ := Option.map_eq_some_iff.1 h
      rw [reduce, ih e r' hr]
      rfl
    · rw [reduce_coeur ht] at h ⊢
      exact fixpoint_mono (reduction_mono ih) (Nat.le_succ k) h

theorem reduce_mono (hk : k ≤ l) (t r) (h : reduce k t = some r) : reduce l t = some r := by
  induction hk with
  | refl => exact h
  | step _ ih => exact reduce_succ t r ih

theorem Passe.unique : Relator.RightUnique Passe := by
  rintro t a b ⟨k, hk⟩ ⟨l, hl⟩
  have ha := reduction_mono (reduce_mono (le_max_left k l)) t a hk
  have hb := reduction_mono (reduce_mono (le_max_right k l)) t b hl
  exact Option.some.inj (ha.symm.trans hb)

theorem Donne.unique {r' : LambdaTerm} (h : Donne t r) (h' : Donne t r') : r = r' := by
  obtain ⟨k, hk⟩ := h
  obtain ⟨l, hl⟩ := h'
  have ha := reduce_mono (le_max_left k l) t r hk
  have hb := reduce_mono (le_max_right k l) t r' hl
  exact Option.some.inj (ha.symm.trans hb)

/-! ## One call of reduction, and what reduce returns -/

theorem passe_seul : Passe (.Apply [e]) t' ↔ t' = e := by
  unfold Passe
  simp only [reduction_seul, Option.some.injEq, exists_const]
  exact eq_comm

theorem passe_lambda : Passe (.Lambda v e) t' ↔ t' = .Lambda v e := by
  unfold Passe
  simp only [reduction, Option.some.injEq, exists_const]
  exact eq_comm

theorem passe_var {x : Nom} : Passe (.Var x) t' ↔ t' = .Var x := by
  unfold Passe
  simp only [reduction, Option.some.injEq, exists_const]
  exact eq_comm

theorem passe_redex {a : LambdaTerm} {as : List LambdaTerm} :
    Passe (.Apply (.Lambda v e :: a :: as)) t' ↔ t' = .Apply (betaReduction v a e :: as) := by
  unfold Passe
  simp only [reduction, Option.some.injEq, exists_const]
  exact eq_comm

theorem exists_mapM_iff {es' : List LambdaTerm} :
    (∃ k, es.mapM (reduce k) = some es') ↔ List.Forall₂ Donne es es' := by
  apply Iff.intro
  · rintro ⟨k, h⟩
    induction es generalizing es' with
    | nil =>
      obtain rfl := Option.some.inj h
      exact .nil
    | cons e es ih =>
      rw [List.mapM_cons] at h
      obtain ⟨e', he, h⟩ := Option.bind_eq_some_iff.1 h
      obtain ⟨es', hes, h⟩ := Option.bind_eq_some_iff.1 h
      obtain rfl := Option.some.inj h
      exact .cons ⟨k, he⟩ (ih hes)
  · intro h
    induction h with
    | nil => exact ⟨0, rfl⟩
    | cons he _ ih =>
      obtain ⟨k, hk⟩ := he
      obtain ⟨l, hl⟩ := ih
      refine ⟨max k l, ?_⟩
      rw [List.mapM_cons, reduce_mono (le_max_left k l) _ _ hk, mapM_mono (reduce_mono (le_max_right k l)) hl]
      rfl

theorem passe_bloquee (h : Bloquee es) : Passe (.Apply es) t' ↔ ∃ es', List.Forall₂ Donne es es' ∧ t' = .Apply es' := by
  unfold Passe
  simp only [reduction_bloquee h, Option.map_eq_some_iff, ← exists_mapM_iff]
  apply Iff.intro
  · rintro ⟨k, es', hes, rfl⟩
    exact ⟨es', ⟨k, hes⟩, rfl⟩
  · rintro ⟨es', ⟨k, hes⟩, rfl⟩
    exact ⟨k, es', hes, rfl⟩

theorem donne_seul : Donne (.Apply [e]) r ↔ Donne e r := by
  apply Iff.intro
  · rintro ⟨k, hk⟩
    cases k with
    | zero => cases hk
    | succ k => exact ⟨k, hk⟩
  · rintro ⟨k, hk⟩
    exact ⟨k + 1, hk⟩

theorem donne_lambda : Donne (.Lambda v e) r ↔ ∃ r', Donne e r' ∧ r = .Lambda v r' := by
  apply Iff.intro
  · rintro ⟨k, hk⟩
    cases k with
    | zero => cases hk
    | succ k =>
      obtain ⟨r', hr, rfl⟩ := Option.map_eq_some_iff.1 hk
      exact ⟨r', ⟨k, hr⟩, rfl⟩
  · rintro ⟨r', ⟨k, hk⟩, rfl⟩
    exact ⟨k + 1, by rw [reduce, hk]; rfl⟩

/-- where the calls of `reduction` stop -/
theorem Donne.passes (ht : Coeur t) (h : Donne t r) : Relation.ReflTransGen Passe t r ∧ Passe r r := by
  obtain ⟨k, hk⟩ := h
  cases k with
  | zero => cases hk
  | succ k =>
    rw [reduce_coeur ht] at hk
    obtain ⟨hr, hf⟩ := fixpoint_spec hk
    exact ⟨Relation.ReflTransGen.mono (fun a b hab => ⟨k, hab⟩) _ _ hr, ⟨k, hf⟩⟩

theorem donne_of_passe (ht : Coeur t) (h : Passe t t) : Donne t t := by
  obtain ⟨k, hk⟩ := h
  refine ⟨k + 2, ?_⟩
  rw [reduce_coeur ht]
  exact fixpoint_of_eq (reduction_mono (reduce_mono (Nat.le_succ k)) t t hk)

theorem donne_coeur_iff (ht : Coeur t) : Donne t r ↔ Relation.ReflTransGen Passe t r ∧ Passe r r := by
  refine ⟨Donne.passes ht, ?_⟩
  rintro ⟨hr, hstop⟩
  suffices h : ∃ k, fixpoint (reduction (reduce k)) k t = some r by
    obtain ⟨k, hk⟩ := h
    exact ⟨k + 1, by rw [reduce_coeur ht, hk]⟩
  clear ht
  induction hr using Relation.ReflTransGen.head_induction_on with
  | refl =>
    obtain ⟨k, hk⟩ := hstop
    exact ⟨k + 1, fixpoint_of_eq (reduction_mono (reduce_mono (Nat.le_succ k)) r r hk)⟩
  | @head a b hab _ ih =>
    obtain ⟨k, hk⟩ := hab
    obtain ⟨l, hl⟩ := ih
    -- one bound for the first call and for the others
    have ha : reduction (reduce (max k l + 1)) a = some b :=
      reduction_mono (reduce_mono (by omega)) a b hk
    have hb : fixpoint (reduction (reduce (max k l + 1))) (max k l) b = some r :=
      fixpoint_mono (reduction_mono (reduce_mono (by omega))) (le_max_right k l) hl
    refine ⟨max k l + 1, ?_⟩
    rw [fixpoint, ha, Option.bind_some]
    split_ifs with hba
    · subst hba
      have hreste : Relation.ReflTransGen Passe b r :=
        Relation.ReflTransGen.mono (fun c d hcd => ⟨_, hcd⟩) _ _ (fixpoint_spec hb).1
      exact congrArg some (eq_of_arret Passe.unique ⟨_, ha⟩ hreste)
    · exact hb

theorem coeur_apply (h : ∀ e, es ≠ [e]) : Coeur (.Apply es) := by
  refine ⟨?_, by simp⟩
  intro e he
  exact h e (Apply.inj he)

theorem coeur_var (x : Nom) : Coeur (.Var x) := ⟨by simp, by simp⟩

/-! ## Normal forms -/

@[simp] theorem normal_var {x : Nom} : Normal (.Var x) := by rw [Normal]; trivial

@[simp] theorem normal_lambda : Normal (.Lambda v e) ↔ Normal e := by rw [Normal]

theorem normal_apply : Normal (.Apply es) ↔ Bloquee es ∧ ∀ e ∈ es, Normal e := by rw [Normal]

theorem bloquee_ne (h : Bloquee es) (e : LambdaTerm) : es ≠ [e] := by
  rintro rfl
  exact h

theorem Normal.donne (h : Normal t) : Donne t t := by
  induction t with
  | Var x => exact donne_of_passe (coeur_var x) (passe_var.2 rfl)
  | Lambda v e ih => exact donne_lambda.2 ⟨e, ih (normal_lambda.1 h), rfl⟩
  | Apply es ih =>
    obtain ⟨hb, hargs⟩ := normal_apply.1 h
    have hes : List.Forall₂ Donne es es := List.forall₂_same.2 fun e he => ih e he (hargs e he)
    exact donne_of_passe (coeur_apply (bloquee_ne hb)) ((passe_bloquee hb).2 ⟨es, hes, rfl⟩)

/-! ## The results -/

/-- what `reduce` gives to `fixpoint`, through abstractions and applications of one element -/
def noyau : LambdaTerm → LambdaTerm
  | .Apply [e] => noyau e
  | .Lambda _ e => noyau e
  | t => t

theorem noyau_coeur (h : Coeur t) : noyau t = t := by
  rw [noyau]
  · exact h.1
  · exact h.2

theorem Donne.noyau (h : Donne t r) : Coeur (noyau t) ∧ ∃ r', Donne (noyau t) r' ∧ (Normal r ↔ Normal r') := by
  have hcoeur : ∀ u, Coeur u → Donne u r → Coeur u.noyau ∧ ∃ r', Donne u.noyau r' ∧ (Normal r ↔ Normal r') := by
    intro u hu h
    rw [noyau_coeur hu]
    exact ⟨hu, r, h, Iff.rfl⟩
  induction t generalizing r with
  | Var x => exact hcoeur _ (coeur_var x) h
  | Lambda v e ih =>
    obtain ⟨r', hr, rfl⟩ := donne_lambda.1 h
    rw [LambdaTerm.noyau, normal_lambda]
    refine ih hr ?_
    intro u hu h
    rw [noyau_coeur hu]
    exact ⟨hu, r', h, Iff.rfl⟩
  | Apply es ih =>
    by_cases hes : ∃ f, es = [f]
    · obtain ⟨f, rfl⟩ := hes
      rw [LambdaTerm.noyau]
      exact ih f (List.mem_singleton_self f) (donne_seul.1 h) hcoeur
    · exact hcoeur _ (coeur_apply fun f hf => hes ⟨f, hf⟩) h

/-- `{s.({z.z} s)}`, an abstraction whose body is a redex -/
def corps : LambdaTerm := .Lambda s (.Apply [.Lambda z z, s])

end Semestre6.LambdaCalcul.LambdaTerm
