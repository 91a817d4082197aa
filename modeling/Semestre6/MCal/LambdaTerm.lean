/-
Lambda_Calcul.ml: lambda terms, and `beta_reduction`, the substitution of an argument for a variable.

A term up to the names of its bound variables is a term without names (`sansNoms`), where substitution cannot capture.

- `LambdaTerm.induction`: the rule for a property of the terms;
- `libre_sansNoms`: the free variables, by names and without;
- `sansNoms_renomme`: renaming a bound variable gives the same term without names;
- `sansNoms_betaReduction_iff`, `betaReduction_iff`: the result is the capture-avoiding substitution, free variables
  included, exactly when no free occurrence of the variable is under a binder whose name is free in the argument.
Witness that the condition is needed: `z_capture`, a variable that an abstraction catches.
-/
import Semestre6.Lib.SansNoms

namespace Semestre6.LambdaCalcul

open SansNoms

/-- a name and a number -/
abbrev Nom := String × ℤ

/-- the binder of an abstraction is a term, by the types -/
inductive LambdaTerm where
  | Lambda (var : LambdaTerm) (expr : LambdaTerm)
  | Apply (exprs : List LambdaTerm)
  | Var (nom : Nom)

namespace LambdaTerm

/-- the structural equality of the language -/
def decEq : (t u : LambdaTerm) → Decidable (t = u)
  | .Var x, .Var y => decidable_of_iff (x = y) (by simp)
  | .Lambda v e, .Lambda w f =>
    match decEq v w, decEq e f with
    | isTrue hv, isTrue he => isTrue (by rw [hv, he])
    | isFalse hv, _ => isFalse (by simp [hv])
    | _, isFalse he => isFalse (by simp [he])
  | .Apply es, .Apply fs =>
    match decEqs es fs with
    | isTrue h => isTrue (by rw [h])
    | isFalse h => isFalse (by simp [h])
  | .Var _, .Lambda _ _ | .Var _, .Apply _ | .Lambda _ _, .Var _ | .Lambda _ _, .Apply _ | .Apply _, .Var _
  | .Apply _, .Lambda _ _ => isFalse (by simp)
where
  decEqs : (es fs : List LambdaTerm) → Decidable (es = fs)
  | [], [] => isTrue rfl
  | [], _ :: _ | _ :: _, [] => isFalse (by simp)
  | e :: es, f :: fs =>
    match decEq e f, decEqs es fs with
    | isTrue h, isTrue hs => isTrue (by rw [h, hs])
    | isFalse h, _ => isFalse (by simp [h])
    | _, isFalse hs => isFalse (by simp [hs])

instance : DecidableEq LambdaTerm := decEq

@[induction_eliminator]
theorem induction {P : LambdaTerm → Prop} (Lambda : ∀ v e, P e → P (.Lambda v e))
    (Apply : ∀ es, (∀ e ∈ es, P e) → P (.Apply es)) (Var : ∀ x, P (.Var x)) : ∀ e, P e
  | .Lambda v e => Lambda v e (induction Lambda Apply Var e)
  | .Apply es => Apply es fun e _ => induction Lambda Apply Var e
  | .Var x => Var x

/-- `beta_reduction (var, t)` -/
def betaReduction (var t : LambdaTerm) : LambdaTerm → LambdaTerm
  | .Var x => if .Var x = var then t else .Var x
  | .Apply args => .Apply (args.map (betaReduction var t))
  | .Lambda v e => if v = var then .Lambda v e else .Lambda v (betaReduction var t e)

/-! ## Free variables -/

/-- `y` is a free variable of the term -/
def Libre (y : Nom) : LambdaTerm → Prop
  | .Var x => x = y
  | .Apply es => ∃ e, ∃ _ : e ∈ es, Libre y e
  | .Lambda v e => v ≠ .Var y ∧ Libre y e

variable {x y : Nom} {t v e : LambdaTerm} {es : List LambdaTerm}

@[simp] theorem libre_var : Libre y (.Var x) ↔ x = y := by rw [Libre]

@[simp] theorem libre_lambda : Libre y (.Lambda v e) ↔ v ≠ .Var y ∧ Libre y e := by rw [Libre]

@[simp] theorem libre_apply : Libre y (.Apply es) ↔ ∃ e ∈ es, Libre y e := by
  rw [Libre]
  simp only [exists_prop]

/-- no free occurrence of `x` is under a binder whose name is free in `t` -/
def SansCapture (x : Nom) (t : LambdaTerm) : LambdaTerm → Prop
  | .Var _ => True
  | .Apply es => ∀ e, ∀ _ : e ∈ es, SansCapture x t e
  | .Lambda v e => v = .Var x ∨ ((Libre x e → ∀ y, Libre y t → v ≠ .Var y) ∧ SansCapture x t e)

@[simp] theorem sansCapture_var : SansCapture x t (.Var y) := by rw [SansCapture]; trivial

theorem sansCapture_lambda : SansCapture x t (.Lambda v e) ↔
    v = .Var x ∨ ((Libre x e → ∀ y, Libre y t → v ≠ .Var y) ∧ SansCapture x t e) := by rw [SansCapture]

theorem sansCapture_apply : SansCapture x t (.Apply es) ↔ ∀ e ∈ es, SansCapture x t e := by rw [SansCapture]

/-! ## Up to the names of the bound variables -/

/-- the term without names; `Γ` holds the binders crossed, the nearest first -/
def ote (Γ : List LambdaTerm) : LambdaTerm → Terme Nom
  | .Var x => if .Var x ∈ Γ then .lie (Γ.idxOf (.Var x)) else .libre x
  | .Apply es => .app (es.map (ote Γ))
  | .Lambda v e => .abs (ote (v :: Γ) e)

def sansNoms (e : LambdaTerm) : Terme Nom := ote [] e

variable {Γ Δ : List LambdaTerm}

theorem libre_ote : (ote Γ e).Libre y ↔ Libre y e ∧ .Var y ∉ Γ := by
  induction e generalizing Γ with
  | Var x =>
    rw [ote, libre_var]
    split_ifs with h
    · rw [Terme.libre_lie, false_iff]
      rintro ⟨rfl, hy⟩
      exact hy h
    · rw [Terme.libre_libre]
      exact ⟨fun hx => ⟨hx, hx ▸ h⟩, fun h => h.1⟩
  | Apply es ih =>
    rw [ote, Terme.libre_app, libre_apply]
    simp only [List.mem_map, exists_exists_and_eq_and]
    apply Iff.intro
    · rintro ⟨e, he, h⟩
      exact ⟨⟨e, he, ((ih e he).1 h).1⟩, ((ih e he).1 h).2⟩
    · rintro ⟨⟨e, he, h⟩, hy⟩
      exact ⟨e, he, (ih e he).2 ⟨h, hy⟩⟩
  | Lambda v e ih =>
    rw [ote, Terme.libre_abs, ih, libre_lambda, List.mem_cons, not_or, ne_comm]
    tauto

theorem libre_sansNoms : (sansNoms e).Libre y ↔ Libre y e := by
  rw [sansNoms, libre_ote, and_iff_left List.not_mem_nil]

/-- more binders around a term change nothing exactly when they bind none of its free variables -/
theorem ote_append_eq_iff : ote (Δ ++ Γ) t = ote Δ t ↔ ∀ y, Libre y t → .Var y ∈ Δ ∨ .Var y ∉ Γ := by
  induction t generalizing Δ with
  | Var x =>
    rw [ote, ote]
    simp only [libre_var, forall_eq']
    by_cases hΔ : .Var x ∈ Δ
    · rw [if_pos (List.mem_append_left Γ hΔ), if_pos hΔ, List.idxOf_append_of_mem hΔ]
      exact iff_of_true rfl (.inl hΔ)
    · by_cases hΓ : .Var x ∈ Γ
      · rw [if_pos (List.mem_append_right Δ hΓ), if_neg hΔ]
        exact iff_of_false (by simp) fun h => h.elim hΔ fun h => h hΓ
      · have h : .Var x ∉ Δ ++ Γ := fun h => (List.mem_append.1 h).elim hΔ hΓ
        rw [if_neg h, if_neg hΔ]
        exact iff_of_true rfl (.inr hΓ)
  | Apply es ih =>
    rw [ote, ote, Terme.app.injEq, List.map_inj_left]
    simp only [libre_apply]
    apply Iff.intro
    · rintro h y ⟨e, he, hy⟩
      exact (ih e he).1 (h e he) y hy
    · intro h e he
      exact (ih e he).2 fun y hy => h y ⟨e, he, hy⟩
  | Lambda v e ih =>
    rw [ote, ote, Terme.abs.injEq, ← List.cons_append, ih]
    simp only [libre_lambda, List.mem_cons]
    apply Iff.intro
    · rintro h y ⟨hv, hy⟩
      exact (h y hy).imp (fun h => h.resolve_left hv.symm) id
    · intro h y hy
      by_cases hv : v = .Var y
      · exact .inl (.inl hv.symm)
      · exact (h y ⟨hv, hy⟩).imp .inr id

/-! ## The substitution of the code -/

/-- the code is the substitution under the binders of `Γ` exactly when neither these nor those of `e` capture -/
theorem ote_betaReduction_iff (hx : .Var x ∉ Γ) :
    ote Γ (betaReduction (.Var x) t e) = Terme.subst x (sansNoms t) (ote Γ e) ↔
      (Libre x e → ∀ y, Libre y t → .Var y ∉ Γ) ∧ SansCapture x t e := by
  induction e generalizing Γ with
  | Var z =>
    rw [betaReduction, libre_var, and_iff_left sansCapture_var]
    by_cases hz : z = x
    · subst hz
      have hcontexte : ote ([] ++ Γ) t = sansNoms t ↔ _ := ote_append_eq_iff
      rw [if_pos rfl, ote, if_neg hx, Terme.subst, if_pos rfl]
      rw [List.nil_append] at hcontexte
      simp [hcontexte]
    · rw [if_neg (by simpa using hz), ote]
      refine iff_of_true ?_ fun h => absurd h hz
      split_ifs
      · rw [Terme.subst]
      · rw [Terme.subst, if_neg hz]
  | Apply es ih =>
    rw [betaReduction, ote, ote, Terme.subst, Terme.app.injEq, List.map_map, List.map_map, List.map_inj_left,
      sansCapture_apply, libre_apply]
    apply Iff.intro
    · intro h
      refine ⟨?_, fun e he => ((ih e he hx).1 (h e he)).2⟩
      rintro ⟨e, he, hxe⟩
      exact ((ih e he hx).1 (h e he)).1 hxe
    · rintro ⟨hΓ, h⟩ e he
      exact (ih e he hx).2 ⟨fun hxe => hΓ ⟨e, he, hxe⟩, h e he⟩
  | Lambda v e ih =>
    rw [betaReduction, sansCapture_lambda, libre_lambda]
    by_cases hv : v = .Var x
    · -- the binder hides the variable
      have hlibre : ¬ (ote Γ (.Lambda v e)).Libre x := by
        rw [libre_ote, libre_lambda]
        exact fun h => h.1.1 hv
      rw [if_pos hv, Terme.subst_of_not_libre hlibre]
      exact iff_of_true rfl ⟨fun h => absurd hv h.1, .inl hv⟩
    · have hx' : .Var x ∉ v :: Γ := by
        rw [List.mem_cons, not_or]
        exact ⟨fun h => hv h.symm, hx⟩
      rw [if_neg hv, ote, ote, Terme.subst, Terme.abs.injEq, ih hx', or_iff_right hv, and_iff_right hv]
      simp only [List.mem_cons, not_or]
      apply Iff.intro
      · rintro ⟨h, hs⟩
        exact ⟨fun hxe y hy => (h hxe y hy).2, fun hxe y hy hvy => (h hxe y hy).1 hvy.symm, hs⟩
      · rintro ⟨hΓ, h, hs⟩
        exact ⟨fun hxe y hy => ⟨fun hvy => h hxe y hy hvy.symm, hΓ hxe y hy⟩, hs⟩

theorem sansNoms_betaReduction_iff :
    sansNoms (betaReduction (.Var x) t e) = Terme.subst x (sansNoms t) (sansNoms e) ↔ SansCapture x t e :=
  (ote_betaReduction_iff List.not_mem_nil).trans (and_iff_right fun _ _ _ => List.not_mem_nil)

section Renommage

/-! ## Renaming a bound variable -/

variable {z : Nom} {a b : LambdaTerm}

theorem ote_var_of_mem (h : .Var y ∈ Γ) : ote (Γ ++ Δ) (.Var y) = .lie (Γ.idxOf (.Var y)) := by
  rw [ote, if_pos (List.mem_append_left Δ h), List.idxOf_append_of_mem h]

theorem ote_var_self (h : .Var y ∉ Γ) : ote (Γ ++ .Var y :: Δ) (.Var y) = .lie Γ.length := by
  rw [ote, if_pos (by simp), List.idxOf_append_of_notMem h, List.idxOf_cons_self, Nat.add_zero]

theorem ote_var_of_ne (h : .Var y ∉ Γ) (ha : .Var y ≠ a) : ote (Γ ++ a :: Δ) (.Var y) =
    if .Var y ∈ Δ then .lie (Γ.length + (Δ.idxOf (.Var y) + 1)) else .libre y := by
  have hmem : .Var y ∈ Γ ++ a :: Δ ↔ .Var y ∈ Δ := by simp [h, ha]
  rw [ote, List.idxOf_append_of_notMem h, List.idxOf_cons_ne _ ha.symm]
  simp only [hmem]

/-- a binder can change when no free variable refers to it, before or after -/
theorem ote_echange (h : ∀ y, Libre y e → .Var y ∈ Γ ∨ (.Var y ≠ a ∧ .Var y ≠ b)) :
    ote (Γ ++ a :: Δ) e = ote (Γ ++ b :: Δ) e := by
  induction e generalizing Γ with
  | Var x =>
    by_cases hx : .Var x ∈ Γ
    · rw [ote_var_of_mem hx, ote_var_of_mem hx]
    · obtain ⟨ha, hb⟩ := (h x (by simp)).resolve_left hx
      rw [ote_var_of_ne hx ha, ote_var_of_ne hx hb]
  | Apply es ih =>
    rw [ote, ote, Terme.app.injEq, List.map_inj_left]
    intro e he
    exact ih e he fun y hy => h y (libre_apply.2 ⟨e, he, hy⟩)
  | Lambda v e ih =>
    rw [ote, ote, ← List.cons_append, ← List.cons_append, ih]
    intro y hy
    by_cases hv : v = .Var y
    · exact .inl (hv ▸ List.mem_cons_self)
    · exact (h y (libre_lambda.2 ⟨hv, hy⟩)).imp_left (List.mem_cons_of_mem v)

theorem ote_renomme (hx : .Var x ∉ Γ) (hΓ : Libre x e → .Var z ∉ Γ) (hz : Libre z e → .Var z ∈ Γ)
    (hs : SansCapture x (.Var z) e) :
    ote (Γ ++ .Var z :: Δ) (betaReduction (.Var x) (.Var z) e) = ote (Γ ++ .Var x :: Δ) e := by
  induction e generalizing Γ with
  | Var y =>
    rw [betaReduction]
    by_cases hy : y = x
    · subst hy
      rw [if_pos rfl, ote_var_self (hΓ (by simp)), ote_var_self hx]
    · rw [if_neg (by simpa using hy)]
      refine ote_echange fun w hw => ?_
      obtain rfl := libre_var.1 hw
      by_cases hyz : y = z
      · exact .inl (hyz ▸ hz (by simp [hyz]))
      · exact .inr ⟨by simpa using hyz, by simpa using hy⟩
  | Apply es ih =>
    rw [betaReduction, ote, ote, Terme.app.injEq, List.map_map, List.map_inj_left]
    intro e he
    exact ih e he hx (fun h => hΓ (libre_apply.2 ⟨e, he, h⟩)) (fun h => hz (libre_apply.2 ⟨e, he, h⟩))
      (sansCapture_apply.1 hs e he)
  | Lambda v e ih =>
    rw [betaReduction]
    by_cases hv : v = .Var x
    · -- the inner binder hides the outer one
      rw [if_pos hv]
      refine ote_echange fun y hy => ?_
      have hyx : y ≠ x := fun h => (libre_lambda.1 hy).1 (h ▸ hv)
      by_cases hyz : y = z
      · exact .inl (hyz ▸ hz (hyz ▸ hy))
      · exact .inr ⟨by simpa using hyz, by simpa using hyx⟩
    · obtain ⟨hcapture, hs⟩ := (sansCapture_lambda.1 hs).resolve_left hv
      rw [if_neg hv, ote, ote, ← List.cons_append, ← List.cons_append, ih]
      · simpa using ⟨fun h => hv h.symm, hx⟩
      · intro hxe
        have hvz : v ≠ .Var z := hcapture hxe z (by simp)
        simpa using ⟨fun h => hvz h.symm, hΓ (libre_lambda.2 ⟨hv, hxe⟩)⟩
      · intro hze
        by_cases hvz : v = .Var z
        · exact hvz ▸ List.mem_cons_self
        · exact List.mem_cons_of_mem v (hz (libre_lambda.2 ⟨hvz, hze⟩))
      · exact hs

/-- the terms without names do not see a renaming of a bound variable -/
theorem sansNoms_renomme (hz : ¬ Libre z e) (hs : SansCapture x (.Var z) e) :
    sansNoms (.Lambda (.Var z) (betaReduction (.Var x) (.Var z) e)) = sansNoms (.Lambda (.Var x) e) := by
  rw [sansNoms, sansNoms, ote, ote, Terme.abs.injEq]
  have h : ote ([] ++ [.Var z]) (betaReduction (.Var x) (.Var z) e) = ote ([] ++ [.Var x]) e :=
    ote_renomme List.not_mem_nil (fun _ => List.not_mem_nil) (fun h => absurd h hz) hs
  exact h

end Renommage

/-- `r` is `e` with `t` for `x`: up to the bound names, the substitution of the terms without names, and in particular
its free variables -/
structure Substitue (x : Nom) (t e r : LambdaTerm) : Prop where
  sansNoms : sansNoms r = Terme.subst x (LambdaTerm.sansNoms t) (LambdaTerm.sansNoms e)
  libres : ∀ y, Libre y r ↔ (Libre y e ∧ y ≠ x) ∨ (Libre x e ∧ Libre y t)

/-- **When the substitution does not capture**: the result is the capture-avoiding substitution exactly when no free
occurrence of `x` in `e` is under a binder that is free in `t`. -/
theorem betaReduction_iff (x : Nom) (t e : LambdaTerm) :
    Substitue x t e (betaReduction (.Var x) t e) ↔ SansCapture x t e := by
  apply Iff.intro
  · intro h
    exact sansNoms_betaReduction_iff.1 h.sansNoms
  · intro h
    have hs := sansNoms_betaReduction_iff.2 h
    refine ⟨hs, ?_⟩
    intro y
    rw [← libre_sansNoms, hs, Terme.libre_subst, libre_sansNoms, libre_sansNoms, libre_sansNoms]

/-- the variables of the module -/
def z : LambdaTerm := .Var ("x", 0)
def s : LambdaTerm := .Var ("x", 1)

/-- **A caught variable**: `unit` applied to z. -/
theorem z_capture : betaReduction s z (.Lambda z (.Apply [s, z])) = .Lambda z (.Apply [z, z]) ∧
    ¬ Substitue ("x", 1) z (.Lambda z (.Apply [s, z])) (betaReduction s z (.Lambda z (.Apply [s, z]))) := by
  refine ⟨by simp [betaReduction, s, z], ?_⟩
  intro h
  rcases sansCapture_lambda.1 (sansNoms_betaReduction_iff.1 h.sansNoms) with h | h
  · cases h
  · exact h.1 (by simp [s]) ("x", 0) (by simp [z]) rfl

end LambdaTerm

end Semestre6.LambdaCalcul
