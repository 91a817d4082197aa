/-
Terms with binders, up to the names of the bound variables: a bound variable is the number of the binders to cross, a
free one keeps its name. Applications take any number of terms.

- `subst`: a term in place of a free name; no name of it can become bound, since binders have no names;
- `libre_subst`: the free names of the result.
-/
import Mathlib.Tactic

namespace Semestre6.SansNoms

inductive Terme (ν : Type*) where
  | lie (k : ℕ)
  | libre (x : ν)
  | abs (e : Terme ν)
  | app (es : List (Terme ν))

namespace Terme

variable {ν : Type*}

@[induction_eliminator]
theorem induction {P : Terme ν → Prop} (lie : ∀ k, P (.lie k)) (libre : ∀ x, P (.libre x))
    (abs : ∀ e, P e → P (.abs e)) (app : ∀ es, (∀ e ∈ es, P e) → P (.app es)) : ∀ u, P u
  | .lie k => lie k
  | .libre x => libre x
  | .abs e => abs e (induction lie libre abs app e)
  | .app es => app es fun e _ => induction lie libre abs app e

/-- `y` is a free name of the term -/
def Libre (y : ν) : Terme ν → Prop
  | .lie _ => False
  | .libre x => x = y
  | .abs e => Libre y e
  | .app es => ∃ e, ∃ _ : e ∈ es, Libre y e

variable {x y : ν} {s u e : Terme ν} {es : List (Terme ν)} {k : ℕ}

@[simp] theorem libre_lie : Libre y (.lie k : Terme ν) ↔ False := by rw [Libre]

@[simp] theorem libre_libre : Libre y (.libre x) ↔ x = y := by rw [Libre]

@[simp] theorem libre_abs : Libre y (.abs e) ↔ Libre y e := by rw [Libre]

@[simp] theorem libre_app : Libre y (.app es) ↔ ∃ e ∈ es, Libre y e := by
  rw [Libre]
  simp only [exists_prop]

variable [DecidableEq ν]

def subst (x : ν) (s : Terme ν) : Terme ν → Terme ν
  | .lie k => .lie k
  | .libre y => if y = x then s else .libre y
  | .abs e => .abs (subst x s e)
  | .app es => .app (es.map (subst x s))

theorem subst_of_not_libre (h : ¬ Libre x u) : subst x s u = u := by
  induction u with
  | lie k => rw [subst]
  | libre y => rw [subst, if_neg (libre_libre.not.1 h)]
  | abs e ih => rw [subst, ih (libre_abs.not.1 h)]
  | app es ih =>
    have hes : ∀ e ∈ es, subst x s e = id e := fun e he => ih e he fun hx => h (libre_app.2 ⟨e, he, hx⟩)
    rw [subst, List.map_congr_left hes, List.map_id]

/-- the free names of a substitution -/
theorem libre_subst : Libre y (subst x s u) ↔ (Libre y u ∧ y ≠ x) ∨ (Libre x u ∧ Libre y s) := by
  induction u with
  | lie k => simp [subst]
  | libre z =>
    rw [subst]
    by_cases hz : z = x
    · subst hz
      simp only [if_true, libre_libre, true_and]
      exact ⟨.inr, fun h => h.elim (fun h => absurd h.1.symm h.2) id⟩
    · simp only [hz, if_false, libre_libre, false_and, or_false]
      exact ⟨fun h => ⟨h, fun hy => hz (h.trans hy)⟩, fun h => h.1⟩
  | abs e ih => rw [subst, libre_abs, libre_abs, libre_abs, ih]
  | app es ih =>
    rw [subst]
    simp only [libre_app, List.mem_map, exists_exists_and_eq_and]
    apply Iff.intro
    · rintro ⟨e, he, h⟩
      exact ((ih e he).1 h).imp (fun h => ⟨⟨e, he, h.1⟩, h.2⟩) fun h => ⟨⟨e, he, h.1⟩, h.2⟩
    · rintro (⟨⟨e, he, h⟩, hy⟩ | ⟨⟨e, he, h⟩, hy⟩)
      · exact ⟨e, he, (ih e he).2 (.inl ⟨h, hy⟩)⟩
      · exact ⟨e, he, (ih e he).2 (.inr ⟨h, hy⟩)⟩

end Terme

end Semestre6.SansNoms
