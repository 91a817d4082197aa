/-
Lambda_Calcul.ml: `zero`, `unit`, `incr` and `sum`, the numbers as iterators, and what `reduce` makes of the expressions
that are written with them.

- `betaReduction_ferme`: a closed term is left as it is;
- `Represente`: a term that iterates, on any argument, before the argument is reduced or after;
- `donne_arithmetique`: `reduce` ends on every expression, with the Peano number of its value.
-/
import Semestre6.MCal.Reduce

namespace Semestre6.LambdaCalcul.LambdaTerm

/-! ## The terms of the source -/

def n : LambdaTerm := .Var ("x", 7)
def m : LambdaTerm := .Var ("x", 8)

def zero : LambdaTerm := .Lambda s (.Lambda z z)
def unit : LambdaTerm := .Lambda s (.Lambda z (.Apply [s, z]))
def incr : LambdaTerm := .Lambda n (.Lambda s (.Lambda z (.Apply [s, .Apply [n, s, z]])))
def sum : LambdaTerm :=
  .Lambda n (.Lambda m (.Lambda s (.Lambda z (.Apply [n, s, .Apply [m, s, z]]))))

def fZ : LambdaTerm := .Var ("Zero", -1)
def fS : LambdaTerm := .Var ("Succ", -1)

/-- what is written with them -/
inductive Expression where
  | zero
  | unit
  | incr (e : Expression)
  | sum (e e' : Expression)
deriving DecidableEq, Repr

namespace Expression

def terme : Expression → LambdaTerm
  | zero => LambdaTerm.zero
  | unit => LambdaTerm.unit
  | incr e => .Apply [LambdaTerm.incr, e.terme]
  | sum e e' => .Apply [LambdaTerm.sum, e.terme, e'.terme]

def valeur : Expression → ℕ
  | zero => 0
  | unit => 1
  | incr e => e.valeur + 1
  | sum e e' => e.valeur + e'.valeur

end Expression

/-- `fS (fS (... t))` -/
def entier : ℕ → LambdaTerm → LambdaTerm
  | 0, t => t
  | k + 1, t => .Apply [fS, entier k t]

variable {t r a b T U : LambdaTerm} {k l : ℕ}

/-! ## Closed terms -/

def Ferme (t : LambdaTerm) : Prop := ∀ y, ¬ Libre y t

theorem betaReduction_of_not_libre {x : Nom} (h : ¬ Libre x t) : betaReduction (.Var x) a t = t := by
  induction t with
  | Var y =>
    rw [libre_var] at h
    rw [betaReduction, if_neg (by simpa using h)]
  | Apply es ih =>
    rw [libre_apply] at h
    push Not at h
    rw [betaReduction, List.map_congr_left fun e he => ih e he (h e he), List.map_id']
  | Lambda v e ih =>
    rw [libre_lambda, not_and_or, not_not] at h
    rw [betaReduction]
    split_ifs with hv
    · rfl
    · rw [ih (h.resolve_left hv)]

theorem betaReduction_ferme (x : Nom) (h : Ferme t) : betaReduction (.Var x) a t = t :=
  betaReduction_of_not_libre (h x)

theorem ferme_terme (e : Expression) : Ferme e.terme := by
  intro y
  induction e with
  | zero => simp [Expression.terme, zero, s, z]
  | unit => simp +contextual [Expression.terme, unit, s, z]
  | incr e ih => simp +contextual [Expression.terme, incr, s, z, n, ih]
  | sum e e' ih ih' => simp +contextual [Expression.terme, sum, s, z, n, m, ih, ih']

/-! ## Numbers as iterators -/

/-- the terms at the top of which the calls of `reduction` stop -/
structure Arretee (r : LambdaTerm) : Prop where
  coeur : Coeur r
  normal : Normal r

theorem Arretee.donne (h : Arretee r) : Donne r r := h.normal.donne

theorem Arretee.passe (h : Arretee r) : Passe r r := (h.donne.passes h.coeur).2

theorem normal_fS : Normal fS := normal_var

theorem arretee_succ (h : Normal t) : Arretee (.Apply [fS, t]) where
  coeur := coeur_apply (by simp)
  normal := by
    rw [normal_apply]
    refine ⟨trivial, ?_⟩
    simp [normal_fS, h]

theorem arretee_entier (h : Arretee r) (k : ℕ) : Arretee (entier k r) := by
  induction k with
  | zero => exact h
  | succ k ih => exact arretee_succ ih.normal

theorem entier_add (k l : ℕ) (t : LambdaTerm) : entier (k + l) t = entier k (entier l t) := by
  induction k with
  | zero => rw [Nat.zero_add]; rfl
  | succ k ih => rw [Nat.succ_add, entier, ih]; rfl

/-- on an argument that `reduce` brings to an end, `T` iterates `fS` `k` times -/
def Represente (T : LambdaTerm) (k : ℕ) : Prop :=
  ∀ b r, Coeur b → Arretee r → Donne b r → Donne (.Apply [T, fS, b]) (entier k r)

theorem represente_zero : Represente zero 0 := by
  intro b r hb hr hd
  have h₁ : Passe (.Apply [zero, fS, b]) (.Apply [.Lambda z z, b]) := by
    rw [zero, passe_redex]
    simp [betaReduction, s, z]
  have h₂ : Passe (.Apply [.Lambda z z, b]) (.Apply [b]) := by
    rw [passe_redex]
    simp [betaReduction, z]
  rw [donne_coeur_iff (coeur_apply (by simp))]
  exact ⟨.head h₁ (.head h₂ (.head (passe_seul.2 rfl) (hd.passes hb).1)), hr.passe⟩

theorem passe_succ (h : Donne b r) : Passe (.Apply [fS, b]) (.Apply [fS, r]) := by
  have hb : Bloquee [fS, b] := trivial
  exact (passe_bloquee hb).2 ⟨[fS, r], .cons normal_fS.donne (.cons h .nil), rfl⟩

theorem represente_unit : Represente unit 1 := by
  intro b r hb hr hd
  have h₁ : Passe (.Apply [unit, fS, b]) (.Apply [.Lambda z (.Apply [fS, z]), b]) := by
    rw [unit, passe_redex]
    simp [betaReduction, s, z]
  have h₂ : Passe (.Apply [.Lambda z (.Apply [fS, z]), b]) (.Apply [.Apply [fS, b]]) := by
    rw [passe_redex]
    simp [betaReduction, z, fS]
  rw [donne_coeur_iff (coeur_apply (by simp))]
  exact ⟨.head h₁ (.head h₂ (.head (passe_seul.2 rfl) (.single (passe_succ hd)))), (arretee_entier hr 1).passe⟩

/-- the head of an application is reduced with its arguments, and the abstraction that it gives is left as it is -/
theorem passe_tete {es : List LambdaTerm} {v e : LambdaTerm} (h : Donne (.Apply es) (.Lambda v e)) (hb : Donne b r) :
    Passe (.Apply [.Apply es, fS, b]) (.Apply [.Lambda v e, fS, r]) := by
  have hbloquee : Bloquee [.Apply es, fS, b] := trivial
  exact (passe_bloquee hbloquee).2 ⟨_, .cons h (.cons normal_fS.donne (.cons hb .nil)), rfl⟩

theorem represente_incr (hT : Ferme T) (h : Represente T k) : Represente (.Apply [incr, T]) (k + 1) := by
  intro b r _ hr hd
  have hincr : Donne (.Apply [incr, T]) (.Lambda s (.Lambda z (.Apply [s, .Apply [T, s, z]]))) := by
    have h₁ : Passe (.Apply [incr, T]) (.Apply [.Lambda s (.Lambda z (.Apply [s, .Apply [T, s, z]]))]) := by
      rw [incr, passe_redex]
      simp [betaReduction, n, s, z]
    rw [donne_coeur_iff (coeur_apply (by simp))]
    exact ⟨.head h₁ (.single (passe_seul.2 rfl)), passe_lambda.2 rfl⟩
  have h₂ : Passe (.Apply [.Lambda s (.Lambda z (.Apply [s, .Apply [T, s, z]])), fS, r])
      (.Apply [.Lambda z (.Apply [fS, .Apply [T, fS, z]]), r]) := by
    rw [passe_redex]
    simp [betaReduction, s, z, betaReduction_ferme _ hT]
  have h₃ : Passe (.Apply [.Lambda z (.Apply [fS, .Apply [T, fS, z]]), r])
      (.Apply [.Apply [fS, .Apply [T, fS, r]]]) := by
    rw [passe_redex]
    simp [betaReduction, z, fS, betaReduction_ferme _ hT]
  have h₄ : Passe (.Apply [fS, .Apply [T, fS, r]]) (entier (k + 1) r) := passe_succ (h r r hr.coeur hr hr.donne)
  rw [donne_coeur_iff (coeur_apply (by simp))]
  exact ⟨.head (passe_tete hincr hd) (.head h₂ (.head h₃ (.head (passe_seul.2 rfl) (.single h₄)))),
    (arretee_entier hr _).passe⟩

theorem represente_sum (hT : Ferme T) (hU : Ferme U) (h : Represente T k) (h' : Represente U l) :
    Represente (.Apply [sum, T, U]) (k + l) := by
  intro b r _ hr hd
  have hsum : Donne (.Apply [sum, T, U]) (.Lambda s (.Lambda z (.Apply [T, s, .Apply [U, s, z]]))) := by
    have h₁ : Passe (.Apply [sum, T, U])
        (.Apply [.Lambda m (.Lambda s (.Lambda z (.Apply [T, s, .Apply [m, s, z]]))), U]) := by
      rw [sum, passe_redex]
      simp [betaReduction, n, m, s, z]
    have h₂ : Passe (.Apply [.Lambda m (.Lambda s (.Lambda z (.Apply [T, s, .Apply [m, s, z]]))), U])
        (.Apply [.Lambda s (.Lambda z (.Apply [T, s, .Apply [U, s, z]]))]) := by
      rw [passe_redex]
      simp [betaReduction, m, s, z, betaReduction_ferme _ hT]
    rw [donne_coeur_iff (coeur_apply (by simp))]
    exact ⟨.head h₁ (.head h₂ (.single (passe_seul.2 rfl))), passe_lambda.2 rfl⟩
  have h₃ : Passe (.Apply [.Lambda s (.Lambda z (.Apply [T, s, .Apply [U, s, z]])), fS, r])
      (.Apply [.Lambda z (.Apply [T, fS, .Apply [U, fS, z]]), r]) := by
    rw [passe_redex]
    simp [betaReduction, s, z, betaReduction_ferme _ hT, betaReduction_ferme _ hU]
  have h₄ : Passe (.Apply [.Lambda z (.Apply [T, fS, .Apply [U, fS, z]]), r])
      (.Apply [.Apply [T, fS, .Apply [U, fS, r]]]) := by
    rw [passe_redex]
    simp [betaReduction, z, fS, betaReduction_ferme _ hT, betaReduction_ferme _ hU]
  -- the second number is the argument of the first
  have hcoeur : ∀ V c, Coeur (.Apply [V, fS, c]) := fun V c => coeur_apply (by simp)
  have hfin : Donne (.Apply [T, fS, .Apply [U, fS, r]]) (entier (k + l) r) := by
    rw [entier_add]
    exact h _ _ (hcoeur U r) (arretee_entier hr l) (h' r r hr.coeur hr hr.donne)
  rw [donne_coeur_iff (hcoeur _ b)]
  exact ⟨.head (passe_tete hsum hd) (.head h₃ (.head h₄ (.head (passe_seul.2 rfl) (hfin.passes (hcoeur T _)).1))),
    (arretee_entier hr _).passe⟩

theorem represente_terme (e : Expression) : Represente e.terme e.valeur := by
  induction e with
  | zero => exact represente_zero
  | unit => exact represente_unit
  | incr e ih => exact represente_incr (ferme_terme e) ih
  | sum e e' ih ih' => exact represente_sum (ferme_terme e) (ferme_terme e') ih ih'

/-- **The arithmetic is right**: on any expression `reduce` ends, and its result is the number of the value. -/
theorem donne_arithmetique (e : Expression) (r : LambdaTerm) :
    Donne (.Apply [e.terme, fS, fZ]) r ↔ r = entier e.valeur fZ := by
  have harret : Arretee fZ := ⟨coeur_var _, normal_var⟩
  have hd : Donne (.Apply [e.terme, fS, fZ]) (entier e.valeur fZ) :=
    represente_terme e fZ fZ harret.coeur harret harret.donne
  apply Iff.intro
  · intro h
    exact h.unique hd
  · rintro rfl
    exact hd

end Semestre6.LambdaCalcul.LambdaTerm
