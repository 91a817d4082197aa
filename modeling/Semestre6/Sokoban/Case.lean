/-
The cells of the Sokoban board (Case.java). A cell is an enum constant with an int `contenu`, one bit a layer:
obstacle 2, bag (sac) 4, pusher (pousseur) 8, goal (but) 16. `ajout` and `retrait` compute on the bits and go back to
a constant through a switch that throws on a value that is not listed.

- `contient_pousseur_iff`, `contient_sac_iff`, `estLibre_iff`: the layers of each constant;
- `retrait_pousseur`, `retrait_sac`, `ajout_pousseur`: removing or adding a layer keeps the goal layer.
-/
import Mathlib.Tactic

namespace Semestre6.Sokoban

/-- the exceptions the board and the engine can throw -/
inductive JException where
  | runtime (message : String)
  | arrayIndexOutOfBounds
  | stringIndexOutOfBounds
  | negativeArraySize
  | inputMismatch
  | noSuchElement
deriving DecidableEq, Repr

inductive Case where
  | libre | obstacle | sac | pousseur | but | sacSurBut | pousseurSurBut | invalide
deriving DecidableEq, Repr

namespace Case

def contenu : Case → BitVec 32
  | libre => 0
  | obstacle => 2
  | sac => 4
  | pousseur => 8
  | but => 16
  | sacSurBut => 20
  | pousseurSurBut => 24
  | invalide => 32

/-- the name that Java's `toString` gives an enum constant -/
def nom : Case → String
  | libre => "LIBRE"
  | obstacle => "OBSTACLE"
  | sac => "SAC"
  | pousseur => "POUSSEUR"
  | but => "BUT"
  | sacSurBut => "SAC_SUR_BUT"
  | pousseurSurBut => "POUSSEUR_SUR_BUT"
  | invalide => "INVALIDE"

def contient (k c : Case) : Bool := (k.contenu &&& c.contenu) == c.contenu

def estLibre (k : Case) : Bool := k.contenu == 0 || k.contenu == 16

def ajout (k c : Case) : Except JException Case :=
  let v := k.contenu ||| c.contenu
  if v = 4 then .ok sac
  else if v = 8 then .ok pousseur
  else if v = 20 then .ok sacSurBut
  else if v = 24 then .ok pousseurSurBut
  else .error (.runtime ("Ajout de " ++ c.nom ++ " sur " ++ k.nom ++ " impossible"))

def retrait (k c : Case) : Except JException Case :=
  let v := k.contenu &&& ~~~c.contenu
  if v = 0 then .ok libre
  else if v = 16 then .ok but
  else .error (.runtime ("Retrait de " ++ c.nom ++ " de " ++ k.nom ++ " impossible"))

/-! ## The layers of each constant -/

theorem contient_pousseur_iff (k : Case) : k.contient pousseur = true ↔ k = pousseur ∨ k = pousseurSurBut := by
  cases k <;> decide

theorem contient_sac_iff (k : Case) : k.contient sac = true ↔ k = sac ∨ k = sacSurBut := by
  cases k <;> decide

theorem estLibre_iff (k : Case) : k.estLibre = true ↔ k = libre ∨ k = but := by
  cases k <;> decide

/-- a bag cell has neither a pusher nor an obstacle -/
theorem sac_exclut {k : Case} (h : k.contient sac = true) :
    k.contient pousseur = false ∧ k.contient obstacle = false ∧ k.estLibre = false := by
  cases k <;> revert h <;> decide

theorem pousseur_exclut {k : Case} (h : k.contient pousseur = true) :
    k.contient sac = false ∧ k.contient obstacle = false ∧ k.estLibre = false := by
  cases k <;> revert h <;> decide

theorem libre_exclut {k : Case} (h : k.estLibre = true) :
    k.contient sac = false ∧ k.contient pousseur = false ∧ k.contient obstacle = false := by
  cases k <;> revert h <;> decide

/-! ## Moving a layer -/

/-- the cell left by a pusher or a bag: the goal stays -/
def sol (k : Case) : Case := if k.contient but then but else libre

theorem sol_spec (k : Case) : k.sol.contient but = k.contient but ∧ k.sol.estLibre = true := by
  cases k <;> decide

theorem retrait_pousseur {k : Case} (h : k.contient pousseur = true) : k.retrait pousseur = .ok k.sol := by
  rcases (contient_pousseur_iff k).1 h with rfl | rfl <;> rfl

theorem retrait_sac {k : Case} (h : k.contient sac = true) : k.retrait sac = .ok k.sol := by
  rcases (contient_sac_iff k).1 h with rfl | rfl <;> rfl

theorem ajout_pousseur {k : Case} (h : k.estLibre = true) :
    ∃ k', k.ajout pousseur = .ok k' ∧ k'.contient pousseur = true ∧ k'.contient but = k.contient but := by
  rcases (estLibre_iff k).1 h with rfl | rfl
  · exact ⟨pousseur, rfl, rfl, rfl⟩
  · exact ⟨pousseurSurBut, rfl, rfl, rfl⟩

end Case

end Semestre6.Sokoban
