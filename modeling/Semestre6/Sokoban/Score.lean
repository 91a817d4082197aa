/-
The score of a game, `nb_mouvement`: `action` adds the value of `deplacement` for a walk and 1 for a push. The walk is
found by `existe_chemin`, which goes around the walls and the bags; `deplacement` is the Manhattan distance.

- `marcher_eq`, `pousser_score`: what a walk and a push add, in any state of the engine;
- `scoreJuste_iff`: one call adds the length of a shortest path of free cells exactly when some path gets nearer to the
  target at every step;
- `score_iff`: the same along every sequence of calls, on every level;
- `deplacement_le`: the score never adds more than the length of a path.

Witness that the condition is needed: `detour_compte_deux`, a walk of four steps around a wall.
-/
import Semestre6.Lib.Boucle
import Semestre6.Lib.Trajets
import Semestre6.Lib.Transition
import Semestre6.Sokoban.Poussees

namespace Semestre6.Sokoban.Moteur

open Boucle Relation Trajets Transition

/-- the engine after a call, if it returns -/
def appel (m : Moteur) (p : ℤ × ℤ) : Option Moteur :=
  match m.action p.1 p.2 with
  | .ok r => some r.1
  | .error _ => none

def pousseur (m : Moteur) : ℤ × ℤ := (m.lignePousseur, m.colonnePousseur)

/-- the least number of steps that the call on `p` needs: a shortest path of free cells to a free cell, or a push -/
def Cout (m : Moteur) (p : ℤ × ℤ) (n : ℕ) : Prop :=
  if m.estPossible p.1 p.2 then IsLeast {n | Trajet m.Adjacent n m.pousseur p} n else n = 1

/-- an accepted call adds its cost to the score -/
def ScoreJuste (m : Moteur) (p : ℤ × ℤ) : Prop :=
  ∀ m', m.action p.1 p.2 = .ok (m', true) → ∃ n : ℕ, m.Cout p n ∧ m'.nbMouvement = m.nbMouvement + n

/-- `deplacement` to the target -/
def ecart (c v : ℤ × ℤ) : ℤ := deplacement v.1 v.2 c.1 c.2

/-- the pusher can be taken off its cell: it holds neither bag nor obstacle, as in every level with a pusher -/
def Quittable (m : Moteur) : Prop :=
  ∃ kp k, m.t.terrain m.lignePousseur m.colonnePousseur = some kp ∧ kp.retrait .pousseur = .ok k

/-- a free cell that a path of free cells joins to the pusher is joined by one that gets nearer at every step -/
def SansDetour (m : Moteur) (p : ℤ × ℤ) : Prop :=
  m.Quittable → m.estPossible p.1 p.2 = true → ReflTransGen m.Adjacent m.pousseur p →
    ReflTransGen (Descente m.Adjacent (ecart p)) m.pousseur p

variable {m m' : Moteur} {i j di dj : ℤ} {p c v w : ℤ × ℤ} {n : ℕ}

/-! ## What a call adds -/

theorem ecart_le (c v w : ℤ × ℤ) (h : m.Adjacent v w) : ecart c v ≤ ecart c w + 1 := by
  have hvois : w ∈ voisins v := (List.mem_filter.1 h).1
  simp only [voisins, List.mem_cons, List.not_mem_nil, or_false] at hvois
  rcases hvois with rfl | rfl | rfl | rfl <;> simp only [ecart, deplacement, valAbsolue] <;> split_ifs <;> omega

theorem ecart_self (c : ℤ × ℤ) : ecart c c = 0 := by simp [ecart, deplacement, valAbsolue]

/-- a walk does not throw when the pusher can be taken off its cell -/
theorem marcher_ok (hl : m.estPossible i j = true) (hq : m.Quittable) : ∃ m', m.marcher i j = .ok m' := by
  obtain ⟨kp, k, hkp, hk⟩ := hq
  have hdp : m.t.Dans m.lignePousseur m.colonnePousseur := Terrain.dans_iff.2 ⟨kp, hkp⟩
  obtain ⟨kl, hkl, hll⟩ := estPossible_iff.1 hl
  have hdl : m.t.Dans i j := Terrain.dans_iff.2 ⟨kl, hkl⟩
  have hlibre : k.estLibre = true := by
    rw [Case.retrait] at hk
    split_ifs at hk <;> (cases hk; rfl)
  -- the target is free on the board that the pusher has left
  obtain ⟨k', hk', hl'⟩ : ∃ k', (m.t.pose k m.lignePousseur m.colonnePousseur).terrain i j = some k' ∧
      k'.estLibre = true := by
    rw [Terrain.pose_terrain hdp]
    split_ifs
    · exact ⟨k, rfl, hlibre⟩
    · exact ⟨kl, hkl, hll⟩
  obtain ⟨kf, hkf, -⟩ := Case.ajout_pousseur hl'
  have hdl' : (m.t.pose k m.lignePousseur m.colonnePousseur).Dans i j := hdl
  simp [marcher, Terrain.consulter_ok hkp, hk, Terrain.assigner_ok hdp, Terrain.consulter_ok hk', hkf,
    Terrain.assigner_ok hdl', bind, Except.bind]

theorem terrain_of_consulter {t : Terrain} {k : Case} (h : t.consulter i j = .ok k) : t.terrain i j = some k := by
  unfold Terrain.consulter at h
  cases hk : t.terrain i j with
  | none => simp [hk] at h
  | some k' => simpa [hk] using h

/-- **A walk** adds `deplacement`. -/
theorem marcher_eq (h : m.marcher i j = .ok m') :
    m.Quittable ∧ m'.nbMouvement = m.nbMouvement + deplacement m.lignePousseur m.colonnePousseur i j := by
  unfold marcher at h
  obtain ⟨kp, hkp, h⟩ := ok_of_bind h
  obtain ⟨k, hk, h⟩ := ok_of_bind h
  obtain ⟨t, -, h⟩ := ok_of_bind h
  obtain ⟨kl, -, h⟩ := ok_of_bind h
  obtain ⟨kf, -, h⟩ := ok_of_bind h
  obtain ⟨t', -, h⟩ := ok_of_bind h
  cases h
  exact ⟨⟨kp, k, terrain_of_consulter hkp, hk⟩, rfl⟩

/-- **A push** adds 1. -/
theorem pousser_score (h : m.pousser i j di dj = .ok m') : m'.nbMouvement = m.nbMouvement + 1 := by
  unfold pousser at h
  obtain ⟨kp, -, h⟩ := ok_of_bind h
  obtain ⟨ks, -, h⟩ := ok_of_bind h
  obtain ⟨arrivee, -, h⟩ := ok_of_bind h
  obtain ⟨⟨k, t⟩, -, h⟩ := ok_of_bind h
  obtain ⟨t₁, -, h⟩ := ok_of_bind h
  obtain ⟨t₂, -, h⟩ := ok_of_bind h
  obtain ⟨c, -, h⟩ := ok_of_bind h
  obtain ⟨t₃, -, h⟩ := ok_of_bind h
  cases h
  rfl

/-- an accepted call on a free cell is a walk -/
theorem action_libre (hl : m.estPossible i j = true) : m.action i j = .ok (m', true) ↔
    m.existeChemin m.lignePousseur m.colonnePousseur i j = .ok true ∧ m.marcher i j = .ok m' := by
  obtain ⟨k, hk, hkl⟩ := estPossible_iff.1 hl
  have haction : m.action i j = (m.existeChemin m.lignePousseur m.colonnePousseur i j).bind fun b =>
      if b then (m.marcher i j).map fun m' => (m', true) else .ok (m, false) := by
    simp [action, Terrain.consulter_ok hk, hkl, bind, Except.bind]
  rw [haction]
  apply Iff.intro
  · intro h
    obtain ⟨b, hb, h⟩ := ok_of_bind h
    cases b with
    | false => cases h
    | true =>
      obtain ⟨m₁, hm, heq⟩ := ok_of_map h
      obtain rfl : m₁ = m' := congrArg Prod.fst heq
      exact ⟨hb, hm⟩
  · intro h
    rw [h.1, h.2]
    rfl

/-- any other accepted call is a push -/
theorem action_occupee (hl : m.estPossible i j = false) (h : m.action i j = .ok (m', true)) :
    ∃ di dj, m.pousser i j di dj = .ok m' := by
  unfold action at h
  obtain ⟨k, hk, h⟩ := ok_of_bind h
  have hkl : k.estLibre = false := by
    rw [estPossible, terrain_of_consulter hk] at hl
    exact hl
  rw [if_neg (by simp [hkl])] at h
  split_ifs at h
  · cases hd : m.sacAdjacent i j with
    | none => simp [hd] at h
    | some d =>
      simp only [hd] at h
      split_ifs at h
      · obtain ⟨m₁, hm, heq⟩ := ok_of_map h
        obtain rfl : m₁ = m' := congrArg Prod.fst heq
        exact ⟨_, _, hm⟩
      · cases h
  · cases h

/-! ## The score -/

/-- the score never adds more than the length of a path -/
theorem deplacement_le (h : Trajet m.Adjacent n m.pousseur p) :
    deplacement m.lignePousseur m.colonnePousseur p.1 p.2 ≤ n := by
  have hle := h.borne (ecart_le p)
  rwa [ecart_self, add_zero] at hle

theorem existeChemin_joint (h : m.Quittable) (p : ℤ × ℤ) :
    m.existeChemin m.lignePousseur m.colonnePousseur p.1 p.2 = .ok true ↔ ReflTransGen m.Adjacent m.pousseur p := by
  obtain ⟨kp, -, hkp, -⟩ := h
  exact m.existeChemin_iff (p := m.pousseur) (Terrain.dans_iff.2 ⟨kp, hkp⟩)

/-- **One call** adds its cost exactly when the walk, if it is one, has no detour. -/
theorem scoreJuste_iff (m : Moteur) (p : ℤ × ℤ) : m.ScoreJuste p ↔ m.SansDetour p := by
  cases hl : m.estPossible p.1 p.2 with
  | false =>
    apply Iff.intro
    · intro _ _ hlibre
      rw [hl] at hlibre
      cases hlibre
    · intro _ m' h
      obtain ⟨di, dj, h⟩ := action_occupee hl h
      exact ⟨1, by rw [Cout, hl]; rfl, pousser_score h⟩
  | true =>
    have hcout : ∀ n, m.Cout p n ↔ IsLeast {n | Trajet m.Adjacent n m.pousseur p} n := by
      intro n
      rw [Cout, if_pos hl]
    have hleast := exists_isLeast_iff (r := m.Adjacent) (d := ecart p) (a := m.pousseur) (b := p) (ecart_le p)
    rw [ecart_self] at hleast
    apply Iff.intro
    · intro h hq _ hjoint
      obtain ⟨m', hm'⟩ := marcher_ok hl hq
      obtain ⟨n, hn, hscore⟩ := h m' ((action_libre hl).2 ⟨(existeChemin_joint hq p).2 hjoint, hm'⟩)
      rw [(marcher_eq hm').2] at hscore
      exact hleast.1 ⟨n, (hcout n).1 hn, by simpa [ecart, pousseur] using hscore⟩
    · intro h m' hm'
      obtain ⟨hchemin, hm'⟩ := (action_libre hl).1 hm'
      obtain ⟨hq, hscore⟩ := marcher_eq hm'
      obtain ⟨n, hn, heq⟩ := hleast.2 (h hq hl ((existeChemin_joint hq p).1 hchemin))
      refine ⟨n, (hcout n).2 hn, ?_⟩
      rw [hscore]
      simpa [ecart, pousseur] using heq

/-- **The score** of a game: each accepted call adds its cost exactly when no walk of the game has a detour. -/
theorem score_iff (t : Terrain) (coups : List (ℤ × ℤ)) :
    AlwaysM appel ScoreJuste (nouveau t) coups ↔ AlwaysM appel SansDetour (nouveau t) coups :=
  alwaysM_congr (fun _ _ _ (_ : True) _ _ => trivial) (fun m p _ => scoreJuste_iff m p) coups trivial

/-- a wall between the pusher and a free cell, and a way around it -/
def muret : Terrain := { Terrain.deLignes 3 2 [[.pousseur, .obstacle, .but], [.libre, .libre, .libre]] with nbBut := 1 }

theorem lire_muret : Terrain.lire "3 2\nX+O\n...".toList = .ok muret := rfl

/-- **Four steps counted as two**: the walk around the wall. -/
theorem detour_compte_deux : Terrain.lire "3 2\nX+O\n...".toList = .ok muret ∧
    ¬ AlwaysM appel ScoreJuste (nouveau muret) [(0, 2)] := by
  refine ⟨lire_muret, ?_⟩
  intro h
  have hdetour := (scoreJuste_iff _ _).1 h.1
  have hlien : List.IsChain (nouveau muret).Adjacent [(0, 0), (1, 0), (1, 1), (1, 2), (0, 2)] := by
    unfold Adjacent
    decide
  have hjoint := List.relationReflTransGen_of_exists_isChain_cons _ hlien rfl
  have hdirect := hdetour ⟨.pousseur, .libre, rfl, rfl⟩ (by decide) hjoint
  -- no free cell next to the pusher is nearer
  have hpas : ∀ w ∈ (nouveau muret).voisinsLibres (0, 0), ¬ ecart (0, 2) w < ecart (0, 2) (0, 0) := by decide
  rcases hdirect.cases_head with heq | hpremier
  · exact absurd heq (by decide)
  · obtain ⟨w, hw, -⟩ := hpremier
    exact hpas w hw.1 hw.2

end Semestre6.Sokoban.Moteur
