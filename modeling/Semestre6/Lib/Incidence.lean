/-
How many edges of a list touch a vertex, in a multigraph without loops.

- `sum_incidence`: every edge is counted at its two ends;
- `incidence_eq_one_iff`: the edges touch every vertex exactly once when they touch none twice and there are half as
  many as vertices.
-/
import Mathlib.Tactic

namespace Semestre6.Multigraphe

variable {ν ε : Type*} [DecidableEq ν] {deb fin : ε → ν} {l l' : List ε} {V : Finset ν} {v : ν}

variable (deb fin) in
def incidence (l : List ε) (v : ν) : ℕ := l.countP fun e => deb e = v ∨ fin e = v

theorem incidence_cons (e : ε) (l : List ε) (v : ν) :
    incidence deb fin (e :: l) v = incidence deb fin l v + if deb e = v ∨ fin e = v then 1 else 0 := by
  unfold incidence
  rw [List.countP_cons]
  simp only [decide_eq_true_eq]

/-- the edges of the list are between two vertices of `V` -/
def Entre (deb fin : ε → ν) (V : Finset ν) (l : List ε) : Prop := ∀ e ∈ l, deb e ∈ V ∧ fin e ∈ V ∧ deb e ≠ fin e

theorem sum_incidence (h : Entre deb fin V l) : ∑ v ∈ V, incidence deb fin l v = 2 * l.length := by
  induction l with
  | nil => simp [incidence]
  | cons e l ih =>
    obtain ⟨he, hl⟩ := List.forall_mem_cons.1 h
    have hends : V.filter (fun v => deb e = v ∨ fin e = v) = {deb e, fin e} := by
      ext v
      simp only [Finset.mem_filter, Finset.mem_insert, Finset.mem_singleton]
      apply Iff.intro
      · intro hv
        exact hv.2.imp Eq.symm Eq.symm
      · intro hv
        refine ⟨?_, hv.imp Eq.symm Eq.symm⟩
        exact hv.elim (fun h => h ▸ he.1) fun h => h ▸ he.2.1
    have hone : ∑ v ∈ V, (if deb e = v ∨ fin e = v then 1 else 0) = 2 := by
      rw [← Finset.sum_filter, Finset.sum_const, hends, Finset.card_pair he.2.2, smul_eq_mul, mul_one]
    calc ∑ v ∈ V, incidence deb fin (e :: l) v
        = ∑ v ∈ V, incidence deb fin l v + ∑ v ∈ V, (if deb e = v ∨ fin e = v then 1 else 0) := by
          rw [← Finset.sum_add_distrib]
          exact Finset.sum_congr rfl fun v _ => incidence_cons e l v
      _ = 2 * (e :: l).length := by rw [ih hl, hone, List.length_cons]; omega

/-- **Every vertex once.** -/
theorem incidence_eq_one_iff (h : Entre deb fin V l) :
    (∀ v ∈ V, incidence deb fin l v = 1) ↔ (∀ v ∈ V, incidence deb fin l v ≤ 1) ∧ V.card = 2 * l.length := by
  have hsum := sum_incidence h
  apply Iff.intro
  · intro h1
    refine ⟨fun v hv => (h1 v hv).le, ?_⟩
    rw [← hsum, Finset.sum_congr rfl h1, Finset.sum_const, smul_eq_mul, mul_one]
  · intro h1
    have heq : ∑ v ∈ V, incidence deb fin l v = ∑ v ∈ V, 1 := by
      rw [hsum, ← h1.2, Finset.sum_const, smul_eq_mul, mul_one]
    exact (Finset.sum_eq_sum_iff_of_le h1.1).1 heq

end Semestre6.Multigraphe
