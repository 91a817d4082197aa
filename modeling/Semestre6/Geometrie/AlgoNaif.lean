/-
AlgoNaif.java: the hull of a cloud from all its segments, each kept unless it has points on both of its sides, found by
a straight line equation in floating point.

- `abs_valeur_sub_le`: in a window of 16384 pixels, the six roundings stay below PRECISION;
- `tracer_iff`: so a segment stays on the screen exactly when the points are all on one side of it, aligned points and
  double ones included;
- `algoNaif_jarvis`: on a cloud in general position, the segments that stay are those between two successive points of
  what algo_jarvis returns.
-/
import Mathlib.Tactic
import Semestre6.Geometrie.Jarvis
import Semestre6.Lib.Flottant

namespace Semestre6.Geometrie

open EnveloppeConvexe Flottant

/-- the value of a `double`, its exponent left free -/
def double (x : ℚ) : ℚ := arrondi 53 x

def PRECISION : ℚ := double (1 / 1000000)

/-- the equation of the line from `a` to `b`, at `p` -/
def valeur (a b p : Point) : ℚ :=
  if a.x = b.x then ((p.x - a.x : ℤ) : ℚ)
  else
    let coef := double (((a.y - b.y : ℤ) : ℚ) / ((a.x - b.x : ℤ) : ℚ))
    let cte := double (a.y - double (coef * a.x))
    double (double (double (p.x * coef) + cte) - p.y)

/-- the loop on the points, which ends when both flags are set -/
def consulte (a b : Point) (positifs negatifs : Bool) : List Point → Bool × Bool
  | [] => (positifs, negatifs)
  | p :: it =>
    if !positifs || !negatifs then
      let valeur := valeur a b p
      if valeur < -PRECISION ∨ valeur > PRECISION then
        consulte a b (positifs || decide (valeur > 0)) (negatifs || decide (valeur < 0)) it
      else consulte a b positifs negatifs it
    else (positifs, negatifs)

/-- what is done on the window -/
inductive Trace where
  | tracerRouge (a b : Point)
  | effacer (a b : Point)
  | tracer (a b : Point)
deriving DecidableEq, Repr

def etudie (l : List Point) (a b : Point) : List Trace :=
  let (positifs, negatifs) := consulte a b false false l
  [.tracerRouge a b, if positifs && negatifs then .effacer a b else .tracer a b]

/-- the loops on `i` and `j`, from the points that are left for `i` -/
def enumere (l : List Point) : List Point → List Trace
  | [] => []
  | a :: suite => suite.flatMap (etudie l a) ++ enumere l suite

def algoNaif (l : List Point) : List Trace := enumere l l

/-- the coordinates of a point of a window of 16384 pixels -/
def DansFenetre (p : Point) : Prop := (0 ≤ p.x ∧ p.x < 2 ^ 14) ∧ 0 ≤ p.y ∧ p.y < 2 ^ 14

instance (p : Point) : Decidable (DansFenetre p) := by
  unfold DansFenetre
  infer_instance

variable {nuage l : List Point} {a b p q : Point}

/-! ## The roundings -/

/-- the value without roundings -/
def exacte (a b p : Point) : ℚ :=
  if a.x = b.x then p.x - a.x else p.x * ((a.y - b.y) / (a.x - b.x)) + (a.y - (a.y - b.y) / (a.x - b.x) * a.x) - p.y

/-- twice the area of the triangle, negative when `p` is on the left in the sense of EstAGauche -/
def aire (a b p : Point) : ℤ := (b.x - a.x) * (p.y - a.y) - (p.x - a.x) * (b.y - a.y)

/-- the scale of the equation of a line -/
def echelle (a b : Point) : ℤ := if a.x = b.x then a.y - b.y else a.x - b.x

theorem estAGauche_iff_aire : EstAGauche a b p ↔ aire a b p < 0 := Iff.rfl

theorem aire_swap (a b p : Point) : aire b a p = -aire a b p := by
  rw [aire, aire]
  ring

theorem exacte_mul_echelle (a b p : Point) : exacte a b p * echelle a b = aire a b p := by
  by_cases hx : a.x = b.x
  · rw [exacte, echelle, aire, if_pos hx, if_pos hx, hx]
    push_cast
    ring
  · have hne : (a.x - b.x : ℚ) ≠ 0 := sub_ne_zero.2 (by exact_mod_cast hx)
    rw [exacte, echelle, aire, if_neg hx, if_neg hx]
    push_cast
    field_simp
    ring

theorem echelle_ne_zero (h : a ≠ b) : echelle a b ≠ 0 := by
  rw [echelle]
  split_ifs with hx
  · intro hy
    cases a
    cases b
    exact h (Point.mk.injEq .. ▸ ⟨hx, sub_eq_zero.1 hy⟩)
  · exact sub_ne_zero.2 hx

/-- the error of the six roundings -/
theorem abs_valeur_sub_le (ha : DansFenetre a) (hb : DansFenetre b) (hp : DansFenetre p) :
    |valeur a b p - exacte a b p| ≤ 1 / 2 ^ 21 := by
  have habs : ∀ n : ℤ, 0 ≤ n ∧ n < 2 ^ 14 → |(n : ℚ)| ≤ 2 ^ 14 := by
    intro n hn
    rw [abs_of_nonneg (by exact_mod_cast hn.1)]
    exact_mod_cast hn.2.le
  by_cases hx : a.x = b.x
  · simp [valeur, exacte, hx]
  · have hpente : |(a.y - b.y : ℚ) / (a.x - b.x)| ≤ 2 ^ 14 := by
      have hnum : |(a.y - b.y : ℚ)| ≤ 2 ^ 14 := by
        have h : |a.y - b.y| ≤ 2 ^ 14 := abs_le.2 ⟨by linarith [ha.2.1, hb.2.2], by linarith [ha.2.2, hb.2.1]⟩
        exact_mod_cast h
      have hden : 1 ≤ |(a.x - b.x : ℚ)| := by
        have h : 1 ≤ |a.x - b.x| := Int.one_le_abs (sub_ne_zero.2 hx)
        exact_mod_cast h
      rw [abs_div]
      exact (div_le_self (abs_nonneg _) hden).trans hnum
    have hcoef := (Approche.exacte hpente).arrondi 53
    have hcte := ((Approche.exacte (habs a.y ha.2)).sub ((hcoef.mul_right (habs a.x ha.1)).arrondi 53)).arrondi 53
    have hproduit := (hcoef.mul_left (habs p.x hp.1)).arrondi 53
    have hfin := (((hproduit.add hcte).arrondi 53).sub (Approche.exacte (habs p.y hp.2))).arrondi 53
    rw [valeur, exacte, if_neg hx, if_neg hx]
    push_cast
    refine hfin.ecart.trans ?_
    norm_num

theorem abs_PRECISION_sub_le : |PRECISION - 1 / 1000000| ≤ 1 / 2 ^ 53 := by
  refine (abs_arrondi_sub_le 53 _).trans ?_
  rw [abs_of_nonneg (by norm_num)]
  norm_num

theorem abs_echelle_le (ha : DansFenetre a) (hb : DansFenetre b) : |echelle a b| ≤ 2 ^ 14 := by
  obtain ⟨⟨hax, hax'⟩, hay, hay'⟩ := ha
  obtain ⟨⟨hbx, hbx'⟩, hby, hby'⟩ := hb
  rw [echelle, abs_le]
  split_ifs
  · constructor <;> linarith
  · constructor <;> linarith

/-- coordinates are integers: a point that is not on the line is not next to it -/
theorem le_abs_exacte (ha : DansFenetre a) (hb : DansFenetre b) (h : aire a b p ≠ 0) :
    1 / 2 ^ 14 ≤ |exacte a b p| := by
  have haire : 1 ≤ |exacte a b p| * |(echelle a b : ℚ)| := by
    rw [← abs_mul, exacte_mul_echelle]
    exact_mod_cast Int.one_le_abs h
  have hk : |(echelle a b : ℚ)| ≤ 2 ^ 14 := by
    exact_mod_cast abs_echelle_le ha hb
  rw [div_le_iff₀ (by norm_num)]
  exact haire.trans (mul_le_mul_of_nonneg_left hk (abs_nonneg _))

/-- **The roundings change no verdict**: the points on the line are ignored, and no other is. -/
theorem valeur_signe (hab : a ≠ b) (ha : DansFenetre a) (hb : DansFenetre b) (hp : DansFenetre p) :
    (valeur a b p > PRECISION ↔ 0 < aire a b p * echelle a b) ∧
      (valeur a b p < -PRECISION ↔ aire a b p * echelle a b < 0) := by
  have hecart := abs_le.1 (abs_valeur_sub_le ha hb hp)
  have hprec := abs_le.1 abs_PRECISION_sub_le
  norm_num at hecart hprec
  have hk : (0 : ℚ) < echelle a b * echelle a b := by
    exact_mod_cast mul_self_pos.2 (echelle_ne_zero hab)
  have hprod : exacte a b p * (echelle a b * echelle a b) = ((aire a b p * echelle a b : ℤ) : ℚ) := by
    rw [← mul_assoc, exacte_mul_echelle]
    push_cast
    rfl
  have hpos : 0 < aire a b p * echelle a b ↔ 0 < exacte a b p := by
    rw [← Int.cast_pos (R := ℚ), ← hprod]
    exact mul_pos_iff_of_pos_right hk
  have hneg : aire a b p * echelle a b < 0 ↔ exacte a b p < 0 := by
    rw [← Int.cast_lt_zero (R := ℚ), ← hprod]
    exact ⟨fun h => neg_of_mul_neg_left h hk.le, fun h => mul_neg_of_neg_of_pos h hk⟩
  rw [hpos, hneg]
  by_cases h0 : aire a b p = 0
  · have hex : exacte a b p = 0 := by
      rw [h0, zero_mul, Int.cast_zero] at hprod
      exact (mul_eq_zero.1 hprod).resolve_right hk.ne'
    rw [hex] at hecart ⊢
    constructor <;> constructor <;> intro h <;> linarith
  · have hloin := le_abs_exacte ha hb h0
    norm_num at hloin
    rcases le_abs.1 hloin with h | h
    · constructor <;> constructor <;> intro h' <;> linarith
    · constructor <;> constructor <;> intro h' <;> linarith

/-! ## One segment -/

theorem PRECISION_pos : 0 < PRECISION := by
  have h := abs_le.1 abs_PRECISION_sub_le
  norm_num at h
  linarith

/-- the loop tells whether there are points on both sides, and its early end changes nothing -/
theorem consulte_iff {positifs negatifs : Bool} : consulte a b positifs negatifs l = (true, true) ↔
    (positifs = true ∨ ∃ p ∈ l, valeur a b p > PRECISION) ∧ (negatifs = true ∨ ∃ p ∈ l, valeur a b p < -PRECISION) := by
  have hprec := PRECISION_pos
  induction l generalizing positifs negatifs with
  | nil => simp [consulte]
  | cons p it ih =>
    simp only [consulte, List.exists_mem_cons_iff]
    split_ifs with hsuite hv
    · refine ih.trans ?_
      rcases hv with hv | hv
      · have h₁ : ¬ valeur a b p > 0 := by linarith
        have h₂ : valeur a b p < 0 := by linarith
        have h₃ : ¬ valeur a b p > PRECISION := by linarith
        simp [h₁, h₂, h₃, hv]
      · have h₁ : ¬ valeur a b p < 0 := by linarith
        have h₂ : valeur a b p > 0 := by linarith
        have h₃ : ¬ valeur a b p < -PRECISION := by linarith
        simp [h₁, h₂, h₃, hv]
    · refine ih.trans ?_
      rw [not_or] at hv
      simp [hv]
    · simp only [Bool.or_eq_true, Bool.not_eq_true', not_or, Bool.not_eq_false] at hsuite
      simp [hsuite]

theorem tracer_mem_etudie {c d : Point} : .tracer a b ∈ etudie l c d ↔
    (a = c ∧ b = d) ∧ consulte a b false false l ≠ (true, true) := by
  have hdrapeaux : ∀ r : Bool × Bool, (r.1 && r.2) = true ↔ r = (true, true) := by decide
  by_cases hr : consulte c d false false l = (true, true)
  · simp only [etudie, hr, Bool.and_self, if_true, List.mem_cons, reduceCtorEq, List.not_mem_nil, or_self, false_iff]
    rintro ⟨⟨rfl, rfl⟩, h⟩
    exact h hr
  · simp only [etudie, hdrapeaux, hr, if_false, List.mem_cons, reduceCtorEq, List.not_mem_nil, or_false, false_or,
      Trace.tracer.injEq]
    apply Iff.intro
    · rintro ⟨rfl, rfl⟩
      exact ⟨⟨rfl, rfl⟩, hr⟩
    · exact And.left

/-- the segments that stay are those without points on both sides -/
theorem tracer_mem_enumere {suite : List Point} : .tracer a b ∈ enumere l suite ↔
    [a, b].Sublist suite ∧ consulte a b false false l ≠ (true, true) := by
  induction suite with
  | nil => simp [enumere]
  | cons c suite ih =>
    have hun : .tracer a b ∈ suite.flatMap (etudie l c) ↔
        (a = c ∧ b ∈ suite) ∧ consulte a b false false l ≠ (true, true) := by
      simp only [List.mem_flatMap, tracer_mem_etudie]
      apply Iff.intro
      · rintro ⟨d, hd, ⟨rfl, rfl⟩, h⟩
        exact ⟨⟨rfl, hd⟩, h⟩
      · rintro ⟨⟨rfl, hb⟩, h⟩
        exact ⟨b, hb, ⟨rfl, rfl⟩, h⟩
    have hcons : [a, b].Sublist (c :: suite) ↔ (a = c ∧ b ∈ suite) ∨ [a, b].Sublist suite := by
      rw [List.sublist_cons_iff, or_comm]
      simp
    rw [enumere, List.mem_append, hun, ih, ← or_and_right, hcons]

theorem consulte_cotes (hl : ∀ p ∈ l, DansFenetre p) (ha : a ∈ l) (hb : b ∈ l) (hab : a ≠ b) :
    consulte a b false false l = (true, true) ↔ (∃ p ∈ l, EstAGauche a b p) ∧ ∃ q ∈ l, EstAGauche b a q := by
  have hplus : (∃ p ∈ l, valeur a b p > PRECISION) ↔ ∃ p ∈ l, 0 < aire a b p * echelle a b :=
    exists_congr fun p => and_congr_right fun hp => (valeur_signe hab (hl a ha) (hl b hb) (hl p hp)).1
  have hmoins : (∃ p ∈ l, valeur a b p < -PRECISION) ↔ ∃ p ∈ l, aire a b p * echelle a b < 0 :=
    exists_congr fun p => and_congr_right fun hp => (valeur_signe hab (hl a ha) (hl b hb) (hl p hp)).2
  have hgauche : ∀ q, EstAGauche b a q ↔ 0 < aire a b q := by
    intro q
    rw [estAGauche_iff_aire, aire_swap, neg_lt_zero]
  simp only [consulte_iff, Bool.false_eq_true, false_or, hplus, hmoins, hgauche, estAGauche_iff_aire]
  -- the sign of the scale only says which flag stands for which side
  rcases lt_or_gt_of_ne (echelle_ne_zero hab) with hk | hk
  · simp only [mul_pos_iff, mul_neg_iff, hk, hk.not_gt, and_true, and_false, or_false, false_or]
  · simp only [mul_pos_iff, mul_neg_iff, hk, hk.not_gt, and_true, and_false, or_false, false_or]
    exact and_comm

/-- **Aligned points and double ones included, a segment stays exactly when no two points are on its two sides.** -/
theorem tracer_iff (hl : ∀ p ∈ l, DansFenetre p) (hab : a ≠ b) : .tracer a b ∈ algoNaif l ↔
    [a, b].Sublist l ∧ ¬ ((∃ p ∈ l, EstAGauche a b p) ∧ ∃ q ∈ l, EstAGauche b a q) := by
  rw [algoNaif, tracer_mem_enumere]
  apply and_congr_right
  intro hsub
  exact not_congr (consulte_cotes hl (hsub.mem (by simp)) (hsub.mem (by simp)) hab)

/-- three of them on a horizontal line below the others -/
def alignes : List Point := [⟨200, 200⟩, ⟨150, 200⟩, ⟨350, 350⟩, ⟨50, 200⟩, ⟨280, 280⟩]

theorem tracer_iff_alignes :
    .tracer ⟨200, 200⟩ ⟨150, 200⟩ ∈ algoNaif alignes ∧ .tracer ⟨150, 200⟩ ⟨350, 350⟩ ∉ algoNaif alignes :=
  ⟨(tracer_iff (by decide) (by decide)).2 (by decide), fun h =>
    absurd ((tracer_iff (by decide) (by decide)).1 h) (by decide)⟩

/-! ## The hull -/

theorem arete_iff_estAGauche (hg : PositionGenerale nuage) (ha : a ∈ nuage) (hb : b ∈ nuage) (hab : a ≠ b) :
    Arete position {q | q ∈ nuage} a b ↔ ¬ ∃ q ∈ nuage, EstAGauche b a q := by
  have horient : ∀ q, orient (position a) (position b) (position q) < 0 ↔ aire a b q < 0 := by
    intro q
    rw [orient_position, Int.cast_lt_zero]
    rfl
  have hdroite : ∀ q, ¬ EstAGauche b a q ↔ aire a b q ≤ 0 := by
    intro q
    rw [estAGauche_iff_aire, aire_swap, neg_lt_zero, not_lt]
  push Not
  simp only [hdroite]
  apply Iff.intro
  · intro h q hq
    by_cases hqa : q = a
    · simp [hqa, aire]
    by_cases hqb : q = b
    · simp [hqb, aire]
    exact ((horient q).1 (h.droite q hq hqa hqb)).le
  · intro h
    refine ⟨ha, hb, hab, ?_⟩
    intro q hq hqa hqb
    have hne : aire a b q ≠ 0 := sub_ne_zero.2 (hg.nonAlignes a ha b hb q hq hab (Ne.symm hqa) (Ne.symm hqb))
    exact (horient q).2 (lt_of_le_of_ne (h q hq) hne)

theorem sublist_pair_or (ha : a ∈ l) (hb : b ∈ l) (hab : a ≠ b) : [a, b].Sublist l ∨ [b, a].Sublist l := by
  obtain ⟨u, v, rfl⟩ := List.append_of_mem ha
  have hb : b ∈ u ∨ b ∈ v := by simpa [Ne.symm hab] using hb
  rcases hb with hb | hb
  · exact .inr ((List.singleton_sublist.2 hb).append (List.singleton_sublist.2 List.mem_cons_self))
  · exact .inl ((List.nil_sublist u).append ((List.singleton_sublist.2 hb).cons_cons a))

/-- one way or the other, an edge is a segment without points on both sides -/
theorem consulte_arete (hg : PositionGenerale nuage) (hf : ∀ p ∈ nuage, DansFenetre p) (ha : a ∈ nuage) (hb : b ∈ nuage)
    (hab : a ≠ b) : consulte a b false false nuage ≠ (true, true) ↔
      Arete position {q | q ∈ nuage} a b ∨ Arete position {q | q ∈ nuage} b a := by
  rw [arete_iff_estAGauche hg ha hb hab, arete_iff_estAGauche hg hb ha (Ne.symm hab), ne_eq,
    consulte_cotes hf ha hb hab, not_and_or]
  exact or_comm

/-- **On a cloud in general position, the naive algorithm and algo_jarvis agree**: the segments that stay are those
between successive points of the envelope. -/
theorem algoNaif_jarvis {tirages : ℕ → ℕ → ℕ} {essais tours : ℕ} (hg : PositionGenerale nuage) (h3 : 3 ≤ nuage.length)
    (hf : ∀ p ∈ nuage, DansFenetre p) (hr : algoJarvis nuage tirages essais tours = .ok l) (a b : Point) :
    (.tracer a b ∈ algoNaif nuage ∨ .tracer b a ∈ algoNaif nuage) ↔
      ([a, b] <:+: l ++ l.head?.toList ∨ [b, a] <:+: l ++ l.head?.toList) := by
  have hn : nuage.Nodup := List.Nodup.of_map _ hg.abscisses
  obtain ⟨P0, suite, rfl, -, htour⟩ := (algoJarvis_ok hg h3 hr).1.premier
  have harete : ∀ c d, [c, d] <:+: P0 :: suite ++ (P0 :: suite).head?.toList ↔ Arete position {q | q ∈ nuage} c d :=
    fun c d => (htour.arete_iff (List.finite_toSet nuage) position_injective (exists_ne_ne hn h3)).symm
  rw [harete, harete, algoNaif, tracer_mem_enumere, tracer_mem_enumere]
  apply Iff.intro
  · intro h
    -- a pair of the list is a pair of distinct points of the cloud
    have hpaire : ∀ c d, [c, d].Sublist nuage → c ∈ nuage ∧ d ∈ nuage ∧ c ≠ d := by
      intro c d hsub
      have hcd : [c, d].Nodup := hsub.nodup hn
      exact ⟨hsub.mem (by simp), hsub.mem (by simp), by simpa using hcd⟩
    rcases h with ⟨hsub, hc⟩ | ⟨hsub, hc⟩
    · obtain ⟨ha, hb, hab⟩ := hpaire a b hsub
      exact (consulte_arete hg hf ha hb hab).1 hc
    · obtain ⟨hb, ha, hba⟩ := hpaire b a hsub
      exact ((consulte_arete hg hf hb ha hba).1 hc).symm
  · intro h
    have hpaire : a ∈ nuage ∧ b ∈ nuage ∧ a ≠ b := by
      rcases h with h | h
      · exact ⟨h.source, h.but, h.ne⟩
      · exact ⟨h.but, h.source, Ne.symm h.ne⟩
    obtain ⟨ha, hb, hab⟩ := hpaire
    rcases sublist_pair_or ha hb hab with hsub | hsub
    · exact .inl ⟨hsub, (consulte_arete hg hf ha hb hab).2 h⟩
    · exact .inr ⟨hsub, (consulte_arete hg hf hb ha (Ne.symm hab)).2 h.symm⟩

theorem algoNaif_jarvis_quatrePoints :
    .tracer ⟨0, 0⟩ ⟨10, 1⟩ ∈ algoNaif quatrePoints ∨ .tracer ⟨10, 1⟩ ⟨0, 0⟩ ∈ algoNaif quatrePoints :=
  have hr : algoJarvis quatrePoints (fun _ k => k % 4) 4 4 = .ok [⟨0, 0⟩, ⟨4, 9⟩, ⟨10, 1⟩] := by decide
  (algoNaif_jarvis ⟨by decide, by decide, by decide⟩ (by decide) (by decide) hr _ _).2 (by decide)

end Semestre6.Geometrie
