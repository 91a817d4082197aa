/-
The convex hull of finitely many points of the plane, walked edge by edge with every other point on the right.

- `det_trans`: seen from a point that a line separates from the others, turning left is transitive;
- `Arete`: a directed edge of the hull, which is alone into its end (`Arete.injective`);
- `sommet_of_formes`, `Arete.sommet`, `exists_separe`: extreme points of the hull, and the line that cuts one off;
- `Tour.mem_iff`, `Tour.arete_iff`: a closed walk along edges goes through every vertex of the hull and through no other
  point, and along every edge;
- `nodup_concat`: a walk along an injective relation meets no element again before its start.
-/
import Mathlib.Tactic
import Mathlib.Analysis.Convex.Extreme
import Mathlib.Analysis.Convex.Topology
import Mathlib.Analysis.LocallyConvex.Separation

namespace Semestre6.EnveloppeConvexe

/-! ## Orientation -/

section orientation

variable {R : Type*} [CommRing R]

def det (u v : R × R) : R := u.1 * v.2 - v.1 * u.2

/-- positive when `c` is on the left of the line from `a` to `b` -/
def orient (a b c : R × R) : R := det (b - a) (c - a)

/-- the linear form of coefficients `w` -/
def forme (w u : R × R) : R := w.1 * u.1 + w.2 * u.2

variable {w u v x a b c : R × R}

theorem orient_rotation (a b c : R × R) : orient b c a = orient a b c := by
  simp only [orient, det, Prod.fst_sub, Prod.snd_sub]
  ring

theorem orient_swap (a b c : R × R) : orient b a c = -orient a b c := by
  simp only [orient, det, Prod.fst_sub, Prod.snd_sub]
  ring

theorem det_swap (u v : R × R) : det v u = -det u v := by
  simp only [det]
  ring

theorem forme_sub (w u v : R × R) : forme w (u - v) = forme w u - forme w v := by
  simp only [forme, Prod.fst_sub, Prod.snd_sub]
  ring

/-- a linear form on three vectors of the plane -/
theorem forme_mul_det (w u v x : R × R) : forme w v * det u x = forme w x * det u v + forme w u * det v x := by
  simp only [forme, det]
  ring

variable [LinearOrder R] [IsStrictOrderedRing R]

theorem det_trans (hu : forme w u < 0) (hv : forme w v < 0) (hx : forme w x < 0) (h : 0 < det u v) (h' : 0 < det v x) :
    0 < det u x := by
  have hsum : forme w v * det u x < 0 := by
    rw [forme_mul_det]
    exact add_neg (mul_neg_of_neg_of_pos hx h) (mul_neg_of_neg_of_pos hu h')
  by_contra hn
  exact absurd hsum (not_lt.2 (mul_nonneg_of_nonpos_of_nonpos hv.le (not_lt.1 hn)))

/-- between two directions, a vector is no further along a form than they are -/
theorem forme_le_zero (hu : forme w u ≤ 0) (hx : forme w x ≤ 0) (h : 0 < det u v) (h' : 0 < det v x)
    (hux : 0 < det u x) : forme w v ≤ 0 := by
  have hsum : forme w v * det u x ≤ 0 := by
    rw [forme_mul_det]
    exact add_nonpos (mul_nonpos_of_nonpos_of_nonneg hx h.le) (mul_nonpos_of_nonpos_of_nonneg hu h'.le)
  by_contra hn
  exact absurd hsum (not_le.2 (mul_pos (not_le.1 hn) hux))

end orientation

/-! ## Walks -/

section marche

variable {α : Type*} {r : α → α → Prop} {a b x : α} {l : List α}

theorem exists_pred (h : (x :: l).IsChain r) (hb : b ∈ l) : ∃ a ∈ x :: l, r a b := by
  induction l generalizing x with
  | nil => exact absurd hb List.not_mem_nil
  | cons y l ih =>
    obtain ⟨hxy, h⟩ := List.isChain_cons_cons.1 h
    rcases List.mem_cons.1 hb with rfl | hb
    · exact ⟨x, List.mem_cons_self, hxy⟩
    · obtain ⟨a, ha, hr⟩ := ih h hb
      exact ⟨a, List.mem_cons_of_mem x ha, hr⟩

theorem exists_succ (h : (l ++ [x]).IsChain r) (ha : a ∈ l) : ∃ b ∈ l ++ [x], r a b := by
  obtain ⟨l₁, l₂, rfl⟩ := List.append_of_mem ha
  rw [List.append_assoc, List.cons_append] at h
  have h := (List.isChain_append.1 h).2.1
  match l₂ with
  | [] => exact ⟨x, by simp, (List.isChain_cons_cons.1 h).1⟩
  | b :: l₂ => exact ⟨b, by simp, (List.isChain_cons_cons.1 h).1⟩

/-- an injective relation never leads back into the walk, except to its start -/
theorem nodup_concat (hr : ∀ a b c, r a c → r b c → a = b) (hl : (x :: l).Nodup)
    (h : (x :: (l ++ [b])).IsChain r) (hb : b ≠ x) : (x :: (l ++ [b])).Nodup := by
  suffices hn : b ∉ x :: l by
    rw [← List.cons_append]
    exact hl.append (List.nodup_singleton b) (by simpa using hn)
  intro hm
  have hm : b ∈ l := (List.mem_cons.1 hm).resolve_left hb
  obtain ⟨l₁, l₂, rfl⟩ := List.append_of_mem hm
  rw [← List.cons_append, ← List.cons_append] at h
  rw [← List.cons_append] at hl
  -- `b` comes after the last element of each of the two parts
  have hfin : r ((b :: l₂).getLast (by simp)) b := by
    apply (List.isChain_append.1 h).2.2 _ _ b rfl
    rw [List.getLast?_append_of_ne_nil _ (by simp), List.getLast?_eq_some_getLast (by simp)]
    rfl
  have hprem : r ((x :: l₁).getLast (by simp)) b := by
    rw [List.append_assoc] at h
    exact (List.isChain_append.1 h).2.2 _ (List.getLast?_eq_some_getLast (by simp)) b (by simp)
  exact (List.nodup_append.1 hl).2.2 _ (List.getLast_mem _) _ (List.getLast_mem _) (hr _ _ _ hprem hfin)

end marche

/-! ## Edges -/

section aretes

variable {R : Type*} [CommRing R] [LinearOrder R] [IsStrictOrderedRing R] {ι : Type*} (pos : ι → R × R) (S : Set ι)

/-- every other point is on the right of the line from `a` to `b` -/
structure Arete (a b : ι) : Prop where
  source : a ∈ S
  but : b ∈ S
  ne : a ≠ b
  droite : ∀ c ∈ S, c ≠ a → c ≠ b → orient (pos a) (pos b) (pos c) < 0

/-- the walk `x :: l` along edges comes back to `x` -/
def Tour (x : ι) (l : List ι) : Prop := (x :: (l ++ [x])).IsChain (Arete pos S)

variable {pos S} {a b c v m x : ι} {l : List ι}

theorem Arete.injective (h : Arete pos S a c) (h' : Arete pos S b c) : a = b := by
  by_contra hab
  -- `a` is on the right of `b → c`, and `b` on the right of `a → c`
  have ha := h'.droite a h.source hab h.ne
  have hb := h.droite b h'.source (Ne.symm hab) h'.ne
  rw [orient_rotation] at ha
  rw [orient_rotation (pos b), orient_swap] at hb
  exact absurd ha (not_lt.2 (neg_neg_iff_pos.1 hb).le)

/-- no form grows beyond a corner whose two neighbours are not further along it -/
theorem Arete.forme_le (ham : Arete pos S a m) (hmb : Arete pos S m b) (hab : a ≠ b) {w : R × R}
    (ha : forme w (pos a) ≤ forme w (pos m)) (hb : forme w (pos b) ≤ forme w (pos m)) (hv : v ∈ S) :
    forme w (pos v) ≤ forme w (pos m) := by
  by_cases hva : v = a
  · exact hva ▸ ha
  by_cases hvm : v = m
  · exact hvm ▸ le_rfl
  by_cases hvb : v = b
  · exact hvb ▸ hb
  have hav : 0 < det (pos a - pos m) (pos v - pos m) := by
    have h := ham.droite v hv hva hvm
    rw [← orient_rotation] at h
    rw [det_swap, neg_pos]
    exact h
  have hvb : 0 < det (pos v - pos m) (pos b - pos m) := by
    rw [det_swap, neg_pos]
    exact hmb.droite v hv hvm hvb
  have hab : 0 < det (pos a - pos m) (pos b - pos m) := by
    have h := ham.droite b hmb.but (Ne.symm hab) (Ne.symm hmb.ne)
    rw [← orient_rotation] at h
    rw [det_swap, neg_pos]
    exact h
  have hle := forme_le_zero (by rwa [forme_sub, sub_nonpos]) (by rwa [forme_sub, sub_nonpos]) hav hvb hab (w := w)
  rwa [forme_sub, sub_nonpos] at hle

/-- a third point keeps an edge from being walked back at once -/
theorem Arete.ne_retour (htrois : ∀ a b : ι, ∃ c ∈ S, c ≠ a ∧ c ≠ b) (ham : Arete pos S a m) (hmb : Arete pos S m b) :
    a ≠ b := by
  rintro rfl
  obtain ⟨c, hc, hca, hcm⟩ := htrois a m
  have h := ham.droite c hc hca hcm
  have h' := hmb.droite c hc hcm hca
  rw [orient_swap] at h'
  exact absurd h (not_lt.2 (neg_neg_iff_pos.1 h').le)

/-- the last point of `S`, in the order of the angles seen from `a`, ends an edge from `a` -/
theorem arete_of_det (ha : a ∈ S) (hb : b ∈ S) (hab : b ≠ a)
    (h : ∀ c ∈ S, c ≠ a → c = b ∨ 0 < det (pos c - pos a) (pos b - pos a)) : Arete pos S a b := by
  refine ⟨ha, hb, Ne.symm hab, ?_⟩
  intro c hc hca hcb
  have hdet := (h c hc hca).resolve_left hcb
  rwa [det_swap, neg_pos] at hdet

omit [IsStrictOrderedRing R] in
theorem Tour.exists_pred (h : Tour pos S x l) (hm : m ∈ x :: l) : ∃ a ∈ x :: l, Arete pos S a m := by
  obtain ⟨a, ha, hr⟩ := EnveloppeConvexe.exists_pred h (b := m) (by simpa [or_comm] using hm)
  exact ⟨a, by simpa [or_comm, or_assoc] using ha, hr⟩

omit [IsStrictOrderedRing R] in
theorem Tour.exists_succ (h : Tour pos S x l) (hm : m ∈ x :: l) : ∃ b ∈ x :: l, Arete pos S m b := by
  obtain ⟨b, hb, hr⟩ := EnveloppeConvexe.exists_succ (l := x :: l) h hm
  exact ⟨b, by simpa [or_comm, or_assoc] using hb, hr⟩

theorem Tour.exists_forme_le (h : Tour pos S x l) (htrois : ∀ a b, ∃ c ∈ S, c ≠ a ∧ c ≠ b) (w : R × R) :
    ∃ m ∈ x :: l, ∀ v ∈ S, forme w (pos v) ≤ forme w (pos m) := by
  obtain ⟨m, hm, hmax⟩ := Set.exists_max_image {a | a ∈ x :: l} (fun a => forme w (pos a)) (List.finite_toSet _)
    ⟨x, List.mem_cons_self⟩
  obtain ⟨a, ha, ham⟩ := h.exists_pred hm
  obtain ⟨b, hb, hmb⟩ := h.exists_succ hm
  exact ⟨m, hm, fun v hv => ham.forme_le hmb (ham.ne_retour htrois hmb) (hmax a ha) (hmax b hb) hv⟩

end aretes

/-! ## Extreme points -/

section sommets

variable {E : Type*} [AddCommGroup E] [Module ℝ E] {A : Set E} {p : E}

/-- the points that come before `p`, by `g` first and then by `h` -/
structure Avant (g h : E →ₗ[ℝ] ℝ) (p x : E) : Prop where
  premier : g x ≤ g p
  second : g x = g p → h x ≤ h p
  seul : g x = g p → h x = h p → x = p

theorem combinaison_le {u v c a b : ℝ} (ha : 0 < a) (hb : 0 < b) (hab : a + b = 1) (hu : u ≤ c) (hv : v ≤ c) :
    a * u + b * v ≤ c :=
  calc a * u + b * v ≤ a * c + b * c := by gcongr
    _ = c := by rw [← add_mul, hab, one_mul]

/-- a mean reaches the bound only if both terms do -/
theorem eq_of_combinaison {u v c a b : ℝ} (ha : 0 < a) (hb : 0 < b) (hab : a + b = 1) (hu : u ≤ c) (hv : v ≤ c)
    (h : a * u + b * v = c) : u = c ∧ v = c := by
  have hc : a * c + b * c = c := by rw [← add_mul, hab, one_mul]
  apply And.intro
  · by_contra hne
    have hlt : a * u < a * c := mul_lt_mul_of_pos_left (lt_of_le_of_ne hu hne) ha
    have hle : b * v ≤ b * c := mul_le_mul_of_nonneg_left hv hb.le
    linarith
  · by_contra hne
    have hlt : b * v < b * c := mul_lt_mul_of_pos_left (lt_of_le_of_ne hv hne) hb
    have hle : a * u ≤ a * c := mul_le_mul_of_nonneg_left hu ha.le
    linarith

section avant

variable {g h : E →ₗ[ℝ] ℝ} {x y : E} {a b : ℝ} (hx : Avant g h p x) (hy : Avant g h p y) (ha : 0 < a) (hb : 0 < b)
  (hab : a + b = 1)
include hx hy ha hb hab

theorem Avant.premier_eq (hg : g (a • x + b • y) = g p) : g x = g p ∧ g y = g p := by
  rw [map_add, map_smul, map_smul] at hg
  exact eq_of_combinaison ha hb hab hx.premier hy.premier hg

theorem Avant.second_eq (hg : g (a • x + b • y) = g p) (hh : h (a • x + b • y) = h p) : x = p ∧ y = p := by
  obtain ⟨hgx, hgy⟩ := hx.premier_eq hy ha hb hab hg
  rw [map_add, map_smul, map_smul] at hh
  obtain ⟨hhx, hhy⟩ := eq_of_combinaison ha hb hab (hx.second hgx) (hy.second hgy) hh
  exact ⟨hx.seul hgx hhx, hy.seul hgy hhy⟩

theorem Avant.combinaison : Avant g h p (a • x + b • y) where
  premier := by
    rw [map_add, map_smul, map_smul]
    exact combinaison_le ha hb hab hx.premier hy.premier
  second := by
    intro hg
    obtain ⟨hgx, hgy⟩ := hx.premier_eq hy ha hb hab hg
    rw [map_add, map_smul, map_smul]
    exact combinaison_le ha hb hab (hx.second hgx) (hy.second hgy)
  seul := by
    intro hg hh
    obtain ⟨rfl, rfl⟩ := hx.second_eq hy ha hb hab hg hh
    rw [← add_smul, hab, one_smul]

end avant

theorem avant_convexe (g h : E →ₗ[ℝ] ℝ) (p : E) : Convex ℝ {x | Avant g h p x} := by
  rw [convex_iff_forall_pos]
  intro x hx y hy a b ha hb hab
  exact Avant.combinaison hx hy ha hb hab

/-- **A point that is strictly last is a vertex of the hull.** -/
theorem sommet_of_avant {g h : E →ₗ[ℝ] ℝ} (hp : p ∈ A) (hA : ∀ x ∈ A, Avant g h p x) :
    p ∈ (convexHull ℝ A).extremePoints ℝ := by
  have hsub : convexHull ℝ A ⊆ {x | Avant g h p x} := convexHull_min hA (avant_convexe g h p)
  rw [mem_extremePoints_iff_left]
  refine ⟨subset_convexHull ℝ A hp, ?_⟩
  intro x hx y hy hseg
  obtain ⟨a, b, ha, hb, hab, hz⟩ := hseg
  exact (Avant.second_eq (hsub hx) (hsub hy) ha hb hab (by rw [hz]) (by rw [hz])).1

end sommets

/-! ## Vertices of the hull in the plane -/

section plan

variable {ι : Type*} {pos : ι → ℝ × ℝ} {S : Set ι} {a b p q x : ι} {l : List ι}

def formeLineaire (w : ℝ × ℝ) : ℝ × ℝ →ₗ[ℝ] ℝ := w.1 • LinearMap.fst ℝ ℝ ℝ + w.2 • LinearMap.snd ℝ ℝ ℝ

variable (pos S) in
/-- a vertex of the convex hull of `S` -/
def Sommet (p : ι) : Prop := p ∈ S ∧ pos p ∈ (convexHull ℝ (pos '' S)).extremePoints ℝ

theorem sommet_of_formes (g h : ℝ × ℝ) (hp : p ∈ S)
    (hS : ∀ q ∈ S, q ≠ p → forme g (pos q) < forme g (pos p) ∨
      (forme g (pos q) = forme g (pos p) ∧ forme h (pos q) < forme h (pos p))) : Sommet pos S p := by
  refine ⟨hp, sommet_of_avant (g := formeLineaire g) (h := formeLineaire h) (Set.mem_image_of_mem pos hp) ?_⟩
  rintro _ ⟨q, hq, rfl⟩
  by_cases hqp : q = p
  · rw [hqp]
    exact ⟨le_rfl, fun _ => le_rfl, fun _ _ => rfl⟩
  · rcases hS q hq hqp with hg | ⟨hg, hh⟩
    · exact ⟨hg.le, fun he => absurd he hg.ne, fun he => absurd he hg.ne⟩
    · exact ⟨hg.le, fun _ => hh.le, fun _ he => absurd he hh.ne⟩

/-- an edge ends at a vertex: the last point on the right of the edge, and the furthest along it -/
theorem Arete.sommet (hpos : pos.Injective) (h : Arete pos S a b) : Sommet pos S b := by
  -- `forme g` is the determinant with the direction of the edge
  set d := pos b - pos a
  set g : ℝ × ℝ := (-d.2, d.1)
  have hg : ∀ u, forme g u = det d u := by
    intro u
    simp only [g, forme, det]
    ring
  have hb : forme g (pos b) = forme g (pos a) := by
    rw [← sub_eq_zero, ← forme_sub, hg, det, sub_self]
  apply sommet_of_formes g d h.but
  intro q hq hqb
  by_cases hqa : q = a
  · right
    have hd : d ≠ 0 := sub_ne_zero.2 fun he => h.ne (hpos he).symm
    have hdd : 0 < forme d (pos b) - forme d (pos a) := by
      rw [← forme_sub]
      apply lt_of_le_of_ne (add_nonneg (mul_self_nonneg d.1) (mul_self_nonneg d.2))
      intro he
      obtain ⟨h₁, h₂⟩ := mul_self_add_mul_self_eq_zero.1 he.symm
      exact hd (Prod.ext h₁ h₂)
    rw [hqa]
    exact ⟨hb.symm, sub_pos.1 hdd⟩
  · left
    have hlt : forme g (pos q) - forme g (pos a) < 0 := by
      rw [← forme_sub, hg]
      exact h.droite q hq hqa hqb
    rw [hb]
    exact sub_neg.1 hlt

/-- a line cuts a vertex off from the other points -/
theorem Sommet.exists_separe (hS : S.Finite) (hpos : pos.Injective) (h : Sommet pos S p) :
    ∃ w, ∀ q ∈ S, q ≠ p → forme w (pos q) < forme w (pos p) := by
  have hsub : pos '' (S \ {p}) ⊆ convexHull ℝ (pos '' S) \ {pos p} := by
    rintro _ ⟨q, ⟨hq, hqp⟩, rfl⟩
    exact ⟨subset_convexHull ℝ _ (Set.mem_image_of_mem pos hq), fun he => hqp (hpos he)⟩
  have hnot : pos p ∉ convexHull ℝ (pos '' (S \ {p})) := fun hin =>
    ((convex_convexHull ℝ _).mem_extremePoints_iff_mem_sdiff_convexHull_sdiff.1 h.2).2 (convexHull_mono hsub hin)
  have hferme : IsClosed (convexHull ℝ (pos '' (S \ {p}))) := (hS.sdiff.image pos).isClosed_convexHull ℝ
  obtain ⟨f, u, hp, hf⟩ := geometric_hahn_banach_point_closed (convex_convexHull ℝ _) hferme hnot
  have hforme : ∀ v : ℝ × ℝ, forme (-f (1, 0), -f (0, 1)) v = -f v := by
    intro v
    have hv : f v = v.1 * f (1, 0) + v.2 * f (0, 1) := by
      conv_lhs => rw [show v = v.1 • (1, 0) + v.2 • (0, 1) by ext <;> simp]
      rw [map_add, map_smul, map_smul, smul_eq_mul, smul_eq_mul]
    rw [hv, forme]
    ring
  refine ⟨(-f (1, 0), -f (0, 1)), ?_⟩
  intro q hq hqp
  rw [hforme, hforme, neg_lt_neg_iff]
  exact hp.trans (hf _ (subset_convexHull ℝ _ (Set.mem_image_of_mem pos ⟨hq, hqp⟩)))

/-- **A closed walk along edges goes through the vertices, and no other point.** -/
theorem Tour.mem_iff (hS : S.Finite) (hpos : pos.Injective) (htrois : ∀ a b, ∃ c ∈ S, c ≠ a ∧ c ≠ b)
    (h : Tour pos S x l) : p ∈ x :: l ↔ Sommet pos S p := by
  apply Iff.intro
  · intro hp
    obtain ⟨a, -, hap⟩ := h.exists_pred hp
    exact hap.sommet hpos
  · intro hp
    obtain ⟨w, hw⟩ := hp.exists_separe hS hpos
    obtain ⟨m, hm, hmax⟩ := h.exists_forme_le htrois w
    by_cases hmp : m = p
    · exact hmp ▸ hm
    · obtain ⟨a, -, ham⟩ := h.exists_pred hm
      exact absurd (hw m ham.but hmp) (not_lt.2 (hmax p hp.1))

/-- the edges are those of the walk -/
theorem Tour.arete_iff (hS : S.Finite) (hpos : pos.Injective) (htrois : ∀ a b, ∃ c ∈ S, c ≠ a ∧ c ≠ b)
    (h : Tour pos S x l) : Arete pos S a b ↔ [a, b] <:+: x :: (l ++ [x]) := by
  apply Iff.intro
  · intro hab
    have hb : b ∈ l ++ [x] := by
      have hmem : b ∈ x :: l := (h.mem_iff hS hpos htrois).2 (hab.sommet hpos)
      simpa [or_comm] using hmem
    obtain ⟨u, v, huv⟩ := List.append_of_mem hb
    have hchain : (x :: u ++ b :: v).IsChain (Arete pos S) := by
      rw [List.cons_append, ← huv]
      exact h
    obtain ⟨u', c, hu⟩ := (x :: u).eq_nil_or_concat'.resolve_left (List.cons_ne_nil x u)
    have hcb : Arete pos S c b := by
      rw [hu, List.append_assoc] at hchain
      exact (List.isChain_cons_cons.1 (hchain.right_of_append)).1
    refine ⟨u', v, ?_⟩
    rw [huv, hab.injective hcb, ← List.cons_append, hu]
    simp
  · intro hab
    have hchain : [a, b].IsChain (Arete pos S) := List.IsChain.infix h hab
    exact (List.isChain_cons_cons.1 hchain).1

end plan

end Semestre6.EnveloppeConvexe
