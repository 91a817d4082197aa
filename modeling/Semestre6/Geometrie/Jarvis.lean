/-
algo_jarvis of Demo.java: the hull of a cloud, from its lowest point, each next vertex found by a scan of the cloud
that starts from a random point outside the envelope.

- `balaye_arete`: from a vertex, and whatever the random point, the scan ends at the next vertex, every other point
  being on the right of the edge;
- `Marche.boucle_ok`: a run that ends has walked round the hull, and its last random point is on no vertex;
- `Marche.boucle_finit`: with a point that is no vertex, every call of choisir ends and so does the walk;
- `algoJarvis_enveloppe_iff`: the algorithm ends with the hull exactly when some point of the cloud is no vertex.

Witness that the condition is needed: `triangle_sans_fin`: once its three points are in the envelope, choisir draws for
ever.
-/
import Mathlib.Tactic
import Semestre6.Lib.EnveloppeConvexe
import Semestre6.Lib.Minimum

namespace Semestre6.Geometrie

open EnveloppeConvexe

structure Point where
  x : ℤ
  y : ℤ
deriving DecidableEq, Repr

inductive Arret where
  | arrayIndexOutOfBounds
  /-- the loop has not ended in the turns it is given -/
  | boucleSansFin
deriving DecidableEq, Repr

def EstAGauche (A B C : Point) : Prop :=
  let XAB := B.x - A.x
  let YAC := C.y - A.y
  let XAC := C.x - A.x
  let YAB := B.y - A.y
  XAB * YAC - XAC * YAB < 0

instance (A B C : Point) : Decidable (EstAGauche A B C) := by
  unfold EstAGauche
  infer_instance

/-- the draws are those of one call, and `essais` of them at most are made -/
def choisir (nuage enveloppe : List Point) (tirage : ℕ → ℕ) : ℕ → Except Arret Point
  | 0 => .error .boucleSansFin
  | essais + 1 =>
    match nuage[tirage 0]? with
    | none => .error .arrayIndexOutOfBounds
    | some p => if p ∈ enveloppe then choisir nuage enveloppe (fun k => tirage (k + 1)) essais else .ok p

def plusBas (P0 : Point) (nuage : List Point) : Point :=
  nuage.foldl (fun P0 p => if p.y < P0.y then p else if p.y = P0.y ∧ p.x < P0.x then p else P0) P0

/-- the loop on the cloud, and the value of `P` after it -/
def balaye (Pcourant : Point) (nuage : List Point) (P : Point) : Point :=
  nuage.foldl (fun P Pprime =>
    if EstAGauche P Pcourant Pprime then Pprime
    else if P.x = Pcourant.x ∧ Pprime.x = Pcourant.x ∨ P.y = Pcourant.y ∧ Pprime.y = Pcourant.y then Pprime
    else P) P

/-- the turns that are left; `tirages n` are the draws of the call with `n` points in the envelope -/
def boucle (nuage : List Point) (P0 : Point) (tirages : ℕ → ℕ → ℕ) (essais : ℕ) :
    ℕ → List Point → Point → Except Arret (List Point)
  | 0, _, _ => .error .boucleSansFin
  | tours + 1, enveloppe, Pcourant => do
    let enveloppe := enveloppe ++ [Pcourant]
    let P ← choisir nuage enveloppe (tirages enveloppe.length) essais
    let Pcourant := balaye Pcourant nuage P
    if Pcourant ≠ P0 then boucle nuage P0 tirages essais tours enveloppe Pcourant else .ok enveloppe

def algoJarvis (nuage : List Point) (tirages : ℕ → ℕ → ℕ) (essais tours : ℕ) : Except Arret (List Point) :=
  match nuage with
  | [] => .error .arrayIndexOutOfBounds
  | P :: _ =>
    let P0 := plusBas P nuage
    boucle nuage P0 tirages essais tours [] P0

/-! ## What is asked of it -/

def position (p : Point) : ℝ × ℝ := (p.x, p.y)

structure PositionGenerale (nuage : List Point) : Prop where
  abscisses : (nuage.map Point.x).Nodup
  ordonnees : (nuage.map Point.y).Nodup
  nonAlignes : ∀ A ∈ nuage, ∀ B ∈ nuage, ∀ C ∈ nuage, A ≠ B → A ≠ C → B ≠ C →
    (B.x - A.x) * (C.y - A.y) ≠ (C.x - A.x) * (B.y - A.y)

/-- the draws are indices of the cloud, and each comes up in each call -/
def Tirages (nuage : List Point) (tirages : ℕ → ℕ → ℕ) : Prop :=
  ∀ appel, (∀ k, tirages appel k < nuage.length) ∧ ∀ i < nuage.length, ∃ k, tirages appel k = i

/-- `p` is a vertex of the convex hull of the cloud -/
def EstSommet (nuage : List Point) (p : Point) : Prop := Sommet position {q | q ∈ nuage} p

/-- the vertices of the hull, each once, in the order of its boundary from the lowest point -/
structure Enveloppe (nuage l : List Point) : Prop where
  unique : l.Nodup
  sommets : ∀ p, p ∈ l ↔ EstSommet nuage p
  premier : ∃ P0 suite, l = P0 :: suite ∧ (∀ q ∈ nuage, P0.y ≤ q.y) ∧ Tour position {q | q ∈ nuage} P0 suite

variable {nuage l enveloppe : List Point} {A B C P P0 Pcourant p q : Point} {tirages : ℕ → ℕ → ℕ}

/-! ## Orientation of the points -/

theorem position_injective : position.Injective := by
  intro p q h
  obtain ⟨hx, hy⟩ := Prod.mk.inj h
  cases p
  cases q
  simpa using And.intro (Int.cast_injective hx) (Int.cast_injective hy)

theorem orient_position (A B C : Point) : orient (position A) (position B) (position C) =
    (((B.x - A.x) * (C.y - A.y) - (C.x - A.x) * (B.y - A.y) : ℤ) : ℝ) := by
  simp [orient, det, position]

theorem estAGauche_iff : EstAGauche P Pcourant q ↔
    0 < det (position P - position Pcourant) (position q - position Pcourant) := by
  have h : det (position P - position Pcourant) (position q - position Pcourant) =
      -orient (position P) (position Pcourant) (position q) := by
    rw [← orient_rotation, orient, det_swap]
  rw [h, neg_pos, orient_position, Int.cast_lt_zero]
  rfl

theorem PositionGenerale.orient_ne_zero (h : PositionGenerale nuage) (hA : A ∈ nuage) (hB : B ∈ nuage) (hC : C ∈ nuage)
    (hAB : A ≠ B) (hAC : A ≠ C) (hBC : B ≠ C) : orient (position A) (position B) (position C) ≠ 0 := by
  rw [orient_position, Int.cast_ne_zero, sub_ne_zero]
  exact h.nonAlignes A hA B hB C hC hAB hAC hBC

/-! ## One scan -/

/-- only the reference point has its own abscissa or ordinate, and the scan never holds it: the aligned branch is
dead -/
theorem PositionGenerale.eq_of_x (h : PositionGenerale nuage) (hp : p ∈ nuage) (hq : q ∈ nuage) (hx : p.x = q.x) :
    p = q :=
  List.inj_on_of_nodup_map h.abscisses hp hq hx

theorem PositionGenerale.eq_of_y (h : PositionGenerale nuage) (hp : p ∈ nuage) (hq : q ∈ nuage) (hy : p.y = q.y) :
    p = q :=
  List.inj_on_of_nodup_map h.ordonnees hp hq hy

theorem balaye_eq (h : PositionGenerale nuage) (hc : Pcourant ∈ nuage) (hl : ∀ q ∈ l, q ∈ nuage) (hP : P ∈ nuage)
    (hne : P ≠ Pcourant) :
    balaye Pcourant l P = l.foldl (fun P Pprime => if EstAGauche P Pcourant Pprime then Pprime else P) P := by
  rw [balaye]
  induction l generalizing P with
  | nil => rfl
  | cons q l ih =>
    obtain ⟨hq, hl⟩ := List.forall_mem_cons.1 hl
    rw [List.foldl_cons, List.foldl_cons]
    by_cases hg : EstAGauche P Pcourant q
    · have hqc : q ≠ Pcourant := by
        rintro rfl
        simp [estAGauche_iff, det] at hg
      rw [if_pos hg, if_pos hg]
      exact ih hl hq hqc
    · have hx : P.x ≠ Pcourant.x := fun he => hne (h.eq_of_x hP hc he)
      have hy : P.y ≠ Pcourant.y := fun he => hne (h.eq_of_y hP hc he)
      rw [if_neg hg, if_neg hg, if_neg (by simp [hx, hy])]
      exact ih hl hP hne

/-- **The scan finds the next vertex**, from any point other than the reference. -/
theorem balaye_arete (h : PositionGenerale nuage) (hc : EstSommet nuage Pcourant) (hP : P ∈ nuage)
    (hne : P ≠ Pcourant) : Arete position {q | q ∈ nuage} Pcourant (balaye Pcourant nuage P) := by
  obtain ⟨w, hw⟩ := hc.exists_separe (List.finite_toSet nuage) position_injective
  -- all the others are on one side of a line through the reference
  have hneg : ∀ q, q ∈ nuage ∧ q ≠ Pcourant → forme w (position q - position Pcourant) < 0 := by
    intro q hq
    rw [forme_sub, sub_neg]
    exact hw q hq.1 hq.2
  have htotal : ∀ q, q ∈ nuage ∧ q ≠ Pcourant → ∀ q', q' ∈ nuage ∧ q' ≠ Pcourant →
      q = q' ∨ EstAGauche q Pcourant q' ∨ EstAGauche q' Pcourant q := by
    intro q hq q' hq'
    by_cases he : q = q'
    · exact .inl he
    · have hor := h.orient_ne_zero hc.1 hq'.1 hq.1 (Ne.symm hq'.2) (Ne.symm hq.2) (Ne.symm he)
      rw [estAGauche_iff, estAGauche_iff, det_swap, neg_pos]
      exact .inr (lt_or_gt_of_ne hor)
  obtain ⟨d, hd, hfold, -, hdernier⟩ := Minimum.foldl_dernier (r := fun P q => EstAGauche P Pcourant q)
    (S := {q | q ∈ nuage ∧ q ≠ Pcourant}) (l := nuage) (m := P)
    (fun a ha b hb c hc hab hbc => by
      rw [estAGauche_iff] at hab hbc ⊢
      exact det_trans (hneg a ha) (hneg b hb) (hneg c hc) hab hbc)
    htotal ⟨hP, hne⟩ (fun q hq => by
      by_cases hqc : q = Pcourant
      · right
        intro y _
        simp [estAGauche_iff, hqc, det]
      · exact .inl ⟨hq, hqc⟩)
  rw [balaye_eq h hc.1 (fun _ hq => hq) hP hne, hfold]
  apply arete_of_det hc.1 hd.1 hd.2
  intro q hq hqc
  exact (hdernier q hq ⟨hq, hqc⟩).imp_right estAGauche_iff.1

/-! ## The lowest point -/

def cle (p : Point) : ℤ ×ₗ ℤ := toLex (p.y, p.x)

theorem plusBas_premier (P : Point) (l : List Point) : Minimum.Premier (cle · ≤ cle ·) (plusBas P l) (P :: l) := by
  have hfold : plusBas P l = l.foldl (fun P0 p => if cle p < cle P0 then p else P0) P := by
    have hpas : ∀ P0 p : Point, (if p.y < P0.y then p else if p.y = P0.y ∧ p.x < P0.x then p else P0) =
        if cle p < cle P0 then p else P0 := by
      intro P0 p
      have hlt : cle p < cle P0 ↔ p.y < P0.y ∨ (p.y = P0.y ∧ p.x < P0.x) := Prod.Lex.toLex_lt_toLex
      by_cases hy : p.y < P0.y
      · rw [if_pos hy, if_pos (hlt.2 (.inl hy))]
      · simp only [hlt, hy, if_false, false_or]
    simp only [plusBas, hpas]
  rw [hfold]
  exact Minimum.foldl_premier cle P l

/-- the point kept is lowest, and leftmost among the lowest -/
theorem plusBas_spec (P : Point) (l : List Point) : plusBas P (P :: l) ∈ P :: l ∧ ∀ q ∈ P :: l,
    (plusBas P (P :: l)).y < q.y ∨ ((plusBas P (P :: l)).y = q.y ∧ (plusBas P (P :: l)).x ≤ q.x) := by
  have hp := plusBas_premier P (P :: l)
  refine ⟨by simpa using hp.mem, ?_⟩
  intro q hq
  have hle : cle (plusBas P (P :: l)) ≤ cle q := hp.le (List.mem_cons_of_mem P hq)
  rwa [cle, cle, Prod.Lex.toLex_le_toLex] at hle

theorem plusBas_sommet (P : Point) (l : List Point) : EstSommet (P :: l) (plusBas P (P :: l)) := by
  obtain ⟨hmem, hle⟩ := plusBas_spec P l
  apply sommet_of_formes (S := {q | q ∈ P :: l}) (0, -1) (-1, 0) hmem
  intro q hq hne
  simp only [forme, position, zero_mul, zero_add, neg_mul, one_mul, add_zero, neg_lt_neg_iff, neg_inj, Int.cast_lt,
    Int.cast_inj]
  rcases hle q hq with hy | ⟨hy, hx⟩
  · exact .inl hy
  · refine .inr ⟨hy.symm, lt_of_le_of_ne hx ?_⟩
    intro he
    cases q
    exact hne (Point.mk.injEq .. ▸ ⟨he.symm, hy.symm⟩)

/-! ## The random points -/

theorem choisir_ok {tirage : ℕ → ℕ} {essais : ℕ} (h : choisir nuage enveloppe tirage essais = .ok p) :
    p ∈ nuage ∧ p ∉ enveloppe := by
  induction essais generalizing tirage with
  | zero => cases h
  | succ essais ih =>
    rw [choisir] at h
    cases hq : nuage[tirage 0]? with
    | none => simp [hq] at h
    | some q =>
      simp only [hq] at h
      split_ifs at h with hin
      · exact ih h
      · obtain rfl := Except.ok.inj h
        exact ⟨List.mem_of_getElem? hq, hin⟩

theorem choisir_mono {tirage : ℕ → ℕ} {essais essais' : ℕ} (h : choisir nuage enveloppe tirage essais = .ok p)
    (hle : essais ≤ essais') : choisir nuage enveloppe tirage essais' = .ok p := by
  induction essais generalizing tirage essais' with
  | zero => cases h
  | succ essais ih =>
    cases essais' with
    | zero => omega
    | succ essais' =>
      rw [choisir] at h ⊢
      cases hq : nuage[tirage 0]? with
      | none => simp [hq] at h
      | some q =>
        simp only [hq] at h ⊢
        split_ifs at h ⊢
        · exact ih h (by omega)
        · exact h

/-- draws that all come up end, when some point is outside the envelope -/
theorem exists_choisir {tirage : ℕ → ℕ} (hdans : ∀ k, tirage k < nuage.length)
    (htous : ∀ i < nuage.length, ∃ k, tirage k = i) (hp : p ∈ nuage) (hpe : p ∉ enveloppe) :
    ∃ essais q, choisir nuage enveloppe tirage essais = .ok q := by
  obtain ⟨i, hi, rfl⟩ := List.getElem_of_mem hp
  obtain ⟨k, hk⟩ := htous i hi
  clear htous
  induction k generalizing tirage with
  | zero => exact ⟨1, nuage[i], by simp [choisir, hk, hi, hpe]⟩
  | succ k ih =>
    have hsuite : ∀ j, (fun k => tirage (k + 1)) j < nuage.length := fun j => hdans (j + 1)
    obtain ⟨essais, q, hq⟩ := ih hsuite hk
    have h0 := hdans 0
    by_cases hin : nuage[tirage 0] ∈ enveloppe
    · exact ⟨essais + 1, q, by simpa [choisir, h0, hin] using hq⟩
    · exact ⟨1, nuage[tirage 0], by simp [choisir, h0, hin]⟩

/-! ## The walk -/

/-- the envelope and the current point so far -/
structure Marche (nuage : List Point) (P0 : Point) (l : List Point) : Prop where
  unique : l.Nodup
  depart : l.head? = some P0
  aretes : l.IsChain (Arete position {q | q ∈ nuage})

theorem Marche.eq_cons (h : Marche nuage P0 l) : ∃ suite, l = P0 :: suite := by
  obtain ⟨_, hd, _⟩ := h
  match l with
  | [] => exact absurd hd (by simp)
  | q :: suite => exact ⟨suite, by rw [Option.some.inj hd]⟩

theorem Marche.sommet (h : Marche nuage P0 l) (h0 : EstSommet nuage P0) (hp : p ∈ l) : EstSommet nuage p := by
  obtain ⟨suite, rfl⟩ := h.eq_cons
  rcases List.mem_cons.1 hp with rfl | hp
  · exact h0
  · obtain ⟨a, -, hap⟩ := exists_pred h.aretes hp
    exact hap.sommet position_injective

theorem Marche.isChain_concat (h : Marche nuage P0 l) (hl : l.getLast? = some Pcourant)
    (ha : Arete position {q | q ∈ nuage} Pcourant p) : (l ++ [p]).IsChain (Arete position {q | q ∈ nuage}) := by
  refine List.isChain_append.2 ⟨h.aretes, List.isChain_singleton p, ?_⟩
  intro x hx y hy
  obtain rfl : Pcourant = x := Option.some.inj (hl.symm.trans hx)
  obtain rfl : p = y := Option.some.inj hy
  exact ha

theorem Marche.pas (h : Marche nuage P0 l) (hl : l.getLast? = some Pcourant)
    (ha : Arete position {q | q ∈ nuage} Pcourant p) (hne : p ≠ P0) : Marche nuage P0 (l ++ [p]) := by
  have hc := h.isChain_concat hl ha
  obtain ⟨suite, rfl⟩ := h.eq_cons
  have hinj : ∀ a b c, Arete position {q | q ∈ nuage} a c → Arete position {q | q ∈ nuage} b c → a = b :=
    fun _ _ _ hac hbc => hac.injective hbc
  exact ⟨nodup_concat hinj h.unique hc hne, rfl, hc⟩

/-- a cloud of three points or more has one outside any pair -/
theorem exists_ne_ne (hn : nuage.Nodup) (h3 : 3 ≤ nuage.length) (a b : Point) :
    ∃ c ∈ {q | q ∈ nuage}, c ≠ a ∧ c ≠ b := by
  by_contra hno
  push Not at hno
  have hsub : nuage ⊆ [a, b] := by
    intro c hc
    by_cases hca : c = a
    · simp [hca]
    · simp [hno c hc hca]
  have hle := (hn.subperm hsub).length_le
  simp only [List.length_cons, List.length_nil] at hle
  omega

/-- back at the start, the walk is the hull -/
theorem Marche.ferme (hn : nuage.Nodup) (h3 : 3 ≤ nuage.length) (h : Marche nuage P0 l)
    (hl : l.getLast? = some Pcourant) (ha : Arete position {q | q ∈ nuage} Pcourant P0)
    (h0 : ∀ q ∈ nuage, P0.y ≤ q.y) : Enveloppe nuage l := by
  have hc := h.isChain_concat hl ha
  obtain ⟨suite, rfl⟩ := h.eq_cons
  refine ⟨h.unique, ?_, P0, suite, rfl, h0, hc⟩
  intro p
  exact Tour.mem_iff (List.finite_toSet nuage) position_injective (exists_ne_ne hn h3) hc

/-- a turn goes along an edge -/
theorem Marche.balaye_arete {tirage : ℕ → ℕ} {essais : ℕ} (hg : PositionGenerale nuage) (h0 : EstSommet nuage P0)
    (h : Marche nuage P0 (enveloppe ++ [Pcourant]))
    (hP : choisir nuage (enveloppe ++ [Pcourant]) tirage essais = .ok P) :
    Arete position {q | q ∈ nuage} Pcourant (balaye Pcourant nuage P) := by
  obtain ⟨hmem, hnot⟩ := choisir_ok hP
  apply Geometrie.balaye_arete hg (h.sommet h0 (by simp)) hmem
  rintro rfl
  simp at hnot

theorem boucle_succ {essais tours : ℕ}
    (hP : choisir nuage (enveloppe ++ [Pcourant]) (tirages (enveloppe ++ [Pcourant]).length) essais = .ok P) :
    boucle nuage P0 tirages essais (tours + 1) enveloppe Pcourant =
      if balaye Pcourant nuage P ≠ P0 then
        boucle nuage P0 tirages essais tours (enveloppe ++ [Pcourant]) (balaye Pcourant nuage P)
      else .ok (enveloppe ++ [Pcourant]) := by
  rw [boucle, hP]
  rfl

theorem choisir_of_boucle {essais tours : ℕ}
    (hr : boucle nuage P0 tirages essais (tours + 1) enveloppe Pcourant = .ok l) :
    ∃ P, choisir nuage (enveloppe ++ [Pcourant]) (tirages (enveloppe ++ [Pcourant]).length) essais = .ok P := by
  rw [boucle] at hr
  generalize choisir _ _ _ _ = r at hr ⊢
  cases r with
  | error e => cases hr
  | ok P => exact ⟨P, rfl⟩

theorem boucle_mono {essais essais' tours : ℕ} (hle : essais ≤ essais')
    (hr : boucle nuage P0 tirages essais tours enveloppe Pcourant = .ok l) :
    boucle nuage P0 tirages essais' tours enveloppe Pcourant = .ok l := by
  induction tours generalizing enveloppe Pcourant with
  | zero => cases hr
  | succ tours ih =>
    obtain ⟨P, hP⟩ := choisir_of_boucle hr
    rw [boucle_succ hP] at hr
    rw [boucle_succ (choisir_mono hP hle)]
    split_ifs at hr ⊢
    · exact ih hr
    · exact hr

section run

variable {essais tours : ℕ} (hg : PositionGenerale nuage) (h3 : 3 ≤ nuage.length) (h0 : EstSommet nuage P0)
  (hbas : ∀ q ∈ nuage, P0.y ≤ q.y)
include hg h3 h0 hbas

/-- **A run that ends gives the hull**, and some point of the cloud is not on it. -/
theorem Marche.boucle_ok (h : Marche nuage P0 (enveloppe ++ [Pcourant]))
    (hr : boucle nuage P0 tirages essais tours enveloppe Pcourant = .ok l) :
    Enveloppe nuage l ∧ ∃ p ∈ nuage, p ∉ l := by
  induction tours generalizing enveloppe Pcourant with
  | zero => cases hr
  | succ tours ih =>
    obtain ⟨P, hP⟩ := choisir_of_boucle hr
    rw [boucle_succ hP] at hr
    obtain ⟨hmem, hnot⟩ := choisir_ok hP
    have ha := h.balaye_arete hg h0 hP
    split_ifs at hr with hne
    · exact ih (h.pas (by simp) ha hne) hr
    · obtain rfl := Except.ok.inj hr
      rw [not_not.1 hne] at ha
      exact ⟨h.ferme (List.Nodup.of_map _ hg.abscisses) h3 (by simp) ha hbas, P, hmem, hnot⟩

omit h3 hbas in
/-- **With a point that is no vertex the run ends**: every call of choisir can return, and no vertex comes twice. -/
theorem Marche.boucle_finit (ht : Tirages nuage tirages) (hp : p ∈ nuage) (hps : ¬ EstSommet nuage p)
    (h : Marche nuage P0 (enveloppe ++ [Pcourant])) :
    ∃ essais tours l, boucle nuage P0 tirages essais tours enveloppe Pcourant = .ok l := by
  have hlen : ∀ e : List Point, Marche nuage P0 e → e.length ≤ nuage.length := fun e he =>
    (he.unique.subperm fun q hq => (he.sommet h0 hq).1).length_le
  -- the places left in the envelope
  obtain ⟨k, hk⟩ : ∃ k, nuage.length ≤ enveloppe.length + k := ⟨nuage.length, by omega⟩
  induction k generalizing enveloppe Pcourant with
  | zero =>
    have hle := hlen _ h
    rw [List.length_append, List.length_singleton] at hle
    omega
  | succ k ih =>
    have hpe : p ∉ enveloppe ++ [Pcourant] := fun hin => hps (h.sommet h0 hin)
    obtain ⟨hdans, htous⟩ := ht (enveloppe ++ [Pcourant]).length
    obtain ⟨essais, P, hP⟩ := exists_choisir hdans htous hp hpe
    have ha := h.balaye_arete hg h0 hP
    by_cases hne : balaye Pcourant nuage P ≠ P0
    · have hk' : nuage.length ≤ (enveloppe ++ [Pcourant]).length + k := by
        rw [List.length_append, List.length_singleton]
        omega
      obtain ⟨essais', tours, l, hr⟩ := ih (h.pas (by simp) ha hne) hk'
      refine ⟨max essais essais', tours + 1, l, ?_⟩
      rw [boucle_succ (choisir_mono hP (le_max_left ..)), if_pos hne]
      exact boucle_mono (le_max_right ..) hr
    · exact ⟨essais, 1, _, by rw [boucle_succ hP, if_neg hne]⟩

end run

/-! ## The algorithm -/

theorem algoJarvis_cons (P : Point) (l : List Point) (tirages : ℕ → ℕ → ℕ) (essais tours : ℕ) :
    algoJarvis (P :: l) tirages essais tours =
      boucle (P :: l) (plusBas P (P :: l)) tirages essais tours [] (plusBas P (P :: l)) := rfl

theorem marche_depart (P0 : Point) : Marche nuage P0 ([] ++ [P0]) :=
  ⟨List.nodup_singleton P0, rfl, List.isChain_singleton P0⟩

theorem plusBas_le (P : Point) (l : List Point) (hq : q ∈ P :: l) : (plusBas P (P :: l)).y ≤ q.y := by
  rcases (plusBas_spec P l).2 q hq with h | h
  · exact h.le
  · exact h.1.le

/-- whatever is returned is the hull, and then some point of the cloud is no vertex -/
theorem algoJarvis_ok {essais tours : ℕ} (hg : PositionGenerale nuage) (h3 : 3 ≤ nuage.length)
    (hr : algoJarvis nuage tirages essais tours = .ok l) :
    Enveloppe nuage l ∧ ∃ p ∈ nuage, ¬ EstSommet nuage p := by
  match nuage with
  | [] => simp at h3
  | P :: suite =>
    rw [algoJarvis_cons] at hr
    obtain ⟨he, p, hp, hpl⟩ := (marche_depart _).boucle_ok hg h3 (plusBas_sommet P suite)
      (fun q hq => plusBas_le P suite hq) hr
    exact ⟨he, p, hp, fun hs => hpl ((he.sommets p).2 hs)⟩

/-- **The algorithm ends with the hull exactly when some point of the cloud is no vertex of it**, for every sequence of
draws in which each index comes up. -/
theorem algoJarvis_enveloppe_iff (hg : PositionGenerale nuage) (h3 : 3 ≤ nuage.length) (ht : Tirages nuage tirages) :
    (∃ essais tours l, algoJarvis nuage tirages essais tours = .ok l ∧ Enveloppe nuage l) ↔
      ∃ p ∈ nuage, ¬ EstSommet nuage p := by
  apply Iff.intro
  · rintro ⟨essais, tours, l, hr, -⟩
    exact (algoJarvis_ok hg h3 hr).2
  · rintro ⟨p, hp, hps⟩
    match nuage with
    | [] => simp at hp
    | P :: suite =>
      obtain ⟨essais, tours, l, hr⟩ := (marche_depart _).boucle_finit hg (plusBas_sommet P suite) ht hp hps
      rw [← algoJarvis_cons] at hr
      exact ⟨essais, tours, l, hr, (algoJarvis_ok hg h3 hr).1⟩

theorem tirages_mod (h : nuage ≠ []) : Tirages nuage (fun _ k => k % nuage.length) := by
  intro appel
  refine ⟨fun k => Nat.mod_lt k (List.length_pos_iff.2 h), ?_⟩
  intro i hi
  exact ⟨i, Nat.mod_eq_of_lt hi⟩

def quatrePoints : List Point := [⟨0, 0⟩, ⟨10, 1⟩, ⟨4, 9⟩, ⟨5, 3⟩]

theorem quatrePoints_enveloppe : ∃ essais tours l,
    algoJarvis quatrePoints (fun _ k => k % quatrePoints.length) essais tours = .ok l ∧ Enveloppe quatrePoints l := by
  apply (algoJarvis_enveloppe_iff ⟨by decide, by decide, by decide⟩ (by decide)
    (tirages_mod (by simp [quatrePoints]))).2
  refine ⟨⟨5, 3⟩, by decide, ?_⟩
  intro hs
  -- the last point is inside the triangle of the others
  obtain ⟨w, hw⟩ := hs.exists_separe (List.finite_toSet quatrePoints) position_injective
  have h₁ := hw ⟨0, 0⟩ (by simp [quatrePoints]) (by simp)
  have h₂ := hw ⟨10, 1⟩ (by simp [quatrePoints]) (by simp)
  have h₃ := hw ⟨4, 9⟩ (by simp [quatrePoints]) (by simp)
  simp only [forme, position] at h₁ h₂ h₃
  push_cast at h₁ h₂ h₃
  linarith

def triangle : List Point := [⟨0, 0⟩, ⟨1, 2⟩, ⟨2, 1⟩]

theorem triangle_positionGenerale : PositionGenerale triangle :=
  ⟨by decide, by decide, by decide⟩

theorem triangle_sommets : ∀ p ∈ triangle, EstSommet triangle p := by
  have hsommet : ∀ p ∈ triangle, ∀ w : ℝ × ℝ,
      (∀ q ∈ triangle, q ≠ p → forme w (position q) < forme w (position p)) → EstSommet triangle p :=
    fun p hp w hw => sommet_of_formes (S := {q | q ∈ triangle}) w 0 hp fun q hq hqp => .inl (hw q hq hqp)
  intro p hp
  simp only [triangle, List.mem_cons, List.not_mem_nil, or_false] at hp
  rcases hp with rfl | rfl | rfl
  · apply hsommet _ (by decide) (-1, -1)
    simp [triangle, forme, position]
    norm_num
  · apply hsommet _ (by decide) (-1, 2)
    simp [triangle, forme, position]
    norm_num
  · apply hsommet _ (by decide) (2, -1)
    simp [triangle, forme, position]
    norm_num

/-- **A triangle keeps choisir drawing for ever.** -/
theorem triangle_sans_fin : PositionGenerale triangle ∧ 3 ≤ triangle.length ∧ Tirages triangle (fun _ k => k % 3) ∧
    ∀ essais tours l, algoJarvis triangle (fun _ k => k % 3) essais tours ≠ .ok l := by
  refine ⟨triangle_positionGenerale, le_rfl, tirages_mod (by simp [triangle]), ?_⟩
  intro essais tours l hr
  obtain ⟨-, p, hp, hps⟩ := algoJarvis_ok triangle_positionGenerale le_rfl hr
  exact hps (triangle_sommets p hp)

end Semestre6.Geometrie
