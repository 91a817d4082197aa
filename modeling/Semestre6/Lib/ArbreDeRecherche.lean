/-
When a best-first search never queues a state twice. As long as it does not, it goes through the tree of the paths from
the start, and the order in which it extracts them is known in advance.

- `Precede`: by estimate up to the bound, then by the order of the parents, then by rank among siblings;
- `Parcours`, `Ordre`: the search of the tree extracts the paths in that order;
- `Execution.parcours`: a search that has not queued a state twice is the search of the tree;
- `Unique`: no two paths that come no later than every path to a goal have a common successor;
- `Unique.nodup`, `unique_of_nodup`: the states queued are all different exactly when the paths are `Unique`;
- `Execution.length_le`: such a search of a finite set of states is bounded.
-/
import Semestre6.Lib.MeilleurDabord

namespace Semestre6.MeilleurDabord

variable {σ : Type*} [DecidableEq σ] (succ : σ → List σ) (h : σ → ℤ) (borne : ℤ) (but : σ → Prop) (s₀ : σ)

/-! ## Paths -/

/-- a path from the start, its last state first -/
inductive Noeud : List σ → Prop
  | racine : Noeud [s₀]
  | pas {x l z} : Noeud (x :: l) → z ∈ succ x → Noeud (z :: x :: l)

/-- the last state of a path and its length -/
def entree : List σ → σ × ℤ
  | [] => (s₀, 0)
  | x :: l => (x, l.length)

def enfants : List σ → List (List σ)
  | [] => []
  | x :: l => (succ x).map fun z => z :: x :: l

/-- the rank of a path among those with the same parent -/
def rang (l : List σ) (x : σ) : ℕ :=
  match l with
  | [] => 0
  | p :: _ => (succ p).idxOf x

/-- the order of extraction -/
def Precede : List σ → List σ → Prop
  | [], [] => False
  | [], _ :: _ => True
  | _ :: _, [] => False
  | x :: l, y :: m =>
    cle h borne (x, (l.length : ℤ)) < cle h borne (y, (m.length : ℤ)) ∨
      cle h borne (x, (l.length : ℤ)) = cle h borne (y, (m.length : ℤ)) ∧
        (Precede l m ∨ l = m ∧ rang succ l x < rang succ m y)

/-- the order in which paths join the queue -/
def Rejoint : List σ → List σ → Prop
  | x :: l, y :: m => Precede succ h borne l m ∨ l = m ∧ rang succ l x < rang succ m y
  | _, _ => False

/-- the search of the tree: paths are never compared -/
inductive Parcours : List (List σ) → List (List σ) → Prop
  | debut : Parcours [] [[s₀]]
  | pas {E file p reste} : Parcours E file → (∀ q ∈ E, ¬ but (entree s₀ q).1) →
      Extrait (fun q => cle h borne (entree s₀ q)) file p reste → Parcours (E ++ [p]) (reste ++ enfants succ p)

variable {succ h borne but s₀} {E file : List (List σ)} {p q c : List σ}

theorem precede_asymm : Precede succ h borne p q → ¬ Precede succ h borne q p := by
  induction p generalizing q with
  | nil => cases q <;> simp [Precede]
  | cons x l ih =>
    cases q with
    | nil => simp [Precede]
    | cons y m =>
      have hirr : ¬ Precede succ h borne l l := fun h => ih h h
      rintro (h₁ | ⟨h₁, h₁'⟩) (h₂ | ⟨h₂, h₂'⟩)
      · exact lt_asymm h₁ h₂
      · omega
      · omega
      · rcases h₁' with h₁' | ⟨rfl, h₁'⟩ <;> rcases h₂' with h₂' | ⟨h₂', h₃⟩
        · exact ih h₁' h₂'
        · exact hirr (h₂' ▸ h₁')
        · exact hirr h₂'
        · omega

theorem precede_irrefl (p : List σ) : ¬ Precede succ h borne p p := fun h => precede_asymm h h

theorem precede_cle (s₀ : σ) (hp : p ≠ []) (hq : q ≠ []) (hpq : Precede succ h borne p q) :
    cle h borne (entree s₀ p) ≤ cle h borne (entree s₀ q) := by
  match p, q with
  | [], _ => exact absurd rfl hp
  | _ :: _, [] => exact absurd rfl hq
  | x :: l, y :: m =>
    rcases hpq with hlt | ⟨heq, _⟩
    · exact hlt.le
    · exact heq.le

/-- of two paths in the queue, the one that joined it first precedes an equal one -/
theorem precede_of_rejoint (hle : cle h borne (entree s₀ p) ≤ cle h borne (entree s₀ q))
    (hr : Rejoint succ h borne p q) : Precede succ h borne p q := by
  match p, q with
  | [], _ => exact hr.elim
  | _ :: _, [] => exact hr.elim
  | x :: l, y :: m =>
    rcases hle.lt_or_eq with hlt | heq
    · exact .inl hlt
    · exact .inr ⟨heq, hr⟩

theorem precede_of_lt (hp : p ≠ []) (hq : q ≠ []) (hlt : cle h borne (entree s₀ p) < cle h borne (entree s₀ q)) :
    Precede succ h borne p q := by
  match p, q with
  | [], _ => exact absurd rfl hp
  | _ :: _, [] => exact absurd rfl hq
  | x :: l, y :: m => exact .inl hlt

omit [DecidableEq σ] in
theorem mem_enfants : c ∈ enfants succ p ↔ ∃ x l z, p = x :: l ∧ z ∈ succ x ∧ c = z :: x :: l := by
  cases p with
  | nil => simp [enfants]
  | cons x l =>
    simp only [enfants, List.mem_map]
    constructor
    · rintro ⟨z, hz, rfl⟩
      exact ⟨x, l, z, rfl, hz, rfl⟩
    · rintro ⟨y, m, z, hp, hz, rfl⟩
      obtain ⟨rfl, rfl⟩ := List.cons.inj hp
      exact ⟨z, hz, rfl⟩

section

variable (hcons : ∀ x, ∀ z ∈ succ x, h x ≤ h z + 1)
include hcons

omit [DecidableEq σ] in
theorem cle_enfant (borne : ℤ) (s₀ : σ) (hc : c ∈ enfants succ p) :
    cle h borne (entree s₀ p) ≤ cle h borne (entree s₀ c) := by
  obtain ⟨x, l, z, rfl, hz, rfl⟩ := mem_enfants.1 hc
  have hxz := hcons x z hz
  simp only [entree, cle, estime, List.length_cons]
  push_cast
  omega

/-- what a set of paths closed under parents precedes, it precedes below too -/
theorem precede_enfant (hpar : ∀ x l, x :: l ∈ E → l = [] ∨ l ∈ E) (hE : ∀ q ∈ E, Precede succ h borne q p)
    (hc : c ∈ enfants succ p) : ∀ q ∈ E, Precede succ h borne q c := by
  obtain ⟨x, l, z, rfl, hz, rfl⟩ := mem_enfants.1 hc
  have hle := cle_enfant hcons borne x hc
  intro q hq
  match q with
  | [] => trivial
  | y :: m =>
    have hqp := hE _ hq
    have hqc := (precede_cle x (List.cons_ne_nil y m) (List.cons_ne_nil x l) hqp).trans hle
    apply precede_of_rejoint hqc
    rcases hpar y m hq with rfl | hm
    · exact .inl trivial
    · exact .inl (hE m hm)

end

/-! ## The order of extraction -/

/-- the invariant of the search of the tree -/
structure Ordre (succ : σ → List σ) (h : σ → ℤ) (borne : ℤ) (s₀ : σ) (E file : List (List σ)) : Prop where
  noeud : ∀ p ∈ E ++ file, Noeud succ s₀ p
  racine : [s₀] ∈ E ∨ (E = [] ∧ file = [[s₀]])
  clos : ∀ p ∈ E, ∀ c ∈ enfants succ p, c ∈ E ++ file
  parent : ∀ x l, x :: l ∈ E ++ file → l = [] ∨ l ∈ E
  croissant : E.Pairwise (Precede succ h borne)
  avant : ∀ p ∈ E, ∀ q ∈ file, Precede succ h borne p q
  rejoint : file.Pairwise (Rejoint succ h borne)

omit [DecidableEq σ] in
theorem Noeud.ne_nil (hp : Noeud succ s₀ p) : p ≠ [] := by
  cases hp <;> simp

theorem rang_pairwise {l : List σ} (hl : l.Nodup) : l.Pairwise fun a b => l.idxOf a < l.idxOf b := by
  rw [List.pairwise_iff_getElem]
  intro i j hi hj hij
  rwa [hl.idxOf_getElem i hi, hl.idxOf_getElem j hj]

/-- before the first step -/
theorem ordre_debut : Ordre succ h borne s₀ [] [[s₀]] := by
  refine ⟨?_, .inr ⟨rfl, rfl⟩, by simp, ?_, List.Pairwise.nil, by simp, List.pairwise_singleton _ _⟩
  · intro p hp
    obtain rfl : p = [s₀] := by simpa using hp
    exact .racine
  · intro x l hl
    obtain ⟨rfl, rfl⟩ : x = s₀ ∧ l = [] := by simpa using hl
    exact .inl rfl

section pas

variable {reste : List (List σ)} {q : List σ} (hO : Ordre succ h borne s₀ E file)
  (hext : Extrait (fun q => cle h borne (entree s₀ q)) file p reste)
include hO hext

omit hO [DecidableEq σ] in
/-- a step loses no path and adds the children of the one that it extracts -/
theorem mem_pas : q ∈ (E ++ [p]) ++ (reste ++ enfants succ p) ↔ q ∈ E ++ file ∨ q ∈ enfants succ p := by
  simp only [List.mem_append, List.mem_singleton, hext.mem_iff]
  tauto

theorem Ordre.noeud_extrait : Noeud succ s₀ p := hO.noeud p (List.mem_append_right _ (hext.mem_iff.2 (.inl rfl)))

theorem Ordre.precede_extrait : ∀ q ∈ E, Precede succ h borne q p :=
  fun q hq => hO.avant q hq p (hext.mem_iff.2 (.inl rfl))

/-- the path that leaves the queue precedes those that stay -/
theorem Ordre.precede_reste : ∀ q ∈ reste, Precede succ h borne p q := by
  have hnp := (hO.noeud_extrait hext).ne_nil
  intro q hq
  have hqn := (hO.noeud q (List.mem_append_right _ (hext.mem_iff.2 (.inr hq)))).ne_nil
  obtain ⟨l₁, l₂, hf, hr, h₁, h₂⟩ := hext
  rw [hr] at hq
  rcases List.mem_append.1 hq with hq | hq
  · exact precede_of_lt hnp hqn (h₁ q hq)
  · have hpw := (List.pairwise_append.1 (hf ▸ hO.rejoint)).2.1
    exact precede_of_rejoint (h₂ q hq) ((List.pairwise_cons.1 hpw).1 q hq)

/-- and its own children -/
theorem Ordre.precede_enfants (hcons : ∀ x, ∀ z ∈ succ x, h x ≤ h z + 1) :
    ∀ c ∈ enfants succ p, Precede succ h borne p c := by
  intro c hc
  apply precede_of_rejoint (cle_enfant hcons borne s₀ hc)
  obtain ⟨x, l, z, rfl, hz, rfl⟩ := mem_enfants.1 hc
  -- the parent of the path precedes it
  rcases hO.parent x l (List.mem_append_right _ (hext.mem_iff.2 (.inl rfl))) with rfl | hl
  · exact .inl trivial
  · exact .inl (hO.precede_extrait hext l hl)

theorem Ordre.avant_pas (hcons : ∀ x, ∀ z ∈ succ x, h x ≤ h z + 1) :
    ∀ q ∈ E ++ [p], ∀ r ∈ reste ++ enfants succ p, Precede succ h borne q r := by
  have hpar : ∀ x l, x :: l ∈ E → l = [] ∨ l ∈ E := fun x l hl => hO.parent x l (List.mem_append_left _ hl)
  intro q hq r hr
  rcases List.mem_append.1 hq with hq | hq <;> rcases List.mem_append.1 hr with hr | hr
  · exact hO.avant q hq r (hext.mem_iff.2 (.inr hr))
  · exact precede_enfant hcons hpar (hO.precede_extrait hext) hr q hq
  · rw [List.mem_singleton.1 hq]
    exact hO.precede_reste hext r hr
  · rw [List.mem_singleton.1 hq]
    exact hO.precede_enfants hext hcons r hr

/-- the children join the queue after all that it holds, in their order -/
theorem Ordre.rejoint_pas (hnd : ∀ x, (succ x).Nodup) : (reste ++ enfants succ p).Pairwise (Rejoint succ h borne) := by
  refine List.pairwise_append.2 ⟨?_, ?_, ?_⟩
  · obtain ⟨l₁, l₂, hf, hr, _⟩ := hext
    rw [hr]
    refine List.Pairwise.sublist ?_ (hf ▸ hO.rejoint)
    exact List.Sublist.append_left (List.sublist_cons_self p l₂) l₁
  · match p with
    | [] => exact List.Pairwise.nil
    | x :: l =>
      rw [enfants, List.pairwise_map]
      exact (rang_pairwise (hnd x)).imp fun hlt => .inr ⟨rfl, hlt⟩
  · intro q hq c hc
    have hqf : q ∈ E ++ file := List.mem_append_right _ (hext.mem_iff.2 (.inr hq))
    obtain ⟨x, l, z, rfl, hz, rfl⟩ := mem_enfants.1 hc
    match q with
    | [] => exact absurd rfl (hO.noeud _ hqf).ne_nil
    | y :: m =>
      rcases hO.parent y m hqf with rfl | hm
      · exact .inl trivial
      · exact .inl (hO.precede_extrait hext m hm)

theorem Ordre.pas (hcons : ∀ x, ∀ z ∈ succ x, h x ≤ h z + 1) (hnd : ∀ x, (succ x).Nodup) :
    Ordre succ h borne s₀ (E ++ [p]) (reste ++ enfants succ p) where
  noeud := by
    intro q hq
    rcases (mem_pas hext).1 hq with hq | hq
    · exact hO.noeud q hq
    · obtain ⟨x, l, z, rfl, hz, rfl⟩ := mem_enfants.1 hq
      exact (hO.noeud_extrait hext).pas hz
  racine := by
    left
    rcases hO.racine with h0 | ⟨_, rfl⟩
    · exact List.mem_append_left _ h0
    · have hp : p ∈ [[s₀]] := hext.mem_iff.2 (.inl rfl)
      rw [List.mem_singleton.1 hp]
      exact List.mem_append_right _ (List.mem_singleton_self _)
  clos := by
    intro q hq c hc
    rw [mem_pas hext]
    rcases List.mem_append.1 hq with hq | hq
    · exact .inl (hO.clos q hq c hc)
    · rw [List.mem_singleton.1 hq] at hc
      exact .inr hc
  parent := by
    intro x l hl
    rcases (mem_pas hext).1 hl with hl | hl
    · exact (hO.parent x l hl).imp_right (List.mem_append_left _)
    · obtain ⟨y, m, z, rfl, hz, he⟩ := mem_enfants.1 hl
      obtain ⟨rfl, rfl⟩ := List.cons.inj he
      exact .inr (List.mem_append_right _ (List.mem_singleton_self _))
  croissant := by
    refine List.pairwise_append.2 ⟨hO.croissant, List.pairwise_singleton _ _, ?_⟩
    intro q hq r hr
    rw [List.mem_singleton.1 hr]
    exact hO.precede_extrait hext q hq
  avant := hO.avant_pas hext hcons
  rejoint := hO.rejoint_pas hext hnd

end pas

theorem Parcours.ordre (hcons : ∀ x, ∀ z ∈ succ x, h x ≤ h z + 1) (hnd : ∀ x, (succ x).Nodup)
    (hE : Parcours succ h borne but s₀ E file) : Ordre succ h borne s₀ E file := by
  induction hE with
  | debut => exact ordre_debut
  | pas _ _ hext ih => exact ih.pas hext hcons hnd

/-- a path that has not been extracted comes after all those that have -/
theorem Ordre.mem_or_avant (hcons : ∀ x, ∀ z ∈ succ x, h x ≤ h z + 1) (hO : Ordre succ h borne s₀ E file)
    (hp : Noeud succ s₀ p) : p ∈ E ∨ ∀ q ∈ E, Precede succ h borne q p := by
  induction hp with
  | racine =>
    rcases hO.racine with h0 | ⟨rfl, _⟩
    · exact .inl h0
    · exact .inr (by simp)
  | @pas x l z hn hz ih =>
    have hc : z :: x :: l ∈ enfants succ (x :: l) := mem_enfants.2 ⟨x, l, z, rfl, hz, rfl⟩
    rcases ih with hl | hl
    · rcases List.mem_append.1 (hO.clos _ hl _ hc) with h0 | h0
      · exact .inl h0
      · exact .inr fun q hq => hO.avant q hq _ h0
    · have hpar : ∀ y m, y :: m ∈ E → m = [] ∨ m ∈ E := fun y m hm => hO.parent y m (List.mem_append_left _ hm)
      exact .inr (precede_enfant hcons hpar hl hc)

/-- an empty queue: every path has been extracted -/
theorem Ordre.mem_of_vide (hO : Ordre succ h borne s₀ E []) (hp : Noeud succ s₀ p) : p ∈ E := by
  induction hp with
  | racine =>
    rcases hO.racine with h0 | ⟨_, h0⟩
    · exact h0
    · exact absurd h0 (by simp)
  | @pas x l z hn hz ih => simpa using hO.clos _ ih _ (mem_enfants.2 ⟨x, l, z, rfl, hz, rfl⟩)

omit [DecidableEq σ] in
/-- a goal ends the run -/
theorem Parcours.but_dernier (hE : Parcours succ h borne but s₀ E file) {g : List σ} (hg : g ∈ E)
    (hbut : but (entree s₀ g).1) : ∃ E', E = E' ++ [g] := by
  cases hE with
  | debut => exact absurd hg List.not_mem_nil
  | @pas E' _ p _ _ hn _ =>
    rcases List.mem_append.1 hg with hg | hg
    · exact absurd hbut (hn g hg)
    · exact ⟨E', by rw [List.mem_singleton.1 hg]⟩

/-! ## No state queued twice -/

variable (succ h borne but s₀) in
/-- a path that comes no later than any path to a goal -/
def Utile (p : List σ) : Prop :=
  Noeud succ s₀ p ∧ ∀ g, Noeud succ s₀ g → but (entree s₀ g).1 → ¬ Precede succ h borne g p

variable (succ h borne but s₀) in
/-- two such paths have no common successor -/
def Unique : Prop :=
  ∀ p q, Utile succ h borne but s₀ p → Utile succ h borne but s₀ q →
    ∀ z ∈ succ (entree s₀ p).1, z ∈ succ (entree s₀ q).1 → p = q

theorem Parcours.utile (hcons : ∀ x, ∀ z ∈ succ x, h x ≤ h z + 1) (hnd : ∀ x, (succ x).Nodup)
    (hE : Parcours succ h borne but s₀ E file) (hp : p ∈ E) : Utile succ h borne but s₀ p := by
  have hO := hE.ordre hcons hnd
  refine ⟨hO.noeud p (List.mem_append_left _ hp), fun g hg hbut hgp => ?_⟩
  rcases hO.mem_or_avant hcons hg with hin | hav
  · obtain ⟨E', rfl⟩ := hE.but_dernier hin hbut
    rcases List.mem_append.1 hp with hp | hp
    · exact precede_asymm hgp ((List.pairwise_append.1 hO.croissant).2.2 p hp g (by simp))
    · exact precede_irrefl g (List.mem_singleton.1 hp ▸ hgp)
  · exact precede_asymm hgp (hav p hp)

section appels

variable {F : List (σ × ℤ)} {X : List (σ × ℤ)} {e : σ × ℤ} {reste : List (σ × ℤ)}

variable (succ) in
omit [DecidableEq σ] in
/-- the states handed to the queue by the entries extracted -/
def appels (X : List (σ × ℤ)) : List σ := X.flatMap fun e => succ e.1

theorem developpe_eq {l : List σ} {g : ℤ} (hl : l.Nodup) (hd : ∀ z ∈ l, z ∉ F.map Prod.fst) :
    developpe F l g = F ++ l.map fun z => (z, g) := by
  induction l generalizing F with
  | nil => exact (List.append_nil F).symm
  | cons z l ih =>
    obtain ⟨hz, hl⟩ := List.nodup_cons.1 hl
    have hF : inserer F (z, g) = F ++ [(z, g)] := if_neg (hd z (List.mem_cons_self ..))
    have hd' : ∀ y ∈ l, y ∉ (F ++ [(z, g)]).map Prod.fst := by
      intro y hy hin
      rw [List.map_append, List.mem_append] at hin
      rcases hin with hin | hin
      · exact hd y (List.mem_cons_of_mem z hy) hin
      · obtain rfl : y = z := by simpa using hin
        exact hz hy
    calc developpe F (z :: l) g = developpe (inserer F (z, g)) l g := rfl
      _ = (F ++ [(z, g)]) ++ l.map fun z => (z, g) := by rw [hF, ih hl hd']
      _ = F ++ (z :: l).map fun z => (z, g) := by simp

/-- the queue holds no successor of the entry that leaves it -/
theorem Ordre.absent {z : σ} (hO : Ordre succ h borne s₀ E file) {reste : List (List σ)}
    (hext : Extrait (fun q => cle h borne (entree s₀ q)) file p reste)
    (hn : (appels succ ((E ++ [p]).map (entree s₀))).Nodup) (hz : z ∈ succ (entree s₀ p).1) :
    z ∉ (reste.map (entree s₀)).map Prod.fst := by
  intro hin
  obtain ⟨q, hq, rfl⟩ : ∃ q ∈ reste, (entree s₀ q).1 = z := by simpa using hin
  have hqf : q ∈ file := hext.mem_iff.2 (.inr hq)
  have hqn := hO.noeud q (List.mem_append_right _ hqf)
  cases hqn with
  | racine =>
    rcases hO.racine with h0 | ⟨_, h0⟩
    · exact precede_irrefl _ (hO.avant _ h0 _ hqf)
    · -- the start alone in the queue: it is the entry that leaves
      obtain ⟨l₁, l₂, hf, rfl, _⟩ := hext
      have hlen := congrArg List.length (hf.symm.trans h0)
      simp only [List.length_append, List.length_cons, List.length_nil] at hlen
      have hpos := List.length_pos_of_mem hq
      rw [List.length_append] at hpos
      omega
  | @pas x l y _ hy =>
    have hm : x :: l ∈ E := (hO.parent y _ (List.mem_append_right _ hqf)).resolve_left (List.cons_ne_nil x l)
    have hyE : y ∈ appels succ (E.map (entree s₀)) :=
      List.mem_flatMap.2 ⟨_, List.mem_map_of_mem hm, hy⟩
    rw [List.map_append, appels, List.flatMap_append] at hn
    exact (List.nodup_append.1 hn).2.2 y hyE y (List.mem_flatMap.2 ⟨_, List.mem_singleton_self _, hz⟩) rfl

/-- as long as no state is queued twice, the search is the search of the tree -/
theorem Execution.parcours (hcons : ∀ x, ∀ z ∈ succ x, h x ≤ h z + 1) (hnd : ∀ x, (succ x).Nodup)
    (hX : Execution succ h borne but s₀ X F) (hn : (appels succ X).Nodup) :
    ∃ E file, Parcours succ h borne but s₀ E file ∧ X = E.map (entree s₀) ∧ F = file.map (entree s₀) := by
  induction hX with
  | debut => exact ⟨[], [[s₀]], .debut, rfl, rfl⟩
  | @pas X F e reste _ hbut hext ih =>
    have hn' := hn
    rw [appels, List.flatMap_append] at hn'
    obtain ⟨E, file, hE, rfl, rfl⟩ := ih (List.nodup_append.1 hn').1
    obtain ⟨p, reste', hext', rfl, rfl⟩ := hext.of_map
    have hbut' : ∀ q ∈ E, ¬ but (entree s₀ q).1 := fun q hq => hbut _ (List.mem_map_of_mem hq)
    have hO := hE.ordre hcons hnd
    have hp := (hO.noeud p (List.mem_append_right _ (hext'.mem_iff.2 (.inl rfl)))).ne_nil
    refine ⟨E ++ [p], _, hE.pas hbut' hext', by simp, ?_⟩
    rw [developpe_eq (hnd _) fun z hz => hO.absent hext' (by simpa using hn) hz, List.map_append]
    match p with
    | [] => exact absurd rfl hp
    | x :: l => simp [enfants, entree]

omit [DecidableEq σ] in
theorem appels_map : appels succ (E.map (entree s₀)) = E.flatMap fun p => succ (entree s₀ p).1 := by
  rw [appels, List.flatMap_map]

theorem Unique.nodup (hcons : ∀ x, ∀ z ∈ succ x, h x ≤ h z + 1) (hnd : ∀ x, (succ x).Nodup)
    (hU : Unique succ h borne but s₀) (hX : Execution succ h borne but s₀ X F) : (appels succ X).Nodup := by
  induction hX with
  | debut => exact List.nodup_nil
  | @pas X F e reste hX hbut hext ih =>
    obtain ⟨E, file, hE, rfl, rfl⟩ := hX.parcours hcons hnd ih
    obtain ⟨p, reste', hext', rfl, rfl⟩ := hext.of_map
    have hE' := hE.pas (fun q hq => hbut _ (List.mem_map_of_mem hq)) hext'
    have hcroissant := (hE'.ordre hcons hnd).croissant
    have hmap : E.map (entree s₀) ++ [entree s₀ p] = (E ++ [p]).map (entree s₀) := by simp
    rw [hmap, appels_map, List.nodup_flatMap]
    refine ⟨fun q _ => hnd _, hcroissant.imp_of_mem ?_⟩
    intro q r hq hr hqr z hz hz'
    have heq : q = r := hU q r (hE'.utile hcons hnd hq) (hE'.utile hcons hnd hr) z hz hz'
    exact precede_irrefl r (heq ▸ hqr)

/-- a goal ends the run -/
theorem Execution.but_dernier (hX : Execution succ h borne but s₀ X F) (he : e ∈ X) (hbut : but e.1) :
    ∃ X', X = X' ++ [e] := by
  cases hX with
  | debut => exact absurd he List.not_mem_nil
  | @pas X' _ e' _ _ hn _ =>
    rcases List.mem_append.1 he with he | he
    · exact absurd hbut (hn e he)
    · exact ⟨X', by rw [List.mem_singleton.1 he]⟩

/-- the run is over: nothing left to extract, or a goal -/
def Finie (but : σ → Prop) (X F : List (σ × ℤ)) : Prop := F = [] ∨ ∃ X' e, X = X' ++ [e] ∧ but e.1

theorem unique_of_nodup (hcons : ∀ x, ∀ z ∈ succ x, h x ≤ h z + 1) (hnd : ∀ x, (succ x).Nodup)
    (hX : Execution succ h borne but s₀ X F) (hfin : Finie but X F) (hn : (appels succ X).Nodup) :
    Unique succ h borne but s₀ := by
  obtain ⟨E, file, hE, rfl, rfl⟩ := hX.parcours hcons hnd hn
  have hO := hE.ordre hcons hnd
  have hin : ∀ p, Utile succ h borne but s₀ p → p ∈ E := by
    rintro p ⟨hp, hu⟩
    rcases hfin with hfile | ⟨X', e, hX', he⟩
    · obtain rfl := List.map_eq_nil_iff.1 hfile
      exact hO.mem_of_vide hp
    · obtain ⟨E', m, rfl, rfl, hm⟩ := List.map_eq_append_iff.1 hX'
      obtain ⟨g, rfl, rfl⟩ := List.map_eq_singleton_iff.1 hm
      rcases hO.mem_or_avant hcons hp with hin | hav
      · exact hin
      · have hg := hO.noeud g (by simp)
        exact absurd (hav g (by simp)) (hu g hg he)
  intro p q hp hq z hz hz'
  by_contra hne
  rw [appels_map, List.nodup_flatMap] at hn
  have : Std.Symm (Function.onFun List.Disjoint fun p => succ (entree s₀ p).1) := ⟨fun _ _ hd => hd.symm⟩
  exact hn.2.forall (hin p hp) (hin q hq) hne hz hz'

/-! ## Bounded runs -/

theorem developpe_length_le (l : List σ) (g : ℤ) : (developpe F l g).length ≤ F.length + l.length := by
  induction l generalizing F with
  | nil => simp [developpe]
  | cons z l ih =>
    have hle : (inserer F (z, g)).length ≤ F.length + 1 := by
      unfold inserer
      split_ifs <;> simp
    have h := ih (F := inserer F (z, g))
    simp only [List.length_cons]
    exact h.trans (by omega)

/-- every entry but the first was handed to the queue -/
theorem Execution.length_le (hX : Execution succ h borne but s₀ X F) :
    X.length + F.length ≤ (appels succ X).length + 1 := by
  induction hX with
  | debut => simp [appels]
  | @pas X F e reste _ _ hext ih =>
    obtain ⟨l₁, l₂, rfl, rfl, _⟩ := hext
    have hle := developpe_length_le (F := l₁ ++ l₂) (succ e.1) (e.2 + 1)
    simp only [appels, List.flatMap_append, List.length_append, List.length_cons, List.flatMap_cons, List.flatMap_nil,
      List.append_nil, List.length_nil] at ih hle ⊢
    omega

/-- what a step keeps, all the entries have -/
theorem Execution.forall {P : σ → Prop} (h0 : P s₀) (hP : ∀ x, P x → ∀ z ∈ succ x, P z)
    (hX : Execution succ h borne but s₀ X F) : ∀ x ∈ X ++ F, P x.1 := by
  induction hX with
  | debut => simpa using h0
  | @pas X F e reste _ _ hext ih =>
    have he : P e.1 := ih e (List.mem_append_right _ (hext.mem_iff.2 (.inl rfl)))
    intro x hx
    rcases List.mem_append.1 hx with hx | hx
    · rcases List.mem_append.1 hx with hx | hx
      · exact ih x (List.mem_append_left _ hx)
      · rwa [List.mem_singleton.1 hx]
    · rcases mem_developpe hx with hx | ⟨hx, _⟩
      · exact ih x (List.mem_append_right _ (hext.mem_iff.2 (.inr hx)))
      · exact hP _ he _ hx

/-- states that always lead to one of them keep the queue from being empty -/
theorem Execution.vivant {P : σ → Prop} (h0 : P s₀) (hP : ∀ x, P x → ∃ z ∈ succ x, P z)
    (hX : Execution succ h borne but s₀ X F) : ∃ x ∈ F, P x.1 := by
  induction hX with
  | debut => exact ⟨_, List.mem_singleton_self _, h0⟩
  | @pas X F e reste _ _ hext ih =>
    obtain ⟨x, hx, hPx⟩ := ih
    rcases hext.mem_iff.1 hx with rfl | hx
    · obtain ⟨z, hz, hPz⟩ := hP _ hPx
      obtain ⟨g, hg, _⟩ := exists_developpe reste (x.2 + 1) hz
      exact ⟨_, hg, hPz⟩
    · exact ⟨x, subset_developpe hx, hPx⟩

variable {S : Finset σ}

/-- without a repetition the run extracts at most one entry more than there are states -/
theorem Execution.length_le_card (h0 : s₀ ∈ S) (hS : ∀ x ∈ S, ∀ z ∈ succ x, z ∈ S)
    (hX : Execution succ h borne but s₀ X F) (hn : (appels succ X).Nodup) : X.length ≤ S.card + 1 := by
  have hsub : (appels succ X).toFinset ⊆ S := by
    intro z hz
    obtain ⟨x, hx, hz⟩ := List.mem_flatMap.1 (List.mem_toFinset.1 hz)
    exact hS _ (hX.forall (P := (· ∈ S)) h0 hS x (List.mem_append_left _ hx)) z hz
  have hcard := Finset.card_le_card hsub
  rw [List.toFinset_card_of_nodup hn] at hcard
  have := hX.length_le
  omega

end appels

end Semestre6.MeilleurDabord
