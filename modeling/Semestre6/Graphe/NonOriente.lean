/-
Graphe.java (RO, APNEE1): undirected graphs as lists of neighbours, loops and parallel edges included.

- `ajouteArete_iff`, `construit_iff`: the graph that `ajouteArete` builds from a list of edges; the list of vertex v
  holds the other ends of the edges at v, in the order of addition (`voisinsDe`);
- `nbAretes_voisinsDe`: half the sum of the degrees is the number of the edges;
- `matriceAdj_voisinsDe`: the matrix has a 1 for each pair of vertices that some edge joins.
-/
import Semestre6.Lib.Boucle
import Semestre6.Lib.Multigraphe

namespace Semestre6.NonOriente

open Boucle Multigraphe

inductive JException where
  | illegalArgument (message : String)
  | indexOutOfBounds (message : String)
  | arrayIndexOutOfBounds
  | numberFormat
  | grapheReader (message : String)
deriving DecidableEq, Repr

structure Graphe where
  n : ℕ
  /-- the neighbours of each vertex below `n` -/
  adjacence : ℕ → List ℕ

namespace Graphe

def nouveau (n : ℤ) : Except JException Graphe :=
  if n < 1 then .error (.illegalArgument "le nombre de sommets doit etre strictement positif")
  else .ok ⟨n.toNat, fun _ => []⟩

def verifieSommet (g : Graphe) (v : ℤ) : Except JException Unit :=
  if v ≥ g.n ∨ v < 0 then .error (.illegalArgument ("Le sommet " ++ toString v ++ " n'est pas valide")) else .ok ()

def ajouteArete (g : Graphe) (i j : ℤ) : Except JException Graphe := do
  g.verifieSommet i
  g.verifieSommet j
  let adjacence := Function.update g.adjacence i.toNat (g.adjacence i.toNat ++ [j.toNat])
  let adjacence := Function.update adjacence j.toNat (adjacence j.toNat ++ [i.toNat])
  return { g with adjacence := adjacence }

/-- a new graph, then `ajouteArete` for each edge -/
def construit (n : ℤ) (L : List (ℤ × ℤ)) : Except JException Graphe := do
  let g ← nouveau n
  L.foldlM (fun g e => g.ajouteArete e.1 e.2) g

def degre (g : Graphe) (v : ℕ) : ℕ := (g.adjacence v).length

def nbAretes (g : Graphe) : ℕ := (List.range g.n).foldl (fun sum i => sum + g.degre i) 0 / 2

/-- an array of arrays, read below its bounds -/
abbrev Matrice := ℕ → ℕ → ℕ

/-- `mat[i][j] = x` in a matrix of `h` rows and `l` columns -/
def ecrit (h l : ℕ) (mat : Matrice) (i j x : ℕ) : Except JException Matrice :=
  if i < h ∧ j < l then .ok (fun a b => if a = i ∧ b = j then x else mat a b) else .error .arrayIndexOutOfBounds

/-- the loop on the neighbours of `i` -/
def matriceAdjLigne (g : Graphe) (mat : Matrice) (i : ℕ) : Except JException Matrice :=
  (g.adjacence i).foldlM (fun mat sommet => do
    let mat ← ecrit g.n g.n mat i sommet 1
    ecrit g.n g.n mat sommet i 1) mat

def matriceAdj (g : Graphe) : Except JException Matrice :=
  (List.range g.n).foldlM g.matriceAdjLigne fun _ _ => 0

/-! ## The graph of a list of edges -/

/-- what the edge puts in the list of vertex `v`: its other end, twice for a loop -/
def places (v : ℕ) (e : ℕ × ℕ) : List ℕ := (if e.1 = v then [e.2] else []) ++ if e.2 = v then [e.1] else []

def voisinsDe (L : List (ℕ × ℕ)) (v : ℕ) : List ℕ := L.flatMap (places v)

/-- the edge between two vertices given as ints -/
def arete (e : ℤ × ℤ) : ℕ × ℕ := (e.1.toNat, e.2.toNat)

variable {g g' : Graphe} {n i j v w : ℕ} {a b : ℤ} {L : List (ℕ × ℕ)} {M : List (ℤ × ℤ)}

theorem verifieSommet_ok : g.verifieSommet a = .ok () ↔ 0 ≤ a ∧ a < g.n := by
  unfold verifieSommet
  split_ifs with h
  · simp only [false_iff]
    omega
  · simp only [true_iff]
    omega

theorem ajouteArete_iff : g.ajouteArete a b = .ok g' ↔
    ((0 ≤ a ∧ a < g.n) ∧ 0 ≤ b ∧ b < g.n) ∧ g' = ⟨g.n, fun v => g.adjacence v ++ places v (arete (a, b))⟩ := by
  have hadj : Function.update (Function.update g.adjacence a.toNat (g.adjacence a.toNat ++ [b.toNat])) b.toNat
      (Function.update g.adjacence a.toNat (g.adjacence a.toNat ++ [b.toNat]) b.toNat ++ [a.toNat]) =
      fun v => g.adjacence v ++ places v (arete (a, b)) := update_deux _ _ _ _ _
  apply Iff.intro
  · intro h
    obtain ⟨_, ha, h⟩ := ok_of_bind h
    obtain ⟨_, hb, h⟩ := ok_of_bind h
    obtain rfl := Except.ok.inj h
    exact ⟨⟨verifieSommet_ok.1 ha, verifieSommet_ok.1 hb⟩, by rw [hadj]⟩
  · rintro ⟨⟨ha, hb⟩, rfl⟩
    rw [ajouteArete, verifieSommet_ok.2 ha, verifieSommet_ok.2 hb, ← hadj]
    rfl

theorem foldlM_ajouteArete_iff : M.foldlM (fun g e => g.ajouteArete e.1 e.2) g = .ok g' ↔
    (∀ e ∈ M, (0 ≤ e.1 ∧ e.1 < g.n) ∧ 0 ≤ e.2 ∧ e.2 < g.n) ∧
      g' = ⟨g.n, fun v => g.adjacence v ++ voisinsDe (M.map arete) v⟩ := by
  induction M generalizing g with
  | nil => simp [voisinsDe, pure, Except.pure, eq_comm]
  | cons e M ih =>
    rw [List.foldlM_cons]
    apply Iff.intro
    · intro h
      obtain ⟨g₁, h₁, h⟩ := ok_of_bind h
      obtain ⟨he, rfl⟩ := ajouteArete_iff.1 h₁
      obtain ⟨hM, rfl⟩ := ih.1 h
      exact ⟨List.forall_mem_cons.2 ⟨he, hM⟩, by simp [voisinsDe]⟩
    · rintro ⟨hM, rfl⟩
      obtain ⟨he, hM⟩ := List.forall_mem_cons.1 hM
      rw [ajouteArete_iff.2 ⟨he, rfl⟩]
      exact ih.2 ⟨hM, by simp [voisinsDe]⟩

/-- the graph built from a list of edges, and when there is one -/
theorem construit_iff : construit a M = .ok g ↔
    1 ≤ a ∧ (∀ e ∈ M, (0 ≤ e.1 ∧ e.1 < a) ∧ 0 ≤ e.2 ∧ e.2 < a) ∧ g = ⟨a.toNat, voisinsDe (M.map arete)⟩ := by
  unfold construit nouveau
  by_cases ha : a < 1
  · rw [if_pos ha]
    exact iff_of_false (fun h => by cases h) fun h => absurd h.1 (by omega)
  · have hn : ((a.toNat : ℕ) : ℤ) = a := Int.toNat_of_nonneg (by omega)
    rw [if_neg ha, and_iff_right (by omega)]
    refine foldlM_ajouteArete_iff.trans ?_
    simp only [hn, List.nil_append]

/-! ## Counting the edges -/

theorem sum_places (n : ℕ) (e : ℕ × ℕ) (he : e.1 < n ∧ e.2 < n) :
    ∑ v ∈ Finset.range n, (places v e).length = 2 := by
  have hplaces : ∀ v, (places v e).length = (if e.1 = v then 1 else 0) + if e.2 = v then 1 else 0 := by
    intro v
    unfold places
    split_ifs <;> rfl
  simp only [hplaces]
  rw [Finset.sum_add_distrib, Finset.sum_ite_eq, Finset.sum_ite_eq, if_pos (Finset.mem_range.2 he.1),
    if_pos (Finset.mem_range.2 he.2)]

theorem sum_voisinsDe (hL : ∀ e ∈ L, e.1 < n ∧ e.2 < n) :
    ∑ v ∈ Finset.range n, (voisinsDe L v).length = 2 * L.length := by
  induction L with
  | nil => simp [voisinsDe]
  | cons e L ih =>
    obtain ⟨he, hL⟩ := List.forall_mem_cons.1 hL
    have hcons : ∀ v, (voisinsDe (e :: L) v).length = (places v e).length + (voisinsDe L v).length := by
      intro v
      rw [voisinsDe, List.flatMap_cons, List.length_append]
      rfl
    calc ∑ v ∈ Finset.range n, (voisinsDe (e :: L) v).length
        = ∑ v ∈ Finset.range n, (places v e).length + ∑ v ∈ Finset.range n, (voisinsDe L v).length := by
          simp only [hcons, Finset.sum_add_distrib]
      _ = 2 + 2 * L.length := by rw [sum_places n e he, ih hL]
      _ = 2 * (e :: L).length := by rw [List.length_cons]; omega

theorem foldl_add (f : ℕ → ℕ) (l : List ℕ) (s : ℕ) : l.foldl (fun sum i => sum + f i) s = s + (l.map f).sum := by
  induction l generalizing s with
  | nil => rfl
  | cons x l ih => rw [List.foldl_cons, ih, List.map_cons, List.sum_cons, Nat.add_assoc]

/-- the number of the edges -/
theorem nbAretes_voisinsDe (hL : ∀ e ∈ L, e.1 < n ∧ e.2 < n) : (⟨n, voisinsDe L⟩ : Graphe).nbAretes = L.length := by
  have hsum : ((List.range n).map (⟨n, voisinsDe L⟩ : Graphe).degre).sum = 2 * L.length := by
    rw [← sum_voisinsDe hL]
    rfl
  rw [nbAretes, foldl_add, zero_add, hsum]
  omega

/-! ## The adjacency matrix -/

/-- the two vertices of an edge -/
def paire (e : ℕ × ℕ) : Sym2 ℕ := s(e.1, e.2)

theorem mem_voisinsDe : w ∈ voisinsDe L v ↔ s(v, w) ∈ L.map paire := by
  simp only [voisinsDe, List.mem_flatMap, List.mem_map, paire]
  apply exists_congr
  intro e
  apply and_congr_right
  intro _
  unfold places
  rw [Sym2.eq_iff]
  by_cases h₁ : e.1 = v <;> by_cases h₂ : e.2 = v
  · simp [h₁, h₂, eq_comm]
  · simp [h₁, h₂, eq_comm]
  · simp [h₁, h₂, eq_comm]
  · simp [h₁, h₂]

/-- the ones of a 0/1 matrix -/
def Uns (mat : Matrice) (P : ℕ → ℕ → Prop) : Prop :=
  ∀ a b, (P a b → mat a b = 1) ∧ (¬ P a b → mat a b = 0)

theorem Uns.congr {mat : Matrice} {P Q : ℕ → ℕ → Prop} (h : Uns mat P) (hPQ : ∀ a b, P a b ↔ Q a b) : Uns mat Q :=
  fun a b => ⟨fun hq => (h a b).1 ((hPQ a b).2 hq), fun hq => (h a b).2 fun hp => hq ((hPQ a b).1 hp)⟩

theorem Uns.ext {P : ℕ → ℕ → Prop} {mat mat' : Matrice} (h : Uns mat P) (h' : Uns mat' P) : mat = mat' := by
  funext a b
  by_cases hP : P a b
  · rw [(h a b).1 hP, (h' a b).1 hP]
  · rw [(h a b).2 hP, (h' a b).2 hP]

theorem ecrit_uns {mat : Matrice} {P : ℕ → ℕ → Prop} {h l : ℕ} (hmat : Uns mat P) (hi : i < h) (hj : j < l) :
    ∃ mat', ecrit h l mat i j 1 = .ok mat' ∧ Uns mat' fun a b => P a b ∨ (a = i ∧ b = j) := by
  refine ⟨_, if_pos ⟨hi, hj⟩, ?_⟩
  intro a b
  dsimp only
  split_ifs with hab
  · exact ⟨fun _ => rfl, fun hn => absurd (.inr hab) hn⟩
  · simp only [hab, or_false]
    exact hmat a b

/-- a graph whose lists hold vertices of it -/
def Valide (g : Graphe) : Prop := ∀ v < g.n, ∀ w ∈ g.adjacence v, w < g.n

theorem matriceAdjLigne_uns {mat : Matrice} {P : ℕ → ℕ → Prop} (hg : Valide g) (hi : i < g.n) (hmat : Uns mat P) :
    ∃ mat', g.matriceAdjLigne mat i = .ok mat' ∧
      Uns mat' fun a b => P a b ∨ ∃ w ∈ g.adjacence i, (a = i ∧ b = w) ∨ (a = w ∧ b = i) := by
  refine foldlM_inv (fun l mat => Uns mat fun a b => P a b ∨ ∃ w ∈ l, (a = i ∧ b = w) ∨ (a = w ∧ b = i)) _ ?_
    (by simpa using hmat)
  intro l w l' mat hl hmat
  have hw : w < g.n := hg i hi w (by simp [← hl])
  obtain ⟨mat₁, h₁, hmat₁⟩ := ecrit_uns hmat hi hw
  obtain ⟨mat₂, h₂, hmat₂⟩ := ecrit_uns hmat₁ hw hi
  refine ⟨mat₂, ?_, ?_⟩
  · rw [h₁]
    exact h₂
  · simpa [or_assoc, or_and_right, exists_or] using hmat₂

theorem matriceAdj_uns (hg : Valide g) : ∃ mat, g.matriceAdj = .ok mat ∧
    Uns mat fun a b => ∃ i ∈ List.range g.n, ∃ w ∈ g.adjacence i, (a = i ∧ b = w) ∨ (a = w ∧ b = i) := by
  refine foldlM_inv (fun l mat => Uns mat fun a b => ∃ i ∈ l, ∃ w ∈ g.adjacence i, (a = i ∧ b = w) ∨ (a = w ∧ b = i))
    _ ?_ (fun _ _ => ⟨by simp, fun _ => rfl⟩)
  intro l i l' mat hl hmat
  have hi : i < g.n := List.mem_range.1 (by simp [← hl])
  obtain ⟨mat', h, hmat'⟩ := matriceAdjLigne_uns hg hi hmat
  refine ⟨mat', h, ?_⟩
  simpa [or_and_right, exists_or] using hmat'

theorem valide_voisinsDe (hL : ∀ e ∈ L, e.1 < n ∧ e.2 < n) : Valide ⟨n, voisinsDe L⟩ := by
  intro v _ w hw
  obtain ⟨e, he, hp⟩ := List.mem_map.1 (mem_voisinsDe.1 hw)
  obtain ⟨h₁, h₂⟩ := hL e he
  rcases Sym2.eq_iff.1 hp with ⟨-, rfl⟩ | ⟨rfl, -⟩
  · exact h₂
  · exact h₁

/-- the matrix of the graph of a list of edges -/
theorem matriceAdj_voisinsDe (hL : ∀ e ∈ L, e.1 < n ∧ e.2 < n) :
    ∃ mat, (⟨n, voisinsDe L⟩ : Graphe).matriceAdj = .ok mat ∧ Uns mat fun a b => s(a, b) ∈ L.map paire := by
  obtain ⟨mat, h, hmat⟩ := matriceAdj_uns (valide_voisinsDe hL)
  refine ⟨mat, h, hmat.congr ?_⟩
  intro a b
  apply Iff.intro
  · rintro ⟨i, -, w, hw, ⟨rfl, rfl⟩ | ⟨rfl, rfl⟩⟩
    · exact mem_voisinsDe.1 hw
    · rw [Sym2.eq_swap]
      exact mem_voisinsDe.1 hw
  · intro h
    obtain ⟨e, he, hp⟩ := List.mem_map.1 h
    have ha : a < n := by
      rcases Sym2.eq_iff.1 hp with ⟨rfl, -⟩ | ⟨-, rfl⟩
      · exact (hL e he).1
      · exact (hL e he).2
    exact ⟨a, List.mem_range.2 ha, b, mem_voisinsDe.2 h, .inl ⟨rfl, rfl⟩⟩

end Graphe

end Semestre6.NonOriente
