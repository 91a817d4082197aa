/-
The Sokoban board (Terrain.java): a rectangle of cells, `hauteur` lines of `largeur` columns, and the counter `nb_but`
of the goals still to reach. Reading or writing outside the rectangle throws, as on a Java array.

`Terrain.lire` reads a level: `lecture` takes two ints and one word a line from the text, each character of a word
giving a cell, and the constructor then counts the cells that contain a goal.

- `mem_cellules`, `mem_cellules_pose`: the set of cells that contain a layer, and what one assignment does to it;
- `lire_nbBut`: `nb_but` of a level that was read is the number of its goal cells.
-/
import Semestre6.Texte.Scanner
import Semestre6.Sokoban.Case

namespace Semestre6.Sokoban

open Scanner (jetons)

/-- a board; outside the rectangle there is no cell -/
structure Terrain where
  largeur : ℕ
  hauteur : ℕ
  nbBut : ℕ
  terrain : ℤ → ℤ → Option Case
  domaine : ∀ i j, (terrain i j).isSome = true ↔ 0 ≤ i ∧ i < hauteur ∧ 0 ≤ j ∧ j < largeur

namespace Terrain

/-- the coordinates of a cell of the board -/
def Dans (t : Terrain) (i j : ℤ) : Prop := 0 ≤ i ∧ i < t.hauteur ∧ 0 ≤ j ∧ j < t.largeur

instance (t : Terrain) (i j : ℤ) : Decidable (t.Dans i j) := by unfold Dans; infer_instance

theorem dans_iff {t : Terrain} {i j : ℤ} : t.Dans i j ↔ ∃ k, t.terrain i j = some k := by
  rw [← Option.isSome_iff_exists]; exact (t.domaine i j).symm

def fini (t : Terrain) : Bool := t.nbBut == 0

def butAtteint (t : Terrain) : Terrain := if 0 < t.nbBut then { t with nbBut := t.nbBut - 1 } else t

def consulter (t : Terrain) (i j : ℤ) : Except JException Case :=
  match t.terrain i j with
  | some k => .ok k
  | none => .error .arrayIndexOutOfBounds

/-- the board with cell (i, j) set to `c`, if it is a cell of it -/
def pose (t : Terrain) (c : Case) (i j : ℤ) : Terrain :=
  { t with
    terrain := fun i' j' => if (i' = i ∧ j' = j) ∧ t.Dans i j then some c else t.terrain i' j'
    domaine := fun i' j' => by
      split_ifs with h
      · obtain ⟨⟨rfl, rfl⟩, h⟩ := h; exact ⟨fun _ => h, fun _ => rfl⟩
      · exact t.domaine i' j' }

def assigner (t : Terrain) (c : Case) (i j : ℤ) : Except JException Terrain :=
  if t.Dans i j then .ok (t.pose c i j) else .error .arrayIndexOutOfBounds

theorem consulter_ok {t : Terrain} {i j : ℤ} {k : Case} (h : t.terrain i j = some k) : t.consulter i j = .ok k := by
  simp [consulter, h]

theorem assigner_ok {t : Terrain} {c : Case} {i j : ℤ} (h : t.Dans i j) : t.assigner c i j = .ok (t.pose c i j) := by
  simp [assigner, h]

theorem pose_terrain {t : Terrain} {c : Case} {i j : ℤ} (h : t.Dans i j) (i' j' : ℤ) :
    (t.pose c i j).terrain i' j' = if i' = i ∧ j' = j then some c else t.terrain i' j' := by
  simp [pose, h]

@[simp] theorem pose_dans (t : Terrain) (c : Case) (i j i' j' : ℤ) : (t.pose c i j).Dans i' j' ↔ t.Dans i' j' := Iff.rfl

@[simp] theorem pose_nbBut (t : Terrain) (c : Case) (i j : ℤ) : (t.pose c i j).nbBut = t.nbBut := rfl

@[simp] theorem butAtteint_terrain (t : Terrain) : t.butAtteint.terrain = t.terrain := by
  unfold butAtteint; split_ifs <;> rfl

@[simp] theorem butAtteint_nbBut (t : Terrain) : t.butAtteint.nbBut = t.nbBut - 1 := by
  unfold butAtteint; split_ifs with h
  · rfl
  · omega

@[simp] theorem butAtteint_dans (t : Terrain) (i j : ℤ) : t.butAtteint.Dans i j ↔ t.Dans i j := by
  unfold butAtteint; split_ifs <;> exact Iff.rfl

/-! ## The cells that contain a layer -/

/-- the cells in the order of the source's double loops -/
def positions (t : Terrain) : List (ℤ × ℤ) :=
  (List.range t.hauteur).flatMap fun i : ℕ => (List.range t.largeur).map fun j : ℕ => ((i : ℤ), (j : ℤ))

theorem mem_positions {t : Terrain} {p : ℤ × ℤ} : p ∈ t.positions ↔ t.Dans p.1 p.2 := by
  simp only [positions, Dans, List.mem_flatMap, List.mem_map, List.mem_range]
  constructor
  · rintro ⟨i, hi, j, hj, rfl⟩; simp only; omega
  · rintro ⟨h1, h2, h3, h4⟩
    exact ⟨p.1.toNat, by omega, p.2.toNat, by omega, Prod.ext (by simp; omega) (by simp; omega)⟩

theorem nodup_positions (t : Terrain) : t.positions.Nodup := by
  refine List.nodup_flatMap.2 ⟨fun i _ => List.Nodup.map (fun a b h => by simpa using h) List.nodup_range, ?_⟩
  apply List.nodup_range.imp_of_mem
  intro a b _ _ hab p hp hp'
  simp only [List.mem_map] at hp hp'
  obtain ⟨j, -, rfl⟩ := hp
  obtain ⟨j', -, h⟩ := hp'
  simp only [Prod.mk.injEq, Nat.cast_inj] at h
  exact hab h.1.symm

def contientEn (t : Terrain) (c : Case) (p : ℤ × ℤ) : Bool :=
  match t.terrain p.1 p.2 with
  | some k => k.contient c
  | none => false

/-- the set of cells that contain layer `c` -/
def cellules (t : Terrain) (c : Case) : Finset (ℤ × ℤ) := (t.positions.filter (t.contientEn c)).toFinset

theorem contientEn_iff {t : Terrain} {c : Case} {p : ℤ × ℤ} :
    t.contientEn c p = true ↔ ∃ k, t.terrain p.1 p.2 = some k ∧ k.contient c = true := by
  unfold contientEn
  cases h : t.terrain p.1 p.2 <;> simp

theorem mem_cellules {t : Terrain} {c : Case} {p : ℤ × ℤ} :
    p ∈ t.cellules c ↔ ∃ k, t.terrain p.1 p.2 = some k ∧ k.contient c = true := by
  simp only [cellules, List.mem_toFinset, List.mem_filter, mem_positions, contientEn_iff]
  exact ⟨fun h => h.2, fun h => ⟨dans_iff.2 ⟨h.choose, h.choose_spec.1⟩, h⟩⟩

theorem mem_cellules_of {t : Terrain} {c k : Case} {i j : ℤ} (h : t.terrain i j = some k) :
    (i, j) ∈ t.cellules c ↔ k.contient c = true := by
  simp [mem_cellules, h]

theorem card_cellules (t : Terrain) (c : Case) : (t.cellules c).card = t.positions.countP (t.contientEn c) := by
  rw [cellules, List.toFinset_card_of_nodup ((nodup_positions t).filter _), List.countP_eq_length_filter]

theorem cellules_congr {t t' : Terrain} (h : t'.terrain = t.terrain) (c : Case) : t'.cellules c = t.cellules c := by
  ext p; rw [mem_cellules, mem_cellules, h]

/-- one assignment adds the cell to the set of a layer or takes it out -/
theorem mem_cellules_pose {t : Terrain} {c : Case} {i j : ℤ} (h : t.Dans i j) (k : Case) (p : ℤ × ℤ) :
    p ∈ (t.pose c i j).cellules k ↔ if p = (i, j) then c.contient k = true else p ∈ t.cellules k := by
  obtain ⟨x, y⟩ := p
  simp only [mem_cellules, pose_terrain h, Prod.mk.injEq]
  split_ifs with hp <;> simp

/-! ## Reading a level -/

def chiffres (m : List Char) : Option ℕ :=
  if m ≠ [] ∧ m.all Char.isDigit then some (m.foldl (fun n c => 10 * n + (c.toNat - 48)) 0) else none

/-- the value of a word read by `nextInt`: a sign and digits, within an int -/
def entier (m : List Char) : Except JException ℤ :=
  let v : Option ℤ := match m with
    | '-' :: ds => (chiffres ds).map fun n => -(n : ℤ)
    | '+' :: ds => (chiffres ds).map fun n => (n : ℤ)
    | ds => (chiffres ds).map fun n => (n : ℤ)
  match v with
  | some n => if -2147483648 ≤ n ∧ n ≤ 2147483647 then .ok n else .error .inputMismatch
  | none => .error .inputMismatch

def nextInt : List (List Char) → Except JException (ℤ × List (List Char))
  | [] => .error .noSuchElement
  | m :: ms => (entier m).map fun n => (n, ms)

/-- the cell of a character of the level file -/
def symbole (c : Char) : Case :=
  if c = '+' then .obstacle
  else if c = 'X' then .pousseur
  else if c = '&' then .sac
  else if c = 'O' then .but
  else if c = 'Q' then .sacSurBut
  else if c = '0' then .pousseurSurBut
  else .libre

/-- the UTF-16 units of a character; both halves of a surrogate pair fall in the default case of the switch -/
def unites (c : Char) : List Char := if c.toNat < 65536 then [c] else ['?', '?']

/-- the inner loop of `lecture`: `charAt(j)` for each column -/
def lectureLigne (largeur : ℕ) (ligne : List Char) : Except JException (List Case) :=
  (List.range largeur).mapM fun j =>
    match (ligne.flatMap unites)[j]? with
    | some c => .ok (symbole c)
    | none => .error .stringIndexOutOfBounds

/-- the outer loop of `lecture`: one word a line -/
def lectureLignes (largeur : ℕ) : ℕ → List (List Char) → Except JException (List (List Case))
  | 0, _ => .ok []
  | _ + 1, [] => .error .noSuchElement
  | n + 1, m :: ms => do
    let l ← lectureLigne largeur m
    let ls ← lectureLignes largeur n ms
    .ok (l :: ls)

/-- the array filled by `lecture`, `nb_but` still 0 -/
def deLignes (largeur hauteur : ℕ) (lignes : List (List Case)) : Terrain where
  largeur := largeur
  hauteur := hauteur
  nbBut := 0
  terrain := fun i j =>
    if 0 ≤ i ∧ i < hauteur ∧ 0 ≤ j ∧ j < largeur then some ((lignes.getD i.toNat []).getD j.toNat .libre) else none
  domaine := fun i j => by split_ifs with h <;> simp [h]

def lecture (texte : List Char) : Except JException Terrain := do
  let (largeur, ms) ← nextInt (jetons texte)
  let (hauteur, ms) ← nextInt ms
  if hauteur < 0 ∨ largeur < 0 then .error .negativeArraySize
  else do
    let lignes ← lectureLignes largeur.toNat hauteur.toNat ms
    .ok (deLignes largeur.toNat hauteur.toNat lignes)

/-- the constructor: `lecture`, then one `nb_but++` for each cell that contains a goal -/
def lire (texte : List Char) : Except JException Terrain := do
  let t ← lecture texte
  .ok (t.positions.foldl (fun t' p => if t.contientEn .but p then { t' with nbBut := t'.nbBut + 1 } else t') t)

theorem compteButs (t : Terrain) (l : List (ℤ × ℤ)) (t' : Terrain) :
    l.foldl (fun t' p => if t.contientEn .but p then { t' with nbBut := t'.nbBut + 1 } else t') t' =
      { t' with nbBut := t'.nbBut + l.countP (t.contientEn .but) } := by
  induction l generalizing t' with
  | nil => simp
  | cons p l ih =>
    rw [List.foldl_cons, ih]
    by_cases hp : t.contientEn .but p = true
    · simp [hp, Nat.add_assoc, Nat.add_comm]
    · simp [hp]

/-- `nb_but` of a level that was read is the number of its goal cells -/
theorem lire_nbBut {texte : List Char} {t : Terrain} (h : lire texte = .ok t) :
    t.nbBut = (t.cellules .but).card := by
  have h0 : ∀ t₀, lecture texte = .ok t₀ → t₀.nbBut = 0 := by
    intro t₀ ht
    simp only [lecture, bind, Except.bind] at ht
    split at ht
    · cases ht
    · split at ht
      · cases ht
      · split_ifs at ht
        split at ht
        · cases ht
        · cases ht; rfl
  simp only [lire, bind, Except.bind] at h
  split at h
  · cases h
  · rename_i t₀ ht
    rw [compteButs, h0 t₀ ht] at h
    cases h
    rw [card_cellules, Nat.zero_add]
    rfl

end Terrain

end Semestre6.Sokoban
