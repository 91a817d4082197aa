/-
Descriptor tables, over any type of open objects: which object each descriptor of a process refers to, finitely many
of them open. `open` and `pipe` take the lowest descriptors that are closed, `dup2` copies an entry, `close` erases
one, and a child starts from a copy of its parent's table. A limit on the descriptors of a process makes `open` fail:
`libres` counts those that are closed below it, and `ouvre` takes one of them (`libres_ouvre`).
-/
import Mathlib.Tactic

namespace Semestre6.Descripteurs

structure Table (α : Type*) where
  desc : ℕ → Option α
  borne : ℕ
  fini : ∀ fd, borne ≤ fd → desc fd = none

namespace Table

variable {α β : Type*}

theorem libre (t : Table α) : ∃ fd, t.desc fd = none := ⟨t.borne, t.fini _ le_rfl⟩

/-- the lowest closed descriptor -/
def premier (t : Table α) : ℕ := Nat.find t.libre

def map (f : α → β) (t : Table α) : Table β where
  desc := fun fd => (t.desc fd).map f
  borne := t.borne
  fini := fun fd h => by rw [t.fini fd h]; rfl

def pose (t : Table α) (fd : ℕ) (a : α) : Table α where
  desc := Function.update t.desc fd (some a)
  borne := max t.borne (fd + 1)
  fini := fun x h => by
    rw [Function.update_of_ne (by omega)]
    exact t.fini x (by omega)

def ouvre (t : Table α) (a : α) : Table α × ℕ := (t.pose t.premier a, t.premier)

/-- nothing when the old descriptor is closed -/
def dup2 (t : Table α) (ancien nouveau : ℕ) : Table α :=
  match t.desc ancien with
  | some a => t.pose nouveau a
  | none => t

/-- nothing when the descriptor is closed already -/
def ferme (t : Table α) (fd : ℕ) : Table α where
  desc := Function.update t.desc fd none
  borne := t.borne
  fini := fun x h => by
    by_cases hx : x = fd
    · simp [hx]
    · rw [Function.update_of_ne hx]
      exact t.fini x h

@[simp] theorem map_desc (f : α → β) (t : Table α) (fd : ℕ) : (t.map f).desc fd = (t.desc fd).map f := rfl

theorem premier_ferme (t : Table α) : t.desc t.premier = none := Nat.find_spec t.libre

theorem pose_desc (t : Table α) (fd : ℕ) (a : α) (x : ℕ) :
    (t.pose fd a).desc x = if x = fd then some a else t.desc x := by
  simp [pose, Function.update_apply]

theorem ouvre_desc (t : Table α) (a : α) (x : ℕ) :
    (t.ouvre a).1.desc x = if x = (t.ouvre a).2 then some a else t.desc x := pose_desc ..

/-- the new descriptor was closed -/
theorem ouvre_ferme (t : Table α) (a : α) : t.desc (t.ouvre a).2 = none := t.premier_ferme

theorem dup2_desc {t : Table α} {ancien : ℕ} {a : α} (h : t.desc ancien = some a) (nouveau x : ℕ) :
    (t.dup2 ancien nouveau).desc x = if x = nouveau then some a else t.desc x := by
  simp only [dup2, h]
  exact pose_desc ..

theorem ferme_desc (t : Table α) (fd x : ℕ) : (t.ferme fd).desc x = if x = fd then none else t.desc x := by
  simp [ferme, Function.update_apply]

/-- many descriptors closed one after the other -/
theorem foldl_ferme_desc (l : List ℕ) (t : Table α) (x : ℕ) :
    (l.foldl ferme t).desc x = if x ∈ l then none else t.desc x := by
  induction l generalizing t with
  | nil => simp
  | cons fd l ih =>
    rw [List.foldl_cons, ih, ferme_desc]
    by_cases hx : x = fd
    · simp [hx]
    · simp [hx]

/-! ## A limit on the descriptors -/

def libres (t : Table α) (max : ℕ) : ℕ := ((Finset.range max).filter fun fd => (t.desc fd).isNone).card

theorem libres_congr {t t' : Table α} (h : t.desc = t'.desc) (max : ℕ) : t.libres max = t'.libres max := by
  rw [libres, libres, h]

theorem premier_lt_iff (t : Table α) (max : ℕ) : t.premier < max ↔ 0 < t.libres max := by
  rw [libres, Finset.card_pos, premier, Nat.find_lt_iff]
  apply Iff.intro
  · intro h
    obtain ⟨fd, hlt, hfd⟩ := h
    exact ⟨fd, by simp [hlt, hfd]⟩
  · intro h
    obtain ⟨fd, hfd⟩ := h
    obtain ⟨hlt, hnone⟩ := Finset.mem_filter.1 hfd
    exact ⟨fd, Finset.mem_range.1 hlt, by simpa using hnone⟩

/-- one descriptor less -/
theorem libres_ouvre {t : Table α} {max : ℕ} (h : t.premier < max) (a : α) :
    (t.ouvre a).1.libres max + 1 = t.libres max := by
  have hmem : t.premier ∈ (Finset.range max).filter fun fd => (t.desc fd).isNone := by
    simp [h, t.premier_ferme]
  have herase : ((Finset.range max).filter fun fd => ((t.ouvre a).1.desc fd).isNone) =
      ((Finset.range max).filter fun fd => (t.desc fd).isNone).erase t.premier := by
    ext fd
    rw [Finset.mem_erase, Finset.mem_filter, Finset.mem_filter, ouvre_desc]
    change _ ∧ (if fd = t.premier then some a else t.desc fd).isNone = true ↔ _
    by_cases hfd : fd = t.premier
    · simp [hfd]
    · simp [hfd]
  rw [libres, herase, Finset.card_erase_add_one hmem, libres]

end Table

end Semestre6.Descripteurs
