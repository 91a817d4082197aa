/-
The generic file_a_priorite.java on Element.java: a list in the order of insertion, whose extraction looks for the
least priority from 10000000 down, at index 0 if there is none below.

- `extraire_extrait`: an extraction takes the first of the least elements, all priorities from 10000000 on being equal;
- `extraire_juste_iff`: it is the right one exactly when some priority is below 10000000 or the head is a least element;
- `vider_eq`: emptying the queue is a stable sort by the priorities cut at 10000000;
- `fileAPriorite_iff`: which sequences of calls, and which emptied queues, give the elements in the right order.

Witness that the condition is needed: `grandes_priorites`, two priorities above the bound.
-/
import Semestre6.Lib.MeilleurDabord
import Semestre6.Lib.Minimum
import Semestre6.Lib.Transition

namespace Semestre6.Ressources

open MeilleurDabord Minimum Transition

structure Element where
  val : ℤ
  prio : ℤ
deriving DecidableEq, Repr

def Element.poids (e : Element) : ℤ := e.prio

inductive JException where
  | indexOutOfBounds
deriving DecidableEq, Repr

namespace FileAPriorite

def estVide (file : List Element) : Bool := file.length == 0

def inserer (file : List Element) (e : Element) : List Element := file ++ [e]

/-- the other `Inserer`, which builds the element -/
def insererVal (file : List Element) (val prio : ℤ) : List Element :=
  let e : Element := ⟨val, prio⟩
  file ++ [e]

def extraire (file : List Element) : Except JException (Element × List Element) :=
  let index := indiceMin Element.poids 0 0 10000000 file
  match file[index]? with
  | some e => .ok (e, file.eraseIdx index)
  | none => .error .indexOutOfBounds

/-! ## Sequences of calls -/

inductive Appel where
  | inserer (e : Element)
  | insererVal (val prio : ℤ)
  | extraire
deriving DecidableEq, Repr

/-- the queue after a call; an exception leaves it as it is -/
def step (file : List Element) : Appel → List Element
  | .inserer e => inserer file e
  | .insererVal val prio => insererVal file val prio
  | .extraire =>
    match extraire file with
    | .ok (_, reste) => reste
    | .error _ => file

/-- `while (!Est_Vide()) Extraire()`, for `tours` turns at most -/
def viderDe : ℕ → List Element → List Element
  | 0, _ => []
  | tours + 1, file =>
    if estVide file then []
    else
      match extraire file with
      | .ok (e, reste) => e :: viderDe tours reste
      | .error _ => []

def vider (file : List Element) : List Element := viderDe file.length file

/-- the elements inserted by a sequence of calls, in their order -/
def inseres (appels : List Appel) : List Element :=
  appels.filterMap fun
    | .inserer e => some e
    | .insererVal val prio => some ⟨val, prio⟩
    | .extraire => none

/-- an extraction from a queue that is not empty takes out the element of least priority, the first inserted among
equals: the queue is in the order of insertion -/
def Juste (file : List Element) (a : Appel) : Prop :=
  a = .extraire → file ≠ [] → ∃ e reste, extraire file = .ok (e, reste) ∧ Extrait Element.prio file e reste

/-- some priority is below the bound, or the head of the queue is a least element -/
def Atteignable (file : List Element) (a : Appel) : Prop :=
  a = .extraire → file ≠ [] →
    (∃ x ∈ file, x.prio < 10000000) ∨ ∀ y ∈ file.head?, ∀ x ∈ file, y.prio ≤ x.prio

/-- `s` holds the elements of `l`, by priority and in their order where priorities are equal -/
structure TriStable (l s : List Element) : Prop where
  memes : s.Perm l
  croissant : s.Pairwise fun a b => a.prio ≤ b.prio
  stable : ∀ prio, s.filter (fun e => e.prio = prio) = l.filter fun e => e.prio = prio

variable {file l s : List Element} {e : Element} {appels : List Appel}

/-! ## One extraction -/

/-- what the search compares -/
def cle (e : Element) : ℤ := min e.prio 10000000

theorem extraire_extrait (hne : file ≠ []) : ∃ e reste, extraire file = .ok (e, reste) ∧ Extrait cle file e reste := by
  obtain ⟨e, he, hext⟩ := indiceMin_extrait Element.poids 10000000 hne
  exact ⟨e, _, by rw [extraire, he], hext⟩

/-- **One extraction.** -/
theorem extraire_juste_iff (file : List Element) (a : Appel) : Juste file a ↔ Atteignable file a := by
  unfold Juste Atteignable
  apply imp_congr_right
  intro _
  apply imp_congr_right
  intro hne
  obtain ⟨e, reste, he, hext⟩ := extraire_extrait hne
  rw [← hext.of_borne_iff, he]
  apply Iff.intro
  · intro h
    obtain ⟨e', reste', heq, h⟩ := h
    obtain ⟨rfl, rfl⟩ := Prod.mk.inj (Except.ok.inj heq)
    exact h
  · intro h
    exact ⟨e, reste, rfl, h⟩

/-- the queue keeps the order of insertion -/
theorem run_sublist (file : List Element) (appels : List Appel) :
    (run step file appels).Sublist (file ++ inseres appels) := by
  induction appels generalizing file with
  | nil => simp [run, inseres]
  | cons a appels ih =>
    have hrun : run step file (a :: appels) = run step (step file a) appels := rfl
    rw [hrun]
    match a with
    | .inserer e =>
      have h := ih (file ++ [e])
      rw [List.append_assoc] at h
      exact h
    | .insererVal val prio =>
      have h := ih (file ++ [⟨val, prio⟩])
      rw [List.append_assoc] at h
      exact h
    | .extraire =>
      have hstep : (step file .extraire).Sublist file := by
        by_cases hne : file = []
        · subst hne
          exact List.Sublist.refl _
        · obtain ⟨e, reste, he, hext⟩ := extraire_extrait hne
          rw [step, he]
          exact hext.sublist
      exact (ih _).trans (hstep.append (List.Sublist.refl _))

/-! ## Emptying the queue -/

theorem viderDe_eq (tours : ℕ) (file : List Element) (h : file.length ≤ tours) :
    viderDe tours file = file.insertionSort (fun a b => cle a ≤ cle b) := by
  induction tours generalizing file with
  | zero =>
    rw [List.length_eq_zero_iff.1 (Nat.le_zero.1 h)]
    rfl
  | succ tours ih =>
    by_cases hne : file = []
    · subst hne
      rfl
    · obtain ⟨e, reste, he, hext⟩ := extraire_extrait hne
      have hlen := hext.length
      have hvide : estVide file = false := by simp [estVide, hne]
      rw [viderDe, hvide, if_neg Bool.false_ne_true, he]
      obtain ⟨l₁, l₂, rfl, rfl, h₁, h₂⟩ := hext
      have hstrict : ∀ x ∈ l₁, ¬ cle x ≤ cle e := fun x hx => not_le.2 (h₁ x hx)
      rw [insertionSort_premier hstrict h₂]
      exact congrArg (e :: ·) (ih _ (by omega))

/-- **Emptying the queue** sorts it by the priorities cut at the bound. -/
theorem vider_eq (file : List Element) : vider file = file.insertionSort (fun a b => cle a ≤ cle b) :=
  viderDe_eq file.length file le_rfl

/-- sorted by the cut priorities is sorted by the priorities when those from the bound on are in order -/
theorem pairwise_prio_iff (hs : s.Pairwise fun a b => cle a ≤ cle b) :
    (s.Pairwise fun a b => a.prio ≤ b.prio) ↔
      (s.filter fun e => 10000000 ≤ e.prio).Pairwise fun a b => a.prio ≤ b.prio := by
  rw [List.pairwise_filter]
  apply Iff.intro
  · intro h
    exact h.imp fun hab _ _ => hab
  · intro h
    refine (hs.and h).imp ?_
    intro a b hab
    have hle : min a.prio 10000000 ≤ min b.prio 10000000 := hab.1
    by_cases ha : 10000000 ≤ a.prio
    · have hb : 10000000 ≤ b.prio := by
        rw [min_eq_right ha] at hle
        exact hle.trans (min_le_left _ _)
      exact hab.2 (by simpa using ha) (by simpa using hb)
    · rw [min_eq_left (not_le.1 ha).le] at hle
      exact hle.trans (min_le_left _ _)

/-- **The emptied queue** is right exactly when the priorities from the bound on were inserted in order. -/
theorem vider_triStable_iff (l : List Element) : TriStable l (vider l) ↔
    (l.filter fun e => 10000000 ≤ e.prio).Pairwise fun a b => a.prio ≤ b.prio := by
  rw [vider_eq]
  have hgrands : (l.insertionSort fun a b => cle a ≤ cle b).filter (fun e => 10000000 ≤ e.prio) =
      l.filter fun e => 10000000 ≤ e.prio := by
    apply filter_insertionSort
    intro a b ha hb
    rw [cle, cle, min_eq_right (of_decide_eq_true ha), min_eq_right (of_decide_eq_true hb)]
  have hpair := List.pairwise_insertionSort (fun a b : Element => cle a ≤ cle b) l
  rw [← hgrands, ← pairwise_prio_iff hpair]
  apply Iff.intro
  · intro h
    exact h.croissant
  · intro h
    refine ⟨List.perm_insertionSort _ l, h, ?_⟩
    intro prio
    apply filter_insertionSort
    intro a b ha hb
    have hab : a.prio = b.prio := by
      rw [of_decide_eq_true ha, of_decide_eq_true hb]
    rw [cle, cle, hab]

theorem run_inserer (file l : List Element) : run step file (l.map .inserer) = file ++ l := by
  induction l generalizing file with
  | nil => simp [run]
  | cons e l ih =>
    have h := ih (file ++ [e])
    rw [List.append_assoc] at h
    exact h

/-- **Sequences of calls and emptied queues**: an extraction is right exactly when some priority in the queue is below
10000000 or the head is a least element, and an emptied queue exactly when the priorities from 10000000 on were inserted
in their order. -/
theorem fileAPriorite_iff (appels : List Appel) (l : List Element) :
    (Always step Juste [] appels ↔ Always step Atteignable [] appels) ∧
      (TriStable l (vider (run step [] (l.map .inserer))) ↔
        (l.filter fun e => 10000000 ≤ e.prio).Pairwise fun a b => a.prio ≤ b.prio) := by
  apply And.intro
  · exact always_congr (fun _ _ (_ : True) _ => trivial) (fun file a _ => extraire_juste_iff file a) [] appels trivial
  · rw [run_inserer, List.nil_append]
    exact vider_triStable_iff l

/-- **Two great priorities** come out in the order of insertion. -/
theorem grandes_priorites :
    ¬ Always step Juste [] [.insererVal 1 20000000, .insererVal 2 10000000, .extraire] ∧
      ¬ TriStable [⟨1, 20000000⟩, ⟨2, 10000000⟩]
        (vider (run step [] ([⟨1, 20000000⟩, ⟨2, 10000000⟩].map .inserer))) := by
  apply And.intro
  · intro h
    have hjuste : Juste [⟨1, 20000000⟩, ⟨2, 10000000⟩] .extraire := h.2.2.1
    rw [extraire_juste_iff] at hjuste
    simpa using hjuste rfl (by simp)
  · rw [run_inserer, List.nil_append, vider_triStable_iff]
    decide

end FileAPriorite

end Semestre6.Ressources
