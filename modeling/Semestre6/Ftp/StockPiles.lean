/-
The store of unfinished transfers as a map from address to a stack of (offset, file name) records.

- `Consultations`: the lookups answer from the top of the stack of the address, whatever the list (`consultations`);
- `stock_iff`: a sequence of `add` and `remove_by_ip` calls from the empty list pushes and pops on these stacks, each
  removal taking the record that the lookups give and leaving the others in their order, exactly when every removal is
  of the address at the head of the list or of an address that is not in it.
Witness that the condition is needed: `retrait_du_second`, the address of the second record.
-/
import Semestre6.Lib.Piles
import Semestre6.Lib.Transition
import Semestre6.Ftp.StockIp

namespace Semestre6.Ftp.StockIp

open Transition Piles

/-- the calls the master makes to change the list -/
inductive Appel where
  | add (ip : Octets) (nb : ℤ) (file : Octets)
  | removeByIp (ip : Octets)
deriving DecidableEq, Repr

def appel (l : List Fiche) : Appel → Option (List Fiche)
  | .add ip nb file => some (add l ip nb file)
  | .removeByIp ip => removeByIp l ip

/-! ## What the store is for -/

abbrev Stock := Octets → List (ℤ × Octets)

/-- one call on the stacks -/
def surStock (s : Stock) : Appel → Stock
  | .add ip nb file => empile s ip (nb, file)
  | .removeByIp ip => depile s ip

/-- one call on the list: a record joins at the head, or the first one of the address goes and the others keep their
order -/
def surListe (l : List Fiche) : Appel → List Fiche
  | .add ip nb file => ⟨ip, nb, file⟩ :: l
  | .removeByIp ip => l.eraseP (·.ip = ip)

def stock (l : List Fiche) : Stock := piles Fiche.ip (fun f => (f.nbBytes, f.filename)) l

/-- the lookups answer from the top of the stack of the address: 0, -1 and NULL when it is empty -/
structure Consultations (l : List Fiche) (s : Stock) : Prop where
  contain : ∀ ip, contain l ip = !(s ip).isEmpty
  bytes : ∀ ip, bytes l ip = ((s ip).head?.map Prod.fst).getD (-1)
  fileName : ∀ ip, fileName l ip = (s ip).head?.map Prod.snd

theorem bytes_absent {l : List Fiche} {ip : Octets} (h : contain l ip = false) : bytes l ip = -1 := by
  induction l with
  | nil => rfl
  | cons g l ih =>
    unfold contain at h
    unfold bytes
    split_ifs at h ⊢
    exact ih h

theorem find?_absent {l : List Fiche} {ip : Octets} (h : contain l ip = false) : l.find? (·.ip = ip) = none := by
  rw [List.find?_eq_none]
  intro f hf hip
  have hc : contain l ip = true := contain_iff.2 ⟨f, hf, by simpa using hip⟩
  rw [h] at hc
  exact Bool.false_ne_true hc

theorem consultations (l : List Fiche) : Consultations l (stock l) := by
  have htop (ip : Octets) : (stock l ip).head? = (l.find? (·.ip = ip)).map fun f => (f.nbBytes, f.filename) :=
    piles_head? ..
  have hvide (ip : Octets) : (stock l ip).isEmpty = (stock l ip).head?.isNone := by cases stock l ip <;> rfl
  refine ⟨?_, ?_, ?_⟩
  · intro ip
    rw [hvide, htop]
    cases hc : StockIp.contain l ip with
    | false => rw [find?_absent hc]; rfl
    | true =>
      obtain ⟨f, hf, -, -⟩ := contain_find hc
      rw [hf]; rfl
  · intro ip
    rw [htop]
    cases hc : StockIp.contain l ip with
    | false => rw [find?_absent hc, bytes_absent hc]; rfl
    | true =>
      obtain ⟨f, hf, -, -⟩ := contain_find hc
      rw [hf, bytes_eq hf]; rfl
  · intro ip
    rw [htop]
    cases hc : StockIp.contain l ip with
    | false => rw [find?_absent hc, fileName_absent hc]; rfl
    | true =>
      obtain ⟨f, hf, -, -⟩ := contain_find hc
      rw [hf, fileName_eq hf]; rfl

theorem stock_surListe (l : List Fiche) (a : Appel) : stock (surListe l a) = surStock (stock l) a := by
  cases a with
  | add ip nb file => exact piles_cons ..
  | removeByIp ip => exact piles_eraseP ..

theorem stock_run (appels : List Appel) (l : List Fiche) :
    stock (run surListe l appels) = run surStock (stock l) appels := by
  induction appels generalizing l with
  | nil => rfl
  | cons a appels ih =>
    calc stock (run surListe (surListe l a) appels)
        = run surStock (stock (surListe l a)) appels := ih _
      _ = run surStock (surStock (stock l) a) appels := by rw [stock_surListe]

/-! ## When the code does it -/

/-- a removal is of the address of the record added last among those still there, or of an address that is not there -/
def TeteOuAbsente (l : List Fiche) : Appel → Prop
  | .add .. => True
  | .removeByIp ip => l.head?.map Fiche.ip = some ip ∨ contain l ip = false

/-- a call on the list is defined exactly under this condition, and does then what it is for -/
theorem appel_iff (l : List Fiche) (a : Appel) : appel l a = some (surListe l a) ↔ TeteOuAbsente l a := by
  cases a with
  | add ip nb file => exact ⟨fun _ => trivial, fun _ => rfl⟩
  | removeByIp ip =>
    cases l with
    | nil => exact ⟨fun _ => Or.inr rfl, fun _ => rfl⟩
    | cons f l =>
      by_cases hf : f.ip = ip
      · simp [appel, removeByIp, removeFirst, surListe, TeteOuAbsente, hf]
      · by_cases hc : contain l ip = true
        · simp [appel, removeByIp, TeteOuAbsente, contain, hf, hc]
        · have hc' : contain l ip = false := by simpa using hc
          have hl : l.eraseP (·.ip = ip) = l :=
            List.eraseP_of_forall_not fun g hg => by simpa using List.find?_eq_none.1 (find?_absent hc') g hg
          simp [appel, removeByIp, surListe, TeteOuAbsente, contain, hf, hc', hl]

theorem appel_indefini {l : List Fiche} {a : Appel} (h : ¬TeteOuAbsente l a) : appel l a = none := by
  cases a with
  | add ip nb file => exact absurd trivial h
  | removeByIp ip =>
    cases l with
    | nil => exact absurd (Or.inr rfl) h
    | cons f l =>
      have hf : f.ip ≠ ip := fun hf => h (Or.inl (by simp [hf]))
      have hc : contain l ip = true := by
        by_contra hc
        exact h (Or.inr (by simp [contain, hf, hc]))
      simp [appel, removeByIp, hf, hc]

theorem runM_appel_iff (appels : List Appel) (l : List Fiche) :
    runM appel l appels = some (run surListe l appels) ↔ AlwaysM appel TeteOuAbsente l appels := by
  induction appels generalizing l with
  | nil => exact ⟨fun _ => trivial, fun _ => rfl⟩
  | cons a appels ih =>
    by_cases ha : TeteOuAbsente l a
    · have hs : appel l a = some (surListe l a) := (appel_iff l a).2 ha
      rw [alwaysM_cons hs, ← ih]
      simp [runM, run, hs, ha]
    · simp [runM, AlwaysM, appel_indefini ha, ha]

/-- the calls are defined and leave the list that the stacks call for -/
def CommePiles (appels : List Appel) : Prop :=
  ∃ l, runM appel [] appels = some l ∧ l = run surListe [] appels ∧ stock l = run surStock (fun _ => []) appels ∧
    Consultations l (run surStock (fun _ => []) appels)

/-- **The store of unfinished transfers.** For every sequence of calls from the empty list: the calls are defined and
leave the list whose lookups answer from the tops of the stacks, each `add` a push, each `remove_by_ip` the pop of the
record that the lookups gave, all other records in their order, if and only if every removal is of the address at the
head of the list or of one that is not in it. -/
theorem stock_iff (appels : List Appel) : CommePiles appels ↔ AlwaysM appel TeteOuAbsente [] appels := by
  have hst : stock (run surListe [] appels) = run surStock (fun _ => []) appels := stock_run appels []
  rw [← runM_appel_iff]
  constructor
  · rintro ⟨l, hr, rfl, -, -⟩
    exact hr
  · intro h
    exact ⟨_, h, rfl, hst, hst ▸ consultations _⟩

/-- **The second record of the list.** With "a" added before "b", the removal of "a" frees the node that the head still
points to and reads its `next`. -/
theorem retrait_du_second :
    ¬CommePiles [.add (octets "a") 0 (octets "f"), .add (octets "b") 0 (octets "g"), .removeByIp (octets "a")] := by
  rintro ⟨l, hl, -⟩
  have hn : runM appel [] [.add (octets "a") 0 (octets "f"), .add (octets "b") 0 (octets "g"),
      .removeByIp (octets "a")] = none := by decide
  rw [hn] at hl
  cases hl

end Semestre6.Ftp.StockIp
