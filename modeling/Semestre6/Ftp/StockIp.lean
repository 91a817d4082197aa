/-
The master's list of unfinished transfers (stock_ip.c). The chain of nodes is a list of records; what a function does to
memory that is null or freed is undefined and gives no result.

- `fileName`, `bytes`, `contain`: the lookups, all of the first record of an address (`fileName_eq`, `bytes_eq`,
  `contain_iff`);
- `removeByIp`: only the head can be removed; a match further on is freed and then read;
  `removeByIp_eq`: what it gives when it is defined.
-/
import Semestre6.Ftp.Define

namespace Semestre6.Ftp.StockIp

structure Fiche where
  ip : Octets
  nbBytes : ℤ
  filename : Octets
deriving DecidableEq, Repr

def add (head : List Fiche) (ip : Octets) (nb : ℤ) (file : Octets) : List Fiche := ⟨ip, nb, file⟩ :: head

def removeFirst : List Fiche → Option (List Fiche)
  | [] => none
  | _ :: next => some next

def contain : List Fiche → Octets → Bool
  | [], _ => false
  | f :: next, ip => if f.ip = ip then true else contain next ip

def fileName : List Fiche → Octets → Option Octets
  | [], _ => none
  | f :: next, ip => if f.ip = ip then some f.filename else fileName next ip

def bytes : List Fiche → Octets → ℤ
  | [], _ => -1
  | f :: next, ip => if f.ip = ip then f.nbBytes else bytes next ip

/-- past the head, the loop frees the node it finds and reads its `next` -/
def removeByIp : List Fiche → Octets → Option (List Fiche)
  | [], _ => some []
  | f :: next, ip =>
    if f.ip = ip then removeFirst (f :: next) else if contain next ip then none else some (f :: next)

theorem contain_iff {l : List Fiche} {ip : Octets} : contain l ip = true ↔ ∃ f ∈ l, f.ip = ip := by
  induction l with
  | nil => simp [contain]
  | cons f l ih =>
    unfold contain
    split_ifs with h
    · simp [h]
    · simp [h, ih]

theorem contain_find {l : List Fiche} {ip : Octets} (h : contain l ip = true) :
    ∃ f, l.find? (·.ip = ip) = some f ∧ f ∈ l ∧ f.ip = ip := by
  obtain ⟨g, hg, hip⟩ := contain_iff.1 h
  cases hf : l.find? (·.ip = ip) with
  | none => exact absurd (by simpa using hip) (List.find?_eq_none.1 hf g hg)
  | some f => exact ⟨f, rfl, List.mem_of_find?_eq_some hf, by simpa using List.find?_some hf⟩

theorem fileName_eq {l : List Fiche} {ip : Octets} {f : Fiche} (h : l.find? (·.ip = ip) = some f) :
    fileName l ip = some f.filename := by
  induction l with
  | nil => simp at h
  | cons g l ih =>
    unfold fileName
    rw [List.find?_cons] at h
    split_ifs with hg
    · simp only [hg, decide_true, Option.some.injEq] at h; rw [h]
    · simp only [hg, decide_false] at h; exact ih h

theorem bytes_eq {l : List Fiche} {ip : Octets} {f : Fiche} (h : l.find? (·.ip = ip) = some f) :
    bytes l ip = f.nbBytes := by
  induction l with
  | nil => simp at h
  | cons g l ih =>
    unfold bytes
    rw [List.find?_cons] at h
    split_ifs with hg
    · simp only [hg, decide_true, Option.some.injEq] at h; rw [h]
    · simp only [hg, decide_false] at h; exact ih h

theorem fileName_absent {l : List Fiche} {ip : Octets} (h : contain l ip = false) : fileName l ip = none := by
  induction l with
  | nil => rfl
  | cons g l ih =>
    unfold contain at h
    unfold fileName
    split_ifs at h ⊢
    exact ih h

/-- where it is defined on an address that is there, the record removed is the one that the lookups gave -/
theorem removeByIp_eq {l l' : List Fiche} {ip : Octets} {f : Fiche} (h : l.find? (·.ip = ip) = some f)
    (hr : removeByIp l ip = some l') : l = f :: l' := by
  cases l with
  | nil => simp at h
  | cons g l =>
    rw [List.find?_cons] at h
    simp only [removeByIp] at hr
    split_ifs at hr with hg hc
    · simp only [hg, decide_true, Option.some.injEq] at h
      simp only [removeFirst, Option.some.injEq] at hr
      rw [h, hr]
    · simp only [hg, decide_false] at h
      refine absurd (contain_iff.2 ⟨f, List.mem_of_find?_eq_some h, ?_⟩) (by simpa using hc)
      simpa using List.find?_some h

end Semestre6.Ftp.StockIp
