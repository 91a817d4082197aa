/-
The descriptors of a pipeline (shell.c): the shell opens the two files of the redirections and one pipe for each
command, forks a child for each, closes a write end after each fork and everything at the end. A child sets its
descriptors 0 and 1 and closes every pipe before `execvp`.

- `prepare_pret`, `Pret.parent`: what the shell's table holds before the loop and after each fork;
- `enfant_spec`: what a child's table holds at `execvp`;
- `pipeline`: every child reads from the pipe before it and writes to its own, or the files, or the shell's 0 and 1;
  nobody else holds the end of a pipe.
The array of pipes is as long as the line needs.
-/
import Semestre6.Lib.Descripteurs
import Semestre6.Shell.Readcmd

namespace Semestre6.Shell

open Semestre6.Ftp (Octets octets)
open Descripteurs

variable {α : Type*}

/-- what a descriptor refers to: an object that the shell had open before the line, the file of a redirection, or the
end of a pipe of the line -/
inductive Objet (α : Type*) where
  | ancien (a : α)
  | fichierIn
  | fichierOut
  | lecture (k : ℕ)
  | ecriture (k : ℕ)
deriving DecidableEq, Repr

/-- the variables of the loop of `main`; `in` and `out` are set by the redirections only -/
structure Mise (α : Type*) where
  table : Table (Objet α)
  entree : Option ℕ
  sortie : Option ℕ
  tubes : ℕ → ℕ × ℕ

def lengthSeq (l : Cmdline) : ℕ := (l.seq.getD []).length

/-- `open` of the file of a redirection -/
def ouvreFichier (t : Table (Objet α)) (nom : Option Octets) (o : Objet α) : Table (Objet α) × Option ℕ :=
  match nom with
  | some _ => ((t.ouvre o).1, some (t.ouvre o).2)
  | none => (t, none)

/-- `pipe(tubes[i])` -/
def tube (s : Mise α) (i : ℕ) : Mise α :=
  let (t, r) := s.table.ouvre (.lecture i)
  let (t, w) := t.ouvre (.ecriture i)
  { s with table := t, tubes := Function.update s.tubes i (r, w) }

/-- the shell before the loop over the commands -/
def prepare (t : Table α) (l : Cmdline) : Mise α :=
  let (t, out) := ouvreFichier (t.map .ancien) l.outFile .fichierOut
  let (t, inn) := ouvreFichier t l.inFile .fichierIn
  (List.range (lengthSeq l)).foldl tube ⟨t, inn, out, fun _ => (0, 0)⟩

def closePipe (t : Table (Objet α)) (tubes : ℕ → ℕ × ℕ) (seqLen : ℕ) : Table (Objet α) :=
  (List.range seqLen).foldl (fun t i => (t.ferme (tubes i).1).ferme (tubes i).2) t

/-- `dup2` of the file of a redirection, and its `close` -/
def redirige (t : Table (Objet α)) (fd : Option ℕ) (nouveau : ℕ) : Table (Objet α) :=
  match fd with
  | some fd => (t.dup2 fd nouveau).ferme fd
  | none => t

/-- child `i` up to `close_pipe` -/
def branche (s : Mise α) (length i : ℕ) : Table (Objet α) :=
  if 1 < length then
    if i = 0 then redirige (s.table.dup2 (s.tubes i).2 1) s.entree 0
    else if i = length - 1 then redirige (s.table.dup2 (s.tubes (i - 1)).1 0) s.sortie 1
    else (s.table.dup2 (s.tubes (i - 1)).1 0).dup2 (s.tubes i).2 1
  else redirige (redirige s.table s.sortie 1) s.entree 0

/-- the table of child `i` at `execvp` -/
def enfant (s : Mise α) (length i : ℕ) : Table (Objet α) := closePipe (branche s length i) s.tubes length

/-- the tables of the children at `execvp`, and the shell's own when it starts waiting; `exit` ends the shell -/
structure Lancement (α : Type*) where
  enfants : List (Table (Objet α))
  attente : Option (Table (Objet α))

/-- the loop over the commands, from command `i` on -/
def boucle (length : ℕ) (s : Mise α) (i : ℕ) : List (List Octets) → Lancement α
  | [] => ⟨[], some (closePipe s.table s.tubes length)⟩
  | cmd :: seq =>
    if cmd.head? = some (octets "exit") then ⟨[], none⟩
    else
      let r := boucle length { s with table := s.table.ferme (s.tubes i).2 } (i + 1) seq
      ⟨enfant s length i :: r.enfants, r.attente⟩

/-- a line that `readcmd` accepted -/
def lance (t : Table α) (l : Cmdline) : Lancement α := boucle (lengthSeq l) (prepare t l) 0 (l.seq.getD [])

/-! ## The shell's table -/

/-- the file of a redirection is open, at a descriptor that is neither 0, 1 nor 2 -/
def Fichier (t : Table (Objet α)) (nom : Option Octets) (fd : Option ℕ) (o : Objet α) : Prop :=
  match nom, fd with
  | none, none => True
  | some _, some fd => 3 ≤ fd ∧ t.desc fd = some o
  | _, _ => False

/-- `m` pipes are open and the write ends below `i` are closed again; the ends have no other descriptor -/
structure Pret (t : Table α) (l : Cmdline) (s : Mise α) (m i : ℕ) : Prop where
  bas : ∀ fd < 3, s.table.desc fd = (t.desc fd).map .ancien
  haut : ∀ k < m, 3 ≤ (s.tubes k).1 ∧ 3 ≤ (s.tubes k).2
  lecture : ∀ fd k, s.table.desc fd = some (.lecture k) ↔ k < m ∧ fd = (s.tubes k).1
  ecriture : ∀ fd k, s.table.desc fd = some (.ecriture k) ↔ i ≤ k ∧ k < m ∧ fd = (s.tubes k).2
  entree : Fichier s.table l.inFile s.entree .fichierIn
  sortie : Fichier s.table l.outFile s.sortie .fichierOut

/-- a descriptor that was closed is none of 0, 1 and 2 -/
theorem haut_of_ferme {t : Table α} (h0 : ∀ fd < 3, (t.desc fd).isSome = true) {t' : Table (Objet α)}
    (hb : ∀ fd < 3, t'.desc fd = (t.desc fd).map .ancien) {fd : ℕ} (hf : t'.desc fd = none) : 3 ≤ fd := by
  by_contra hlt
  have h := h0 fd (by omega)
  have h' := hb fd (by omega)
  rw [hf] at h'
  cases hd : t.desc fd with
  | none => rw [hd] at h; exact Bool.false_ne_true h
  | some a => rw [hd] at h'; cases h'

/-- what leaves the file open at its descriptor, whichever it is -/
theorem Fichier.garde {t t' : Table (Objet α)} {nom : Option Octets} {fd : Option ℕ} {o : Objet α}
    (h : Fichier t nom fd o) (hg : ∀ x, 3 ≤ x → t.desc x = some o → t'.desc x = some o) : Fichier t' nom fd o := by
  cases nom with
  | none =>
    cases fd with
    | none => trivial
    | some fd => exact h
  | some n =>
    cases fd with
    | none => exact h
    | some fd => exact ⟨h.1, hg fd h.1 h.2⟩

/-- an object put at a closed descriptor -/
theorem Fichier.ouvre {t : Table (Objet α)} {nom : Option Octets} {fd : Option ℕ} {o : Objet α}
    (h : Fichier t nom fd o) (a : Objet α) : Fichier (t.ouvre a).1 nom fd o := by
  apply h.garde
  intro x _ hx
  rw [Table.ouvre_desc, if_neg, hx]
  intro he
  have hf := t.ouvre_ferme a
  rw [← he, hx] at hf
  cases hf

/-- the close of a descriptor of something else -/
theorem Fichier.ferme {t : Table (Objet α)} {nom : Option Octets} {fd : Option ℕ} {o : Objet α}
    (h : Fichier t nom fd o) {x : ℕ} (hx : t.desc x ≠ some o) : Fichier (t.ferme x) nom fd o := by
  apply h.garde
  intro y _ hy
  rw [Table.ferme_desc, if_neg, hy]
  intro he
  exact hx (he ▸ hy)

theorem Fichier.dup2 {t : Table (Objet α)} {nom : Option Octets} {fd : Option ℕ} {o a : Objet α}
    (h : Fichier t nom fd o) {x y : ℕ} (hx : t.desc x = some a) (hy : y < 3) : Fichier (t.dup2 x y) nom fd o := by
  apply h.garde
  intro z hz hzo
  rw [Table.dup2_desc hx, if_neg (by omega), hzo]

/-- before the pipes: the files are open and no descriptor refers to a pipe -/
theorem ouvreFichier_pret {t : Table α} (h0 : ∀ fd < 3, (t.desc fd).isSome = true) (t' : Table (Objet α))
    (hb : ∀ fd < 3, t'.desc fd = (t.desc fd).map .ancien)
    (ht : ∀ fd k, t'.desc fd ≠ some (.lecture k) ∧ t'.desc fd ≠ some (.ecriture k)) (nom : Option Octets) {o : Objet α}
    (ho : ∀ k, o ≠ .lecture k ∧ o ≠ .ecriture k) :
    (∀ fd < 3, (ouvreFichier t' nom o).1.desc fd = (t.desc fd).map .ancien) ∧
      (∀ fd k, (ouvreFichier t' nom o).1.desc fd ≠ some (.lecture k) ∧
        (ouvreFichier t' nom o).1.desc fd ≠ some (.ecriture k)) ∧
      Fichier (ouvreFichier t' nom o).1 nom (ouvreFichier t' nom o).2 o := by
  cases nom with
  | none => exact ⟨hb, ht, trivial⟩
  | some n =>
    have hp := haut_of_ferme h0 hb (t'.ouvre_ferme o)
    have hdesc := t'.ouvre_desc o
    refine ⟨?_, ?_, hp, ?_⟩
    · intro fd hfd
      simp only [ouvreFichier]
      rw [hdesc, if_neg (by omega)]
      exact hb fd hfd
    · intro fd k
      simp only [ouvreFichier]
      rw [hdesc]
      split_ifs with he
      · simpa using ho k
      · exact ht fd k
    · simp only [ouvreFichier]
      rw [hdesc, if_pos rfl]

theorem Pret.tube {t : Table α} (h0 : ∀ fd < 3, (t.desc fd).isSome = true) {l : Cmdline} {s : Mise α} {m : ℕ}
    (h : Pret t l s m 0) : Pret t l (tube s m) (m + 1) 0 := by
  have hr := s.table.ouvre_ferme (.lecture m)
  have hw := (s.table.ouvre (.lecture m)).1.ouvre_ferme (.ecriture m)
  have hdr := s.table.ouvre_desc (.lecture m)
  have hdw := (s.table.ouvre (.lecture m)).1.ouvre_desc (.ecriture m)
  set r := (s.table.ouvre (.lecture m)).2 with hrdef
  set w := ((s.table.ouvre (.lecture m)).1.ouvre (.ecriture m)).2 with hwdef
  have hdesc (x : ℕ) : (Shell.tube s m).table.desc x =
      if x = w then some (.ecriture m) else if x = r then some (.lecture m) else s.table.desc x := by
    change ((s.table.ouvre (.lecture m)).1.ouvre (.ecriture m)).1.desc x = _
    rw [hdw, hdr]
  have htubes (k : ℕ) : (Shell.tube s m).tubes k = if k = m then (r, w) else s.tubes k := by
    change Function.update s.tubes m (r, w) k = _
    rw [Function.update_apply]
  have hwr : w ≠ r := by
    intro he
    rw [hdr, he, if_pos rfl] at hw
    cases hw
  have hw' : s.table.desc w = none := by
    rw [hdr, if_neg hwr] at hw
    exact hw
  -- an open descriptor is neither of the two
  have hneuf {x : ℕ} {o : Objet α} (hx : s.table.desc x = some o) : x ≠ w ∧ x ≠ r := by
    constructor
    · intro he
      rw [he, hw'] at hx
      cases hx
    · intro he
      rw [he, hr] at hx
      cases hx
  have hr3 : 3 ≤ r := haut_of_ferme h0 h.bas hr
  have hw3 : 3 ≤ w := haut_of_ferme h0 h.bas hw'
  refine ⟨?_, ?_, ?_, ?_, (h.entree.ouvre _).ouvre _, (h.sortie.ouvre _).ouvre _⟩
  · intro fd hfd
    rw [hdesc, if_neg (by omega), if_neg (by omega)]
    exact h.bas fd hfd
  · intro k hk
    rw [htubes]
    split_ifs with hkm
    · exact ⟨hr3, hw3⟩
    · exact h.haut k (by omega)
  · intro fd k
    have hk (hkm : k < m) : (s.tubes k).1 ≠ w ∧ (s.tubes k).1 ≠ r := hneuf ((h.lecture _ k).2 ⟨hkm, rfl⟩)
    rw [hdesc, htubes]
    split_ifs with hfw hfr hkm hkm <;> grind [h.lecture fd k]
  · intro fd k
    have hk (hkm : k < m) : (s.tubes k).2 ≠ w ∧ (s.tubes k).2 ≠ r :=
      hneuf ((h.ecriture _ k).2 ⟨Nat.zero_le k, hkm, rfl⟩)
    rw [hdesc, htubes]
    split_ifs with hfw hfr hkm hkm <;> grind [h.ecriture fd k]

theorem prepare_pret {t : Table α} (h0 : ∀ fd < 3, (t.desc fd).isSome = true) (l : Cmdline) :
    Pret t l (prepare t l) (lengthSeq l) 0 := by
  obtain ⟨hb, ht, hout⟩ := ouvreFichier_pret h0 (t.map Objet.ancien) (fun fd _ => rfl)
    (fun fd k => by simp) l.outFile (o := .fichierOut) (by simp)
  obtain ⟨hb', ht', hin⟩ := ouvreFichier_pret h0 _ hb ht l.inFile (o := .fichierIn) (by simp)
  set t₁ := ouvreFichier (t.map Objet.ancien) l.outFile .fichierOut with ht₁
  set t₂ := ouvreFichier t₁.1 l.inFile .fichierIn with ht₂
  have hout' : Fichier t₂.1 l.outFile t₁.2 .fichierOut := by
    cases hi : l.inFile with
    | none =>
      have he : t₂.1 = t₁.1 := by rw [ht₂, hi]; rfl
      rw [he]
      exact hout
    | some n =>
      have he : t₂.1 = (t₁.1.ouvre .fichierIn).1 := by rw [ht₂, hi]; rfl
      rw [he]
      exact hout.ouvre _
  have hinit : Pret t l ⟨t₂.1, t₂.2, t₁.2, fun _ => (0, 0)⟩ 0 0 :=
    ⟨hb', fun k hk => by omega, fun fd k => by simp [(ht' fd k).1], fun fd k => by simp [(ht' fd k).2], hin, hout'⟩
  have hm (m : ℕ) : Pret t l ((List.range m).foldl tube ⟨t₂.1, t₂.2, t₁.2, fun _ => (0, 0)⟩) m 0 := by
    induction m with
    | zero => exact hinit
    | succ m ih =>
      rw [List.range_succ, List.foldl_append]
      exact ih.tube h0
  exact hm (lengthSeq l)

/-- the close after the fork of child `i` -/
theorem Pret.parent {t : Table α} {l : Cmdline} {s : Mise α} {n i : ℕ} (h : Pret t l s n i) (hi : i < n) :
    Pret t l { s with table := s.table.ferme (s.tubes i).2 } n (i + 1) := by
  have hd : s.table.desc (s.tubes i).2 = some (.ecriture i) := (h.ecriture _ _).2 ⟨le_rfl, hi, rfl⟩
  have hh := (h.haut i hi).2
  have hdesc := s.table.ferme_desc (s.tubes i).2
  refine ⟨?_, h.haut, ?_, ?_, ?_, ?_⟩
  · intro fd hfd
    simp only [hdesc]
    rw [if_neg (by omega)]
    exact h.bas fd hfd
  · intro fd k
    simp only [hdesc]
    split_ifs with hf
    · grind [h.lecture fd k]
    · exact h.lecture fd k
  · intro fd k
    simp only [hdesc]
    split_ifs with hf
    · grind [h.ecriture fd k]
    · grind [h.ecriture fd k]
  · exact h.entree.ferme (by rw [hd]; simp)
  · exact h.sortie.ferme (by rw [hd]; simp)

/-! ## A child -/

/-- a redirection puts the file at 0 or 1 and opens nothing else -/
theorem redirige_spec {t : Table (Objet α)} {nom : Option Octets} {fd : Option ℕ} {o : Objet α}
    (h : Fichier t nom fd o) {x : ℕ} (hx : x < 2) :
    (redirige t fd x).desc x = (if nom.isSome then some o else t.desc x) ∧
      (∀ y < 2, y ≠ x → (redirige t fd x).desc y = t.desc y) ∧
      ∀ y, 2 ≤ y → (redirige t fd x).desc y = none ∨ (redirige t fd x).desc y = t.desc y := by
  cases nom with
  | none =>
    cases fd with
    | none => exact ⟨rfl, fun _ _ _ => rfl, fun _ _ => Or.inr rfl⟩
    | some fd => exact absurd h id
  | some n =>
    cases fd with
    | none => exact absurd h id
    | some fd =>
      obtain ⟨h3, hd⟩ := h
      have hdesc (y : ℕ) : (redirige t (some fd) x).desc y =
          if y = fd then none else if y = x then some o else t.desc y := by
        change ((t.dup2 fd x).ferme fd).desc y = _
        rw [Table.ferme_desc, Table.dup2_desc hd]
      refine ⟨?_, ?_, ?_⟩
      · rw [hdesc, if_neg (by omega), if_pos rfl]
        rfl
      · intro y hy hyx
        rw [hdesc, if_neg (by omega), if_neg hyx]
      · intro y hy
        rw [hdesc, if_neg (show y ≠ x by omega)]
        split_ifs
        · exact Or.inl rfl
        · exact Or.inr rfl

/-- the redirection of one file leaves the other one where it is -/
theorem Fichier.redirige {t : Table (Objet α)} {nom nom' : Option Octets} {fd fd' : Option ℕ} {o o' : Objet α}
    (h : Fichier t nom fd o) (h' : Fichier t nom' fd' o') (ho : o' ≠ o) {x : ℕ} (hx : x < 2) :
    Fichier (redirige t fd' x) nom fd o := by
  cases nom' with
  | none =>
    cases fd' with
    | none => exact h
    | some fd' => exact absurd h' id
  | some n =>
    cases fd' with
    | none => exact absurd h' id
    | some fd' =>
      obtain ⟨h3, hd⟩ := h'
      apply (h.dup2 hd (by omega : x < 3)).ferme
      rw [Table.dup2_desc hd, if_neg (by omega), hd]
      simpa using ho

/-- what descriptor 0 of child `i` should refer to -/
def attendu0 (t : Table α) (l : Cmdline) (i : ℕ) : Option (Objet α) :=
  if i = 0 then (if l.inFile.isSome then some .fichierIn else (t.desc 0).map .ancien) else some (.lecture (i - 1))

/-- what descriptor 1 of child `i` should refer to -/
def attendu1 (t : Table α) (l : Cmdline) (i : ℕ) : Option (Objet α) :=
  if i = lengthSeq l - 1 then (if l.outFile.isSome then some .fichierOut else (t.desc 1).map .ancien)
  else some (.ecriture i)

/-- before `close_pipe`: 0 and 1 are as they should be and nothing new is open above -/
theorem branche_spec {t : Table α} {l : Cmdline} {s : Mise α} {i : ℕ} (h : Pret t l s (lengthSeq l) i)
    (hi : i < lengthSeq l) :
    (branche s (lengthSeq l) i).desc 0 = attendu0 t l i ∧ (branche s (lengthSeq l) i).desc 1 = attendu1 t l i ∧
      ∀ y, 2 ≤ y → (branche s (lengthSeq l) i).desc y = none ∨ (branche s (lengthSeq l) i).desc y = s.table.desc y := by
  have hb0 := h.bas 0 (by omega)
  have hb1 := h.bas 1 (by omega)
  have hw : s.table.desc (s.tubes i).2 = some (.ecriture i) := (h.ecriture _ _).2 ⟨le_rfl, hi, rfl⟩
  have hr (hpos : i ≠ 0) : s.table.desc (s.tubes (i - 1)).1 = some (.lecture (i - 1)) :=
    (h.lecture _ _).2 ⟨by omega, rfl⟩
  by_cases hn : 1 < lengthSeq l
  · by_cases hz : i = 0
    · -- the first command
      have hU : branche s (lengthSeq l) i = redirige (s.table.dup2 (s.tubes i).2 1) s.entree 0 := by
        simp [branche, hn, hz]
      obtain ⟨h0, h1, h2⟩ := redirige_spec (h.entree.dup2 hw (by omega : 1 < 3)) (by omega : 0 < 2)
      rw [hU, h0, h1 1 (by omega) (by omega), Table.dup2_desc hw, Table.dup2_desc hw]
      refine ⟨by simp [attendu0, hz, hb0], by simp [attendu1, show i ≠ lengthSeq l - 1 by omega], ?_⟩
      intro y hy
      have h2' := h2 y hy
      rw [Table.dup2_desc hw, if_neg (by omega : y ≠ 1)] at h2'
      exact h2'
    · by_cases hl : i = lengthSeq l - 1
      · -- the last one
        have hU : branche s (lengthSeq l) i = redirige (s.table.dup2 (s.tubes (i - 1)).1 0) s.sortie 1 := by
          simp [branche, hn, hz, ← hl]
        obtain ⟨h1, h0, h2⟩ := redirige_spec (h.sortie.dup2 (hr hz) (by omega : 0 < 3)) (by omega : 1 < 2)
        rw [hU, h1, h0 0 (by omega) (by omega), Table.dup2_desc (hr hz), Table.dup2_desc (hr hz)]
        refine ⟨by simp [attendu0, hz], by simp [attendu1, ← hl, hb1], ?_⟩
        intro y hy
        have h2' := h2 y hy
        rw [Table.dup2_desc (hr hz), if_neg (by omega : y ≠ 0)] at h2'
        exact h2'
      · have hU : branche s (lengthSeq l) i = (s.table.dup2 (s.tubes (i - 1)).1 0).dup2 (s.tubes i).2 1 := by
          simp [branche, hn, hz, hl]
        have hw3 := (h.haut i hi).2
        have hw' : (s.table.dup2 (s.tubes (i - 1)).1 0).desc (s.tubes i).2 = some (.ecriture i) := by
          rw [Table.dup2_desc (hr hz), if_neg (by omega), hw]
        have hdesc (y : ℕ) : (branche s (lengthSeq l) i).desc y =
            if y = 1 then some (.ecriture i) else if y = 0 then some (.lecture (i - 1)) else s.table.desc y := by
          rw [hU, Table.dup2_desc hw', Table.dup2_desc (hr hz)]
        refine ⟨by simp [hdesc, attendu0, hz], by simp [hdesc, attendu1, hl], ?_⟩
        intro y hy
        right
        rw [hdesc, if_neg (by omega), if_neg (by omega)]
  · -- a single command
    obtain rfl : i = 0 := by omega
    have hone : lengthSeq l = 1 := by omega
    have hU : branche s (lengthSeq l) 0 = redirige (redirige s.table s.sortie 1) s.entree 0 := by simp [branche, hn]
    obtain ⟨o1, o0, o2⟩ := redirige_spec h.sortie (by omega : 1 < 2)
    obtain ⟨i0, i1, i2⟩ := redirige_spec (h.entree.redirige h.sortie (by simp) (by omega : 1 < 2)) (by omega : 0 < 2)
    rw [hU, i0, i1 1 (by omega) (by omega), o1, o0 0 (by omega) (by omega), hb0, hb1]
    refine ⟨by simp [attendu0], by simp [attendu1, hone], ?_⟩
    intro y hy
    rcases i2 y hy with hy' | hy'
    · exact Or.inl hy'
    · rw [hy']
      exact o2 y hy

theorem closePipe_desc (t : Table (Objet α)) (tubes : ℕ → ℕ × ℕ) (n x : ℕ) :
    (closePipe t tubes n).desc x = if ∃ k < n, x = (tubes k).1 ∨ x = (tubes k).2 then none else t.desc x := by
  have hfold : closePipe t tubes n =
      ((List.range n).flatMap fun k => [(tubes k).1, (tubes k).2]).foldl Table.ferme t := by
    rw [List.foldl_flatMap]
    rfl
  rw [hfold, Table.foldl_ferme_desc]
  simp

/-- where a table has nothing or what the shell's has, `close_pipe` leaves no end of a pipe -/
theorem Pret.sansTube {t : Table α} {l : Cmdline} {s : Mise α} {n i : ℕ} (h : Pret t l s n i) {T : Table (Objet α)}
    {fd : ℕ} (hT : T.desc fd = none ∨ T.desc fd = s.table.desc fd) (k : ℕ) :
    (closePipe T s.tubes n).desc fd ≠ some (.lecture k) ∧ (closePipe T s.tubes n).desc fd ≠ some (.ecriture k) := by
  rw [closePipe_desc]
  split_ifs with hc
  · simp
  · rcases hT with hn | he
    · simp [hn]
    · rw [he]
      constructor
      · intro hl
        obtain ⟨hk, rfl⟩ := (h.lecture fd k).1 hl
        exact hc ⟨k, hk, Or.inl rfl⟩
      · intro hl
        obtain ⟨-, hk, rfl⟩ := (h.ecriture fd k).1 hl
        exact hc ⟨k, hk, Or.inr rfl⟩

/-- the ends of the pipes that a table holds are the ones that child `i` works with -/
structure Raccorde (t : Table α) (l : Cmdline) (i : ℕ) (T : Table (Objet α)) : Prop where
  entree : T.desc 0 = attendu0 t l i
  sortie : T.desc 1 = attendu1 t l i
  autres : ∀ fd k, 2 ≤ fd → T.desc fd ≠ some (.lecture k) ∧ T.desc fd ≠ some (.ecriture k)

theorem enfant_spec {t : Table α} {l : Cmdline} {s : Mise α} {i : ℕ} (h : Pret t l s (lengthSeq l) i)
    (hi : i < lengthSeq l) : Raccorde t l i (enfant s (lengthSeq l) i) := by
  obtain ⟨h0, h1, h2⟩ := branche_spec h hi
  have hbas (x : ℕ) (hx : x < 3) : (enfant s (lengthSeq l) i).desc x = (branche s (lengthSeq l) i).desc x := by
    rw [enfant, closePipe_desc, if_neg]
    rintro ⟨k, hk, hx'⟩
    have hh := h.haut k hk
    omega
  exact ⟨by rw [hbas 0 (by omega), h0], by rw [hbas 1 (by omega), h1], fun fd k hfd => h.sansTube (h2 fd hfd) k⟩

/-- the write end of a pipe is at descriptor 1 of its own command -/
theorem Raccorde.ecriture {t : Table α} {l : Cmdline} {i : ℕ} {T : Table (Objet α)} (h : Raccorde t l i T) {fd k : ℕ}
    (hk : T.desc fd = some (.ecriture k)) : fd = 1 ∧ k = i := by
  by_cases hfd : 2 ≤ fd
  · exact absurd hk (h.autres fd k hfd).2
  · obtain rfl | rfl : fd = 0 ∨ fd = 1 := by omega
    · rw [h.entree, attendu0] at hk
      split_ifs at hk
      · cases hk
      · cases hd : t.desc 0 <;> simp [hd] at hk
      · cases hk
    · rw [h.sortie, attendu1] at hk
      split_ifs at hk
      · cases hk
      · cases hd : t.desc 1 <;> simp [hd] at hk
      · cases hk
        exact ⟨rfl, rfl⟩

/-! ## The loop -/

/-- no descriptor refers to the end of a pipe -/
def SansTube (T : Table (Objet α)) : Prop := ∀ fd k, T.desc fd ≠ some (.lecture k) ∧ T.desc fd ≠ some (.ecriture k)

/-- the invariant of the loop is that of the shell's table -/
theorem boucle_raccorde {t : Table α} {l : Cmdline} (seq : List (List Octets)) {s : Mise α} {i : ℕ}
    (h : Pret t l s (lengthSeq l) i) (hi : i + seq.length = lengthSeq l) :
    (∀ j T, (boucle (lengthSeq l) s i seq).enfants[j]? = some T → Raccorde t l (i + j) T) ∧
      (∀ T, (boucle (lengthSeq l) s i seq).attente = some T → SansTube T) ∧
      ((∀ cmd ∈ seq, cmd.head? ≠ some (octets "exit")) →
        (boucle (lengthSeq l) s i seq).enfants.length = seq.length ∧
          (boucle (lengthSeq l) s i seq).attente.isSome = true) := by
  induction seq generalizing s i with
  | nil =>
    refine ⟨fun j T hT => by simp [boucle] at hT, ?_, fun _ => ⟨rfl, rfl⟩⟩
    intro T hT
    cases hT
    exact fun fd k => h.sansTube (Or.inr rfl) k
  | cons cmd seq ih =>
    rw [List.length_cons] at hi
    by_cases he : cmd.head? = some (octets "exit")
    · have hb : boucle (lengthSeq l) s i (cmd :: seq) = ⟨[], none⟩ := by simp [boucle, he]
      rw [hb]
      refine ⟨?_, ?_, fun hex => absurd he (hex cmd List.mem_cons_self)⟩
      · intro j T hT
        simp at hT
      · intro T hT
        cases hT
    · obtain ⟨hr, ha, hx⟩ := ih (h.parent (by omega)) (by omega)
      have hb : boucle (lengthSeq l) s i (cmd :: seq) =
          ⟨enfant s (lengthSeq l) i ::
            (boucle (lengthSeq l) { s with table := s.table.ferme (s.tubes i).2 } (i + 1) seq).enfants,
          (boucle (lengthSeq l) { s with table := s.table.ferme (s.tubes i).2 } (i + 1) seq).attente⟩ := by
        simp [boucle, he]
      rw [hb]
      refine ⟨?_, ha, ?_⟩
      · intro j T hT
        cases j with
        | zero =>
          simp only [List.getElem?_cons_zero, Option.some.injEq] at hT
          rw [← hT]
          exact enfant_spec h (by omega)
        | succ j =>
          rw [List.getElem?_cons_succ] at hT
          rw [show i + (j + 1) = i + 1 + j by omega]
          exact hr j T hT
      · intro hex
        obtain ⟨hlen, hsome⟩ := hx fun c hc => hex c (List.mem_cons_of_mem cmd hc)
        exact ⟨by simp [hlen], hsome⟩

/-- **The pipeline.** With 0, 1 and 2 open in the shell, whatever else is and for every number of commands: child `i`
reaches `execvp` with its descriptor 0 on pipe `i - 1`, or for the first command on the input file or the shell's 0,
its descriptor 1 on pipe `i`, or for the last one on the output file or the shell's 1, and no other descriptor on a
pipe; the shell waits with no end of a pipe, so that the write end of a pipe is held by one command only, as its
descriptor 1; and unless a command is `exit`, every command is started and the shell waits. -/
theorem pipeline (t : Table α) (h0 : ∀ fd < 3, (t.desc fd).isSome = true) (l : Cmdline) :
    (∀ i T, (lance t l).enfants[i]? = some T →
      Raccorde t l i T ∧ ∀ fd k, T.desc fd = some (.ecriture k) → fd = 1 ∧ k = i) ∧
    (∀ T, (lance t l).attente = some T → SansTube T) ∧
    ((∀ cmd ∈ l.seq.getD [], cmd.head? ≠ some (octets "exit")) →
      (lance t l).enfants.length = lengthSeq l ∧ (lance t l).attente.isSome = true) := by
  obtain ⟨hr, ha, hx⟩ := boucle_raccorde (l.seq.getD []) (prepare_pret h0 l) (Nat.zero_add _)
  refine ⟨?_, ha, hx⟩
  intro i T hT
  have hi := hr i T hT
  rw [Nat.zero_add] at hi
  exact ⟨hi, fun fd k hk => hi.ecriture hk⟩

/-- a shell with its three standard descriptors -/
def terminal : Table ℕ where
  desc := fun fd => if fd < 3 then some fd else none
  borne := 3
  fini := fun fd h => by rw [if_neg (by omega)]

/-- `cat <f | sort >g` -/
def catSort : Cmdline :=
  ⟨none, some (octets "f"), some (octets "g"), some [[octets "cat"], [octets "sort"]], false⟩

theorem pipeline_catSort :
    (∀ i T, (lance terminal catSort).enfants[i]? = some T →
      Raccorde terminal catSort i T ∧ ∀ fd k, T.desc fd = some (.ecriture k) → fd = 1 ∧ k = i) ∧
    (∀ T, (lance terminal catSort).attente = some T → SansTube T) ∧
    ((∀ cmd ∈ catSort.seq.getD [], cmd.head? ≠ some (octets "exit")) →
      (lance terminal catSort).enfants.length = lengthSeq catSort ∧ (lance terminal catSort).attente.isSome = true) :=
  pipeline terminal (by decide) catSort

end Semestre6.Shell
