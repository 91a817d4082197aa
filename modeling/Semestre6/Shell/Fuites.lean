/-
The descriptors of the shell from one prompt to the next (shell.c): `main` opens the files of the redirections and a
pipe for each command, and closes the pipes. The files it never closes.

- `traite`: what a line does to the table of `main`, with at most `max` descriptors; an `open` can fail, and a pipe does
  when no two descriptors are left, which leaves its entry of `tubes` as it was, without a value;
- `traite_iff`: a line gives the table back exactly when it opens no file, or ends the process, and its pipes are there;
- `prompts_iff`: the same along a session.
The copies that the children have are their own.
-/
import Semestre6.Lib.Descripteurs
import Semestre6.Shell.Readcmd

namespace Semestre6.Shell.Fuites

open Semestre6.Ftp (Octets octets)
open Descripteurs

variable {α : Type*}

/-- a line, and what its calls find: the file that each `open` gives, `none` when it fails, and the ends of the pipes -/
structure Ligne (α : Type*) where
  l : Option Cmdline
  out : Option α
  inn : Option α
  tubes : ℕ → α × α

/-- the shell is back at its prompt, or has ended, or has used a variable without a value or an array out of bounds -/
inductive Retour (α : Type*) where
  | prompt (t : Table α)
  | fin
  | indefini

/-- the table and `tubes`; `none` is an entry without a value -/
structure Etat (α : Type*) where
  table : Table α
  tubes : ℕ → Option (ℕ × ℕ)

/-- `open` of the file of a redirection, if the line has it -/
def ouvreFichier (max : ℕ) (t : Table α) (nom : Option Octets) (fichier : Option α) : Table α :=
  match nom, fichier with
  | some _, some a => if t.premier < max then (t.ouvre a).1 else t
  | _, _ => t

/-- `pipe(tubes[i])` -/
def tube (max : ℕ) (bouts : ℕ → α × α) (s : Etat α) (i : ℕ) : Option (Etat α) :=
  if i < 10 then
    let lecture := s.table.ouvre (bouts i).1
    let ecriture := lecture.1.ouvre (bouts i).2
    if s.table.premier < max ∧ lecture.1.premier < max then
      some ⟨ecriture.1, Function.update s.tubes i (some (lecture.2, ecriture.2))⟩
    else some s
  else none

/-- `close(tubes[i][1])` -/
def fermeEcriture (s : Etat α) (i : ℕ) : Option (Etat α) :=
  (s.tubes i).map fun p => { s with table := s.table.ferme p.2 }

/-- one turn of `close_pipe` -/
def fermeTube (s : Etat α) (i : ℕ) : Option (Etat α) :=
  (s.tubes i).map fun p => { s with table := (s.table.ferme p.1).ferme p.2 }

def closePipe (s : Etat α) (seqLen : ℕ) : Option (Etat α) := (List.range seqLen).foldlM fermeTube s

/-- the process ends at this command: it is `exit`, or has no word to compare with it -/
def Arret (cmd : List Octets) : Prop := ∀ w ∈ cmd.head?, w = octets "exit"

instance (cmd : List Octets) : Decidable (Arret cmd) := by unfold Arret; infer_instance

/-- the loop over the commands, from command `i` on -/
def boucle (length : ℕ) (s : Etat α) (i : ℕ) : List (List Octets) → Retour α
  | [] =>
    match closePipe s length with
    | some s => .prompt s.table
    | none => .indefini
  | cmd :: seq =>
    if Arret cmd then .fin
    else
      match fermeEcriture s i with
      | some s => boucle length s (i + 1) seq
      | none => .indefini

/-- a turn of the loop of `main`; `l->seq[0]` is read before anything is tested -/
def traite (max : ℕ) (t : Table α) (x : Ligne α) : Retour α :=
  match x.l with
  | none => .fin
  | some l =>
    match l.seq with
    | none => .fin
    | some seq =>
      if l.err.isSome then .prompt t
      else
        let t := ouvreFichier max t l.outFile x.out
        let t := ouvreFichier max t l.inFile x.inn
        match (List.range seq.length).foldlM (tube max x.tubes) ⟨t, fun _ => none⟩ with
        | some s => boucle seq.length s 0 seq
        | none => .indefini

/-- the prompt comes back with the table of the prompt before, if it comes back -/
def Rendu (max : ℕ) (t : Table α) (x : Ligne α) : Prop :=
  match traite max t x with
  | .prompt t' => t'.desc = t.desc
  | .fin => True
  | .indefini => False

/-! ## The condition -/

/-- the files that are opened when `libres` descriptors are left -/
def fichiers (libres : ℕ) (l : Cmdline) (x : Ligne α) : ℕ :=
  let out := if l.outFile.isSome ∧ x.out.isSome ∧ 0 < libres then 1 else 0
  let inn := if l.inFile.isSome ∧ x.inn.isSome ∧ out < libres then 1 else 0
  out + inn

/-- the commands before the one that ends the process, all of them when there is none -/
def rang (seq : List (List Octets)) : ℕ := seq.findIdx fun cmd => decide (Arret cmd)

/-- at most ten commands, pipes for those before the end, and no file when the prompt comes back -/
def Sobre (libres : ℕ) (x : Ligne α) : Prop :=
  ∀ l ∈ x.l, ∀ seq ∈ l.seq, l.err = none →
    seq.length ≤ 10 ∧ fichiers libres l x + 2 * rang seq ≤ libres ∧ (rang seq = seq.length → fichiers libres l x = 0)

variable {max m n i : ℕ} {t t₁ : Table α} {s s' : Etat α} {x : Ligne α} {l : Cmdline} {seq : List (List Octets)}

/-! ## The files -/

theorem ouvreFichier_spec (max : ℕ) (t : Table α) (nom : Option Octets) (fichier : Option α) :
    ((nom.isSome ∧ fichier.isSome ∧ 0 < t.libres max) ∧
        (ouvreFichier max t nom fichier).libres max + 1 = t.libres max) ∨
      (¬(nom.isSome ∧ fichier.isSome ∧ 0 < t.libres max) ∧ ouvreFichier max t nom fichier = t) := by
  cases nom with
  | none => exact .inr ⟨by simp, rfl⟩
  | some n =>
    cases fichier with
    | none => exact .inr ⟨by simp, rfl⟩
    | some a =>
      by_cases h : t.premier < max
      · have hopen : ouvreFichier max t (some n) (some a) = (t.ouvre a).1 := if_pos h
        rw [hopen]
        exact .inl ⟨⟨rfl, rfl, (t.premier_lt_iff max).1 h⟩, Table.libres_ouvre h a⟩
      · exact .inr ⟨fun hn => h ((t.premier_lt_iff max).2 hn.2.2), if_neg h⟩

/-- the table once the files of the line are opened -/
def ouverts (max : ℕ) (t : Table α) (l : Cmdline) (x : Ligne α) : Table α :=
  ouvreFichier max (ouvreFichier max t l.outFile x.out) l.inFile x.inn

theorem ouverts_spec (max : ℕ) (t : Table α) (l : Cmdline) (x : Ligne α) :
    (ouverts max t l x).libres max + fichiers (t.libres max) l x = t.libres max ∧
      (fichiers (t.libres max) l x = 0 → ouverts max t l x = t) := by
  unfold ouverts fichiers
  rcases ouvreFichier_spec max t l.outFile x.out with ⟨ho, hlo⟩ | ⟨ho, hto⟩
  · rcases ouvreFichier_spec max (ouvreFichier max t l.outFile x.out) l.inFile x.inn with ⟨hi, hli⟩ | ⟨hi, hti⟩
    · have hi' : l.inFile.isSome ∧ x.inn.isSome ∧ 1 < t.libres max := ⟨hi.1, hi.2.1, by omega⟩
      simp only [if_pos ho, if_pos hi']
      omega
    · have hi' : ¬(l.inFile.isSome ∧ x.inn.isSome ∧ 1 < t.libres max) := fun h => hi ⟨h.1, h.2.1, by omega⟩
      simp only [if_pos ho, if_neg hi', hti]
      omega
  · rw [hto]
    rcases ouvreFichier_spec max t l.inFile x.inn with ⟨hi, hli⟩ | ⟨hi, hti⟩
    · simp only [if_neg ho, if_pos hi]
      omega
    · simp only [if_neg ho, if_neg hi, hti]
      exact ⟨rfl, fun _ => trivial⟩

/-! ## The pipes -/

/-- `m` pipes were asked for: those for which two descriptors were left are open, at descriptors that `t` has closed -/
structure Tubes (max : ℕ) (t : Table α) (s : Etat α) (m : ℕ) : Prop where
  rang : ∀ i, (s.tubes i).isSome ↔ i < m ∧ 2 * i + 2 ≤ t.libres max
  ferme : ∀ i p, s.tubes i = some p → t.desc p.1 = none ∧ t.desc p.2 = none
  ailleurs : ∀ fd, (∀ i p, s.tubes i = some p → fd ≠ p.1 ∧ fd ≠ p.2) → s.table.desc fd = t.desc fd

/-- a descriptor that is closed in the shell's table was closed before the pipes -/
theorem Tubes.ferme_avant {fd : ℕ} (h : Tubes max t s m) (hfd : s.table.desc fd = none) : t.desc fd = none := by
  by_cases hbout : ∃ i p, s.tubes i = some p ∧ (fd = p.1 ∨ fd = p.2)
  · obtain ⟨i, p, hp, rfl | rfl⟩ := hbout
    · exact (h.ferme i p hp).1
    · exact (h.ferme i p hp).2
  · rw [← hfd]
    refine (h.ailleurs fd ?_).symm
    intro i p hp
    exact ⟨fun he => hbout ⟨i, p, hp, .inl he⟩, fun he => hbout ⟨i, p, hp, .inr he⟩⟩

/-- what is left of the descriptors -/
def Reste (max : ℕ) (t : Table α) (s : Etat α) (m : ℕ) : Prop :=
  s.table.libres max + 2 * min m (t.libres max / 2) = t.libres max

/-- one pipe more, whose ends were closed -/
theorem Tubes.suivant {r w : ℕ} {t' : Table α} (h : Tubes max t s m) (hplace : 2 * m + 2 ≤ t.libres max)
    (hr : s.table.desc r = none) (hw : s.table.desc w = none)
    (hdesc : ∀ fd, fd ≠ r ∧ fd ≠ w → t'.desc fd = s.table.desc fd) :
    Tubes max t ⟨t', Function.update s.tubes m (some (r, w))⟩ (m + 1) := by
  have htubes (i : ℕ) : Function.update s.tubes m (some (r, w)) i = if i = m then some (r, w) else s.tubes i :=
    Function.update_apply ..
  refine ⟨?_, ?_, ?_⟩
  · intro i
    simp only [htubes]
    by_cases hi : i = m
    · subst hi
      simp only [if_true, Option.isSome_some, true_iff]
      omega
    · rw [if_neg hi, h.rang]
      omega
  · intro i p hip
    simp only [htubes] at hip
    by_cases hi : i = m
    · obtain rfl : (r, w) = p := by simpa [hi] using hip
      exact ⟨h.ferme_avant hr, h.ferme_avant hw⟩
    · rw [if_neg hi] at hip
      exact h.ferme i p hip
  · intro fd hfd
    simp only [htubes] at hfd
    have hneuf := hfd m (r, w) (by simp)
    refine (hdesc fd hneuf).trans (h.ailleurs fd ?_)
    intro i p hip
    have hm : s.tubes m = none := by
      rw [← Option.not_isSome_iff_eq_none, h.rang]
      omega
    have hi : i ≠ m := by
      intro he
      rw [he, hm] at hip
      cases hip
    exact hfd i p (by rw [if_neg hi, hip])

/-- a pipe that fails leaves its entry without a value -/
theorem Tubes.echec (h : Tubes max t s m) (hplace : t.libres max < 2 * m + 2) : Tubes max t s (m + 1) := by
  refine ⟨?_, h.ferme, h.ailleurs⟩
  intro i
  rw [h.rang]
  omega

theorem tube_spec {bouts : ℕ → α × α} (h : Tubes max t s m) (hl : Reste max t s m)
    (hs : tube max bouts s m = some s') : Tubes max t s' (m + 1) ∧ Reste max t s' (m + 1) := by
  unfold Reste at *
  have hr := s.table.ouvre_ferme (bouts m).1
  have hw := (s.table.ouvre (bouts m).1).1.ouvre_ferme (bouts m).2
  unfold tube at hs
  simp only at hs
  split_ifs at hs with h10 hp
  · obtain rfl := Option.some.inj hs
    have hl1 := Table.libres_ouvre hp.1 (bouts m).1
    have hl2 := Table.libres_ouvre hp.2 (bouts m).2
    have hw' : s.table.desc ((s.table.ouvre (bouts m).1).1.ouvre (bouts m).2).2 = none := by
      rw [Table.ouvre_desc] at hw
      split_ifs at hw
      exact hw
    refine ⟨h.suivant (by omega) hr hw' ?_, by simp only; omega⟩
    intro fd hfd
    rw [Table.ouvre_desc, if_neg hfd.2, Table.ouvre_desc, if_neg hfd.1]
  · obtain rfl := Option.some.inj hs
    have hpeu : s.table.libres max ≤ 1 := by
      by_contra hlt
      have h1 : s.table.premier < max := (s.table.premier_lt_iff max).2 (by omega)
      have hl1 := Table.libres_ouvre h1 (bouts m).1
      exact hp ⟨h1, ((s.table.ouvre (bouts m).1).1.premier_lt_iff max).2 (by omega)⟩
    exact ⟨h.echec (by omega), by omega⟩

/-- the pipes of a line of ten commands at most -/
theorem tubes_spec (max : ℕ) (t : Table α) (bouts : ℕ → α × α) (hn : n ≤ 10) :
    ∃ s, (List.range n).foldlM (tube max bouts) ⟨t, fun _ => none⟩ = some s ∧ Tubes max t s n ∧ Reste max t s n := by
  induction n with
  | zero => exact ⟨⟨t, fun _ => none⟩, rfl, ⟨by simp, by simp, fun _ _ => rfl⟩, by simp [Reste]⟩
  | succ n ih =>
    obtain ⟨s, hs, ht, hl⟩ := ih (by omega)
    obtain ⟨s', hs'⟩ : ∃ s', tube max bouts s n = some s' := by
      unfold tube
      rw [if_pos (by omega)]
      simp only
      split_ifs
      · exact ⟨_, rfl⟩
      · exact ⟨_, rfl⟩
    refine ⟨s', ?_, tube_spec ht hl hs'⟩
    rw [List.range_succ, List.foldlM_append, hs]
    simpa using hs'

theorem foldlM_none {ι σ : Type*} {f : σ → ι → Option σ} {k : ι} {l : List ι} (hk : k ∈ l) (h : ∀ s, f s k = none)
    (s : σ) : l.foldlM f s = none := by
  induction l generalizing s with
  | nil => cases hk
  | cons j l ih =>
    rw [List.foldlM_cons]
    rcases List.mem_cons.1 hk with rfl | hk
    · rw [h]
      rfl
    · cases f s j with
      | none => rfl
      | some s' => exact ih hk s'

/-- the eleventh pipe is stored past the array -/
theorem tubes_indefini (max : ℕ) (bouts : ℕ → α × α) (s : Etat α) (hn : 10 < n) :
    (List.range n).foldlM (tube max bouts) s = none :=
  foldlM_none (List.mem_range.2 hn) (fun _ => if_neg (by omega)) s

/-! ## The closes -/

/-- what the closes keep: the ends are known, and nothing else changes -/
structure Fermes (t : Table α) (s : Etat α) (tubes : ℕ → Option (ℕ × ℕ)) : Prop where
  memes : s.tubes = tubes
  ferme : ∀ i p, tubes i = some p → t.desc p.1 = none ∧ t.desc p.2 = none
  ailleurs : ∀ fd, (∀ i p, tubes i = some p → fd ≠ p.1 ∧ fd ≠ p.2) → s.table.desc fd = t.desc fd

theorem Tubes.fermes (h : Tubes max t s m) : Fermes t s s.tubes := ⟨rfl, h.ferme, h.ailleurs⟩

/-- the close of an end -/
theorem Fermes.close {tubes : ℕ → Option (ℕ × ℕ)} {p : ℕ × ℕ} {fd : ℕ} (h : Fermes t s tubes) (hp : tubes i = some p)
    (hfd : fd = p.1 ∨ fd = p.2) : Fermes t { s with table := s.table.ferme fd } tubes := by
  refine ⟨h.memes, h.ferme, ?_⟩
  intro x hx
  have hne : x ≠ fd := by
    rcases hfd with rfl | rfl
    · exact (hx i p hp).1
    · exact (hx i p hp).2
  rw [Table.ferme_desc, if_neg hne]
  exact h.ailleurs x hx

theorem fermeEcriture_spec {tubes : ℕ → Option (ℕ × ℕ)} (h : Fermes t s tubes) (i : ℕ) :
    (tubes i = none ∧ fermeEcriture s i = none) ∨
      ∃ s', fermeEcriture s i = some s' ∧ Fermes t s' tubes ∧ tubes i ≠ none := by
  have hs := congrFun h.memes i
  cases hi : tubes i with
  | none => exact .inl ⟨rfl, by rw [fermeEcriture, hs, hi]; rfl⟩
  | some p => exact .inr ⟨_, by rw [fermeEcriture, hs, hi]; rfl, h.close hi (.inr rfl), by simp⟩

/-- once the first `n` pipes are closed their ends are closed -/
theorem closePipe_spec {tubes : ℕ → Option (ℕ × ℕ)} (h : Fermes t s tubes) (hn : ∀ i < n, tubes i ≠ none) :
    ∃ s', closePipe s n = some s' ∧ Fermes t s' tubes ∧
      ∀ i < n, ∀ p, tubes i = some p → s'.table.desc p.1 = none ∧ s'.table.desc p.2 = none := by
  induction n with
  | zero => exact ⟨s, rfl, h, by simp⟩
  | succ n ih =>
    obtain ⟨s₁, hs₁, h₁, hf₁⟩ := ih fun i hi => hn i (by omega)
    obtain ⟨p, hp⟩ := Option.ne_none_iff_exists'.1 (hn n (by omega))
    have h₂ := (h₁.close hp (.inl rfl)).close hp (.inr rfl)
    refine ⟨_, ?_, h₂, ?_⟩
    · rw [closePipe, List.range_succ, List.foldlM_append]
      change ((closePipe s n).bind fun s => [n].foldlM fermeTube s) = _
      rw [hs₁]
      simp [fermeTube, h₁.memes, hp]
    · intro i hi q hq
      simp only [Table.ferme_desc]
      by_cases hin : i = n
      · subst hin
        obtain rfl : p = q := Option.some.inj (hp.symm.trans hq)
        simp
      · obtain ⟨hq1, hq2⟩ := hf₁ i (by omega) q hq
        simp [hq1, hq2]

/-- all the pipes closed, the table is the one before them -/
theorem closePipe_desc {tubes : ℕ → Option (ℕ × ℕ)} (h : Fermes t s tubes) (hn : ∀ i, tubes i ≠ none ↔ i < n) :
    ∃ s', closePipe s n = some s' ∧ s'.table.desc = t.desc := by
  obtain ⟨s', hs', h', hf⟩ := closePipe_spec h fun i hi => (hn i).2 hi
  refine ⟨s', hs', ?_⟩
  funext fd
  by_cases hbout : ∃ i p, tubes i = some p ∧ (fd = p.1 ∨ fd = p.2)
  · obtain ⟨i, p, hp, hfd⟩ := hbout
    have hi : i < n := (hn i).1 (by simp [hp])
    rcases hfd with rfl | rfl
    · rw [(hf i hi p hp).1, (h.ferme i p hp).1]
    · rw [(hf i hi p hp).2, (h.ferme i p hp).2]
  · refine h'.ailleurs fd ?_
    intro i p hp
    exact ⟨fun he => hbout ⟨i, p, hp, .inl he⟩, fun he => hbout ⟨i, p, hp, .inr he⟩⟩

/-! ## The loop over the commands -/

/-- the loop ends the process at its last command, reads a pipe that is not there, or goes through all the commands -/
theorem boucle_spec {tubes : ℕ → Option (ℕ × ℕ)} (h : Fermes t s tubes) (hi : i + seq.length = n) :
    (boucle n s i seq = .fin ∧ rang seq < seq.length ∧ ∀ j, i ≤ j → j < i + rang seq → tubes j ≠ none) ∨
      (boucle n s i seq = .indefini ∧ ∃ j, i ≤ j ∧ j < i + rang seq ∧ tubes j = none) ∨
      (rang seq = seq.length ∧ (∀ j, i ≤ j → j < n → tubes j ≠ none) ∧
        ((∀ j, tubes j ≠ none ↔ j < n) → ∃ t', boucle n s i seq = .prompt t' ∧ t'.desc = t.desc)) := by
  induction seq generalizing s i with
  | nil =>
    refine .inr (.inr ⟨rfl, ?_, ?_⟩)
    · intro j hj hn
      rw [List.length_nil] at hi
      omega
    · intro hn
      obtain ⟨s', hs', hdesc⟩ := closePipe_desc h hn
      exact ⟨s'.table, by rw [boucle, hs'], hdesc⟩
  | cons cmd seq ih =>
    by_cases ha : Arret cmd
    · have hr : rang (cmd :: seq) = 0 := by simp [rang, List.findIdx_cons, ha]
      refine .inl ⟨if_pos ha, by rw [hr]; exact Nat.succ_pos _, ?_⟩
      intro j hj hlt
      omega
    · have hr : rang (cmd :: seq) = rang seq + 1 := by simp [rang, List.findIdx_cons, ha]
      rcases fermeEcriture_spec h i with ⟨hnone, hf⟩ | ⟨s', hf, h', hsome⟩
      · refine .inr (.inl ⟨?_, i, le_rfl, by omega, hnone⟩)
        rw [boucle, if_neg ha, hf]
      · have hb : boucle n s i (cmd :: seq) = boucle n s' (i + 1) seq := by rw [boucle, if_neg ha, hf]
        rw [List.length_cons] at hi
        have hle {k : ℕ} (hk : ∀ j, i + 1 ≤ j → j < k → tubes j ≠ none) : ∀ j, i ≤ j → j < k → tubes j ≠ none := by
          intro j hj hlt
          rcases Nat.eq_or_lt_of_le hj with rfl | hj
          · exact hsome
          · exact hk j hj hlt
        rw [hb, hr, List.length_cons]
        rcases ih (i := i + 1) h' (by omega) with ⟨he, hlt, hj⟩ | ⟨he, j, hj, hlt, hnone⟩ | ⟨he, hj, hp⟩
        · refine .inl ⟨he, by omega, hle ?_⟩
          intro j hj' hlt'
          exact hj j hj' (by omega)
        · exact .inr (.inl ⟨he, j, by omega, by omega, hnone⟩)
        · exact .inr (.inr ⟨by omega, hle hj, hp⟩)

/-! ## A line -/

theorem rang_le (seq : List (List Octets)) : rang seq ≤ seq.length := List.findIdx_le_length

/-- a line without a syntax error, of ten commands at most -/
theorem traite_cases (hx : x.l = some l) (hseq : l.seq = some seq) (herr : l.err = none) (hn : seq.length ≤ 10) :
    (traite max t x = .fin ∧ rang seq < seq.length ∧ 2 * rang seq ≤ (ouverts max t l x).libres max) ∨
      (traite max t x = .indefini ∧ (ouverts max t l x).libres max < 2 * rang seq) ∨
      ∃ t', traite max t x = .prompt t' ∧ t'.desc = (ouverts max t l x).desc ∧ rang seq = seq.length ∧
        2 * rang seq ≤ (ouverts max t l x).libres max := by
  obtain ⟨s, hs, ht, -⟩ := tubes_spec max (ouverts max t l x) x.tubes hn
  have htraite : traite max t x = boucle seq.length s 0 seq := by
    unfold ouverts at hs
    simp [traite, hx, hseq, herr, hs]
  have hle := rang_le seq
  have hrang (j : ℕ) : s.tubes j ≠ none ↔ j < seq.length ∧ 2 * j + 2 ≤ (ouverts max t l x).libres max := by
    rw [← Option.isSome_iff_ne_none]
    exact ht.rang j
  -- the last pipe before the end of the loop is there
  have hplace (hj : ∀ j, 0 ≤ j → j < 0 + rang seq → s.tubes j ≠ none) :
      2 * rang seq ≤ (ouverts max t l x).libres max := by
    by_cases h0 : rang seq = 0
    · omega
    · have hlast := ((hrang (rang seq - 1)).1 (hj (rang seq - 1) (by omega) (by omega))).2
      omega
  rw [htraite]
  rcases boucle_spec ht.fermes (Nat.zero_add _) with ⟨hb, hlt, hj⟩ | ⟨hb, j, -, hlt, hnone⟩ | ⟨hr, hj, hp⟩
  · exact .inl ⟨hb, hlt, hplace hj⟩
  · refine .inr (.inl ⟨hb, ?_⟩)
    by_contra hge
    exact (hrang j).2 ⟨by omega, by omega⟩ hnone
  · obtain ⟨t', hb, ht'⟩ := hp fun j => ⟨fun hs => ((hrang j).1 hs).1, fun hlt => hj j (by omega) hlt⟩
    exact .inr (.inr ⟨t', hb, ht', hr, hplace fun j hj0 hlt => hj j hj0 (by omega)⟩)

theorem ouverts_desc_iff : (ouverts max t l x).desc = t.desc ↔ fichiers (t.libres max) l x = 0 := by
  obtain ⟨hlib, hvide⟩ := ouverts_spec max t l x
  apply Iff.intro
  · intro h
    rw [Table.libres_congr h] at hlib
    omega
  · intro h
    rw [hvide h]

theorem traite_indefini (hx : x.l = some l) (hseq : l.seq = some seq) (herr : l.err = none) (hn : 10 < seq.length) :
    traite max t x = .indefini := by
  have h := tubes_indefini max x.tubes ⟨ouverts max t l x, fun _ => none⟩ hn
  unfold ouverts at h
  simp [traite, hx, hseq, herr, h]

theorem rendu_iff (hx : x.l = some l) (hseq : l.seq = some seq) (herr : l.err = none) :
    Rendu max t x ↔ seq.length ≤ 10 ∧ fichiers (t.libres max) l x + 2 * rang seq ≤ t.libres max ∧
      (rang seq = seq.length → fichiers (t.libres max) l x = 0) := by
  have hlib := (ouverts_spec max t l x).1
  unfold Rendu
  by_cases hn : seq.length ≤ 10
  · rcases traite_cases hx hseq herr hn with ⟨htr, hlt, hl⟩ | ⟨htr, hl⟩ | ⟨t', htr, ht', hr, hl⟩
    · rw [htr]
      exact iff_of_true trivial ⟨hn, by omega, by omega⟩
    · rw [htr]
      exact iff_of_false id fun h => by omega
    · rw [htr]
      change t'.desc = t.desc ↔ _
      rw [ht', ouverts_desc_iff]
      apply Iff.intro
      · intro h
        exact ⟨hn, by omega, fun _ => h⟩
      · intro h
        exact h.2.2 hr
  · rw [traite_indefini hx hseq herr (by omega)]
    exact iff_of_false id fun h => hn h.1

/-- **A line gives the table back** exactly when it opens no file that it leaves open, and its pipes are there. -/
theorem traite_iff (max : ℕ) (t : Table α) (x : Ligne α) : Rendu max t x ↔ Sobre (t.libres max) x := by
  cases hx : x.l with
  | none => exact iff_of_true (by simp [Rendu, traite, hx]) (by simp [Sobre, hx])
  | some l =>
    cases hseq : l.seq with
    | none => exact iff_of_true (by simp [Rendu, traite, hx, hseq]) (by simp [Sobre, hx, hseq])
    | some seq =>
      by_cases herr : l.err = none
      · rw [rendu_iff hx hseq herr]
        simp [Sobre, hx, hseq, herr]
      · have he : l.err.isSome = true := Option.isSome_iff_ne_none.2 herr
        exact iff_of_true (by simp [Rendu, traite, hx, hseq, he]) (by simp [Sobre, hx, hseq, herr])

/-! ## A session -/

/-- each prompt has the table of the one before -/
def Prompts (max : ℕ) (t : Table α) : List (Ligne α) → Prop
  | [] => True
  | x :: xs =>
    match traite max t x with
    | .prompt t' => t'.desc = t.desc ∧ Prompts max t' xs
    | .fin => True
    | .indefini => False

/-- the line ends the process -/
def Termine (x : Ligne α) : Prop :=
  ∀ l ∈ x.l, ∀ seq ∈ l.seq, l.err = none ∧ rang seq < seq.length

/-- the lines up to the end of the process meet the condition -/
def Sobres (libres : ℕ) : List (Ligne α) → Prop
  | [] => True
  | x :: xs => Sobre libres x ∧ (¬Termine x → Sobres libres xs)

/-- the prompt does not come back exactly when the process ends -/
theorem termine_iff (h : Rendu max t x) : Termine x ↔ traite max t x = .fin := by
  cases hx : x.l with
  | none => exact iff_of_true (by simp [Termine, hx]) (by simp [traite, hx])
  | some l =>
    cases hseq : l.seq with
    | none => exact iff_of_true (by simp [Termine, hx, hseq]) (by simp [traite, hx, hseq])
    | some seq =>
      have hT : Termine x ↔ l.err = none ∧ rang seq < seq.length := by simp [Termine, hx, hseq]
      rw [hT]
      by_cases herr : l.err = none
      · have hn : seq.length ≤ 10 := ((rendu_iff hx hseq herr).1 h).1
        rcases traite_cases hx hseq herr hn with ⟨htr, hlt, -⟩ | ⟨htr, -⟩ | ⟨t', htr, -, hr, -⟩
        · exact iff_of_true ⟨herr, hlt⟩ htr
        · unfold Rendu at h
          rw [htr] at h
          exact h.elim
        · refine iff_of_false (fun h => ?_) (by simp [htr])
          omega
      · have he : l.err.isSome = true := Option.isSome_iff_ne_none.2 herr
        exact iff_of_false (fun h => herr h.1) (by simp [traite, hx, hseq, he])

theorem rendu_of_prompts {xs : List (Ligne α)} (h : Prompts max t (x :: xs)) : Rendu max t x := by
  unfold Rendu
  rw [Prompts] at h
  cases htr : traite max t x with
  | prompt t' =>
    rw [htr] at h
    exact h.1
  | fin => trivial
  | indefini =>
    rw [htr] at h
    exact h

/-- **Each prompt has the table of the one before** exactly when the lines meet the condition, with the descriptors that
the first prompt has left. -/
theorem prompts_iff (max : ℕ) (t : Table α) (xs : List (Ligne α)) : Prompts max t xs ↔ Sobres (t.libres max) xs := by
  induction xs generalizing t with
  | nil => exact Iff.rfl
  | cons x xs ih =>
    have hx := traite_iff max t x
    have hT : Rendu max t x → (Termine x ↔ traite max t x = .fin) := termine_iff
    unfold Rendu at hx hT
    rw [Prompts, Sobres, ← hx]
    cases htr : traite max t x with
    | prompt t' =>
      simp only [htr] at hT ⊢
      have hne (h : t'.desc = t.desc) : ¬Termine x := by simp [hT h]
      apply Iff.intro
      · intro h
        refine ⟨h.1, fun _ => ?_⟩
        rw [← Table.libres_congr h.1 max]
        exact (ih t').1 h.2
      · intro h
        refine ⟨h.1, (ih t').2 ?_⟩
        rw [Table.libres_congr h.1 max]
        exact h.2 (hne h.1)
    | fin =>
      simp only [htr] at hT ⊢
      have hT := hT trivial
      simp [hT]
    | indefini => simp

theorem fini_trois (fd : ℕ) (h : 3 ≤ fd) : (if fd < 3 then some () else none) = none := if_neg (by omega)

/-- the shell's first prompt: 0, 1 and 2 are open -/
def depart : Table Unit where
  desc fd := if fd < 3 then some () else none
  borne := 3
  fini := fini_trois

/-- `cat < f`, where `f` can be read -/
def catDeF : Ligne Unit where
  l := some ⟨none, some (octets "f"), none, some [[octets "cat"]], false⟩
  out := none
  inn := some ()
  tubes _ := ((), ())

/-- its file stays open at the next prompt -/
theorem fichier_ouvert :
    readcmd none (some (octets "cat < f")) = some catDeF.l ∧ depart.libres 8 = 5 ∧ ¬Prompts 8 depart [catDeF] := by
  have hlib : depart.libres 8 = 5 := by decide
  have hf : fichiers 5 ⟨none, some (octets "f"), none, some [[octets "cat"]], false⟩ catDeF = 1 := by decide
  have hrang : rang [[octets "cat"]] = 1 := by decide
  refine ⟨by decide +kernel, hlib, fun h => ?_⟩
  have hrendu := (rendu_iff rfl rfl rfl).1 (rendu_of_prompts h)
  rw [hlib, hf] at hrendu
  exact absurd (hrendu.2.2 hrang) (by decide)

end Semestre6.Shell.Fuites
