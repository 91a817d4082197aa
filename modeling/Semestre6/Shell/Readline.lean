/-
The lines of the shell: `readline` of readcmd.c, which gathers a line in a buffer that doubles.

- `fgets`: as the C standard says, on a buffer in memory and what is left of the stream; a position and a size that are
  not inside the buffer are an access outside (`hors`);
- `readline`: a call; `malloc` and `realloc` give bytes that nobody wrote (`brut`), and do not fail;
- `readline_ligne`, `readline_derniere`: what a call returns on a line and on a last line without newline;
- `appels_lignes`: successive calls give the successive lines.
The buffer is doubled before the end of the stream is seen: a last line without newline has to fit in half of the
largest buffer.
-/
import Semestre6.Shell.Readcmd
import Semestre6.Lib.Octets

namespace Semestre6.Shell

open Semestre6.Ftp (Octets octets)
open Octets (cstr cstr_append_zero)

def intMax : ℕ := 2147483647

/-- what a call of `readline` ends with; `memoire` is `memory_error`, which ends the process -/
inductive Retour
  | ligne (line flux : Octets)
  | null
  | memoire
  | hors
deriving DecidableEq, Repr

/-- what a call of `fgets` does -/
inductive Fgets
  | lu (buf flux : Octets)
  | null
  | hors
deriving DecidableEq, Repr

/-- at most `n` bytes of the stream, up to a newline -/
def lus : ℕ → Octets → Octets
  | 0, _ => []
  | _ + 1, [] => []
  | n + 1, c :: flux => if c = 10 then [c] else c :: lus n flux

/-- `fgets(buf + pos, n, stdin)` -/
def fgets (buf : Octets) (pos n : ℕ) (flux : Octets) : Fgets :=
  if pos + n ≤ buf.length ∧ 1 < n ∧ n ≤ intMax then
    if flux = [] then .null
    else
      let d := lus (n - 1) flux
      .lu (buf.take pos ++ d ++ 0 :: buf.drop (pos + d.length + 1)) (flux.drop d.length)
  else .hors

/-- `n` bytes from index `i` on, that nobody wrote -/
def nouveaux (brut : ℕ → UInt8) (i n : ℕ) : Octets := (List.range n).map fun j => brut (i + j)

/-- the turns of the `do`; `none` when there are no more turns -/
def remplit (brut : ℕ → UInt8) : ℕ → Octets → Octets → Option Retour
  | 0, _, _ => none
  | k + 1, buf, flux =>
    if 0 ∉ buf then some .hors
    else
      let l := (cstr buf).length
      if 0 < l ∧ buf[l - 1]? = some 10 then some (.ligne (cstr (buf.set (l - 1) 0)) flux)
      else if intMax / 2 ≤ buf.length then some .memoire
      else
        let buf := buf ++ nouveaux brut buf.length buf.length
        match fgets buf l (buf.length - l) flux with
        | .lu buf flux => remplit brut k buf flux
        | .null => some (.ligne (cstr buf) flux)
        | .hors => some .hors

def readline (brut : ℕ → UInt8) (k : ℕ) (flux : Octets) : Option Retour :=
  match fgets (nouveaux brut 0 16) 0 16 flux with
  | .lu buf flux => remplit brut k buf flux
  | .null => some .null
  | .hors => some .hors

/-- the first `n` calls, NULL as `none`; a call that ends the process or leaves the buffer gives nothing -/
def appels (bruts : ℕ → ℕ → UInt8) (k : ℕ) : ℕ → Octets → Option (List (Option Octets))
  | 0, _ => some []
  | n + 1, flux => do
    match ← readline (bruts n) k flux with
    | .ligne line flux => return some line :: (← appels bruts k n flux)
    | .null => return none :: (← appels bruts k n flux)
    | .memoire => none
    | .hors => none

variable {brut : ℕ → UInt8} {line w g flux f : Octets} {i k n : ℕ}

@[simp] theorem length_nouveaux (brut : ℕ → UInt8) (i n : ℕ) : (nouveaux brut i n).length = n := by
  simp [nouveaux]

/-! ## What `fgets` reads -/

theorem lus_ligne (h : 10 ∉ line) (hn : line.length < n) : lus n (line ++ 10 :: f) = line ++ [10] := by
  induction line generalizing n with
  | nil =>
    obtain ⟨n, rfl⟩ : ∃ j, n = j + 1 := ⟨n - 1, by omega⟩
    rfl
  | cons c line ih =>
    obtain ⟨n, rfl⟩ : ∃ j, n = j + 1 := ⟨n - 1, by omega⟩
    obtain ⟨hc, h⟩ : 10 ≠ c ∧ 10 ∉ line := by simpa using h
    rw [List.cons_append, lus, if_neg hc.symm, ih h (by simpa using hn)]
    rfl

theorem lus_debut (h : 10 ∉ line) (hn : n ≤ line.length ∨ f = []) : lus n (line ++ f) = line.take n := by
  induction line generalizing n with
  | nil =>
    cases n with
    | zero => rfl
    | succ n =>
      obtain rfl : f = [] := hn.resolve_left (by simp)
      rfl
  | cons c line ih =>
    cases n with
    | zero => rfl
    | succ n =>
      obtain ⟨hc, h⟩ : 10 ≠ c ∧ 10 ∉ line := by simpa using h
      rw [List.cons_append, lus, if_neg hc.symm, ih h (by simpa using hn)]
      rfl

theorem length_lus_le (n : ℕ) (flux : Octets) : (lus n flux).length ≤ n := by
  induction n generalizing flux with
  | zero => simp [lus]
  | succ n ih =>
    cases flux with
    | nil => simp [lus]
    | cons c flux =>
      rw [lus]
      split_ifs
      · simp
      · simpa using ih flux

/-- a call on the end of the buffer -/
theorem fgets_fin (hn : 1 < g.length) (hm : g.length ≤ intMax) (hf : flux ≠ []) :
    ∃ g', g'.length + (lus (g.length - 1) flux).length = g.length - 1 ∧
      fgets (w ++ g) w.length g.length flux =
        .lu (w ++ lus (g.length - 1) flux ++ 0 :: g') (flux.drop (lus (g.length - 1) flux).length) := by
  have hlen := length_lus_le (g.length - 1) flux
  refine ⟨g.drop ((lus (g.length - 1) flux).length + 1), ?_, ?_⟩
  · rw [List.length_drop]
    omega
  · have hdans : w.length + g.length ≤ (w ++ g).length ∧ 1 < g.length ∧ g.length ≤ intMax :=
      ⟨(List.length_append).ge, hn, hm⟩
    have hreste (j : ℕ) : (w ++ g).drop (w.length + j + 1) = g.drop (j + 1) := by
      rw [Nat.add_assoc, ← List.drop_drop, List.drop_left]
    rw [fgets, if_pos hdans, if_neg hf, List.take_left]
    simp only [hreste]

theorem fgets_vide (hn : 1 < g.length) (hm : g.length ≤ intMax) : fgets (w ++ g) w.length g.length [] = .null := by
  have hdans : w.length + g.length ≤ (w ++ g).length ∧ 1 < g.length ∧ g.length ≤ intMax :=
    ⟨(List.length_append).ge, hn, hm⟩
  rw [fgets, if_pos hdans, if_pos rfl]

/-! ## One turn -/

theorem cstr_longueur (h0 : 0 ∉ w) : (cstr (w ++ 0 :: g)).length = w.length := by
  rw [cstr_append_zero w g fun x hx h => h0 (h ▸ hx)]

/-- the newline is there -/
theorem remplit_ligne (h0 : 0 ∉ line) : remplit brut (k + 1) (line ++ 10 :: 0 :: g) flux = some (.ligne line flux) := by
  have h0' : 0 ∉ line ++ [10] := by simpa using h0
  have hbuf : line ++ 10 :: 0 :: g = (line ++ [10]) ++ 0 :: g := by simp
  have hl : (cstr (line ++ 10 :: 0 :: g)).length = line.length + 1 := by
    rw [hbuf, cstr_longueur h0']
    simp
  have hset : (line ++ 10 :: 0 :: g).set line.length 0 = line ++ 0 :: 0 :: g := by simp
  rw [remplit, if_neg (by simp)]
  simp only [hl, Nat.add_sub_cancel, hset]
  rw [if_pos ⟨by omega, by simp⟩, cstr_append_zero line _ fun x hx h => h0 (h ▸ hx)]

/-- what a turn does when the newline is not there; `a` are the bytes that `realloc` adds -/
theorem remplit_sans (brut : ℕ → UInt8) (k : ℕ) (g flux : Octets) (h0 : 0 ∉ w) (h10 : 10 ∉ w) :
    ∃ a : Octets, a.length = w.length + 1 + g.length ∧
      remplit brut (k + 1) (w ++ 0 :: g) flux =
        if intMax / 2 ≤ w.length + 1 + g.length then some .memoire
        else match fgets (w ++ (0 :: g ++ a)) w.length (0 :: g ++ a).length flux with
          | .lu buf flux => remplit brut k buf flux
          | .null => some (.ligne w flux)
          | .hors => some .hors := by
  have hlen : (w ++ 0 :: g).length = w.length + 1 + g.length := by
    simp only [List.length_append, List.length_cons]
    omega
  have hfin : ¬(0 < w.length ∧ (w ++ 0 :: g)[w.length - 1]? = some 10) := by
    rintro ⟨hpos, h⟩
    rw [List.getElem?_append_left (by omega)] at h
    exact h10 (List.mem_of_getElem? h)
  set a := nouveaux brut (w.length + 1 + g.length) (w.length + 1 + g.length) with ha
  have hla : a.length = w.length + 1 + g.length := length_nouveaux _ _ _
  have hsuite : w ++ 0 :: g ++ a = w ++ (0 :: g ++ a) := List.append_assoc _ _ _
  have hn : (w ++ (0 :: g ++ a)).length - w.length = (0 :: g ++ a).length := by
    rw [List.length_append, Nat.add_sub_cancel_left]
  have hcstr : cstr (w ++ (0 :: g ++ a)) = w := cstr_append_zero w _ fun x hx h => h0 (h ▸ hx)
  refine ⟨a, hla, ?_⟩
  rw [remplit, if_neg (by simp)]
  simp only [cstr_longueur h0, if_neg hfin, hlen, ← ha, hsuite, hn, hcstr]

theorem remplit_memoire (h0 : 0 ∉ w) (h10 : 10 ∉ w) (hN : intMax / 2 ≤ w.length + 1 + g.length) :
    remplit brut (k + 1) (w ++ 0 :: g) flux = some .memoire := by
  obtain ⟨a, -, hr⟩ := remplit_sans brut k g flux h0 h10
  rw [hr, if_pos hN]

/-- the end of the stream is seen once the buffer is doubled -/
theorem remplit_null (h0 : 0 ∉ w) (h10 : 10 ∉ w) (hN : w.length + 1 + g.length < intMax / 2) :
    remplit brut (k + 1) (w ++ 0 :: g) [] = some (.ligne w []) := by
  obtain ⟨a, ha, hr⟩ := remplit_sans brut k g [] h0 h10
  have hla : (0 :: g ++ a).length = w.length + 1 + g.length + (1 + g.length) := by
    simp only [List.length_append, List.length_cons, ha]
    omega
  have hmax : intMax / 2 + intMax / 2 ≤ intMax := by decide
  rw [hr, if_neg (by omega), fgets_vide (by omega) (by omega)]

/-- a full buffer takes as many bytes again, and one more -/
theorem remplit_suite (h0 : 0 ∉ w) (h10 : 10 ∉ w) (hN : w.length + 1 < intMax / 2) (hf : flux ≠ []) :
    ∃ g', g'.length + (lus (w.length + 1) flux).length = w.length + 1 ∧
      remplit brut (k + 1) (w ++ [0]) flux =
        remplit brut k (w ++ lus (w.length + 1) flux ++ 0 :: g') (flux.drop (lus (w.length + 1) flux).length) := by
  obtain ⟨a, ha, hr⟩ := remplit_sans brut k [] flux h0 h10
  have hla : (0 :: [] ++ a).length = w.length + 2 := by
    simp only [List.length_append, List.length_cons, List.length_nil, ha]
    omega
  have hmax : intMax / 2 + intMax / 2 ≤ intMax := by decide
  obtain ⟨g', hg', hlu⟩ := fgets_fin (w := w) (g := 0 :: [] ++ a) (by omega) (by omega) hf
  rw [hla, Nat.add_sub_cancel (w.length + 1) 1] at hg' hlu
  refine ⟨g', hg', ?_⟩
  rw [hr, if_neg (by simpa using hN), hla, hlu]

theorem readline_suite (brut : ℕ → UInt8) (k : ℕ) (hf : flux ≠ []) :
    ∃ g', g'.length + (lus 15 flux).length = 15 ∧
      readline brut k flux = remplit brut k (lus 15 flux ++ 0 :: g') (flux.drop (lus 15 flux).length) := by
  have hl := length_nouveaux brut 0 16
  obtain ⟨g', hg', hlu⟩ := fgets_fin (w := []) (g := nouveaux brut 0 16) (by omega) (by rw [hl]; decide) hf
  rw [hl] at hg' hlu
  refine ⟨g', hg', ?_⟩
  rw [readline]
  rw [List.length_nil] at hlu
  rw [List.nil_append] at hlu
  rw [hlu]
  rfl

/-! ## The turns -/

/-- what is full is at most half of the largest buffer, when it is not the whole of it -/
theorem moitie_le (hi : i ≤ 30) (h : i ≠ 30) : 2 ^ i ≤ 2 ^ 29 := Nat.pow_le_pow_right (by decide) (by omega)

/-- the buffer once `m` more bytes of the line fill it -/
theorem pleine {m : ℕ} (h0 : 0 ∉ w ++ line) (h10 : 10 ∉ w ++ line) (hm : w.length + m + 1 = 2 ^ i)
    (hs : m ≤ line.length) :
    w ++ line.take m ++ line.drop m = w ++ line ∧ (w ++ line.take m).length + 1 = 2 ^ i ∧
      (w ++ line.take m).length ≤ (w ++ line).length ∧ 0 ∉ w ++ line.take m ∧ 10 ∉ w ++ line.take m := by
  have hligne : w ++ line.take m ++ line.drop m = w ++ line := by
    rw [List.append_assoc, List.take_append_drop]
  have hv : (w ++ line.take m).length = w.length + m := by
    rw [List.length_append, List.length_take, Nat.min_eq_left hs]
  refine ⟨hligne, by omega, ?_, ?_, ?_⟩
  · rw [hv, List.length_append]
    omega
  · exact fun h => h0 (hligne ▸ List.mem_append_left _ h)
  · exact fun h => h10 (hligne ▸ List.mem_append_left _ h)

/-- a buffer of `2 ^ i` bytes that held `w`, after the read of `m` bytes at most of a line that continues with `line` -/
theorem remplit_jusqua_ligne {m : ℕ} (h0 : 0 ∉ w ++ line) (h10 : 10 ∉ w ++ line) (hm : w.length + m + 1 = 2 ^ i)
    (hi : i ≤ 30) (hik : 32 ≤ i + k) (hl : (w ++ line).length < intMax / 2)
    (hg : g.length + (lus m (line ++ 10 :: f)).length = m) :
    remplit brut k (w ++ lus m (line ++ 10 :: f) ++ 0 :: g) ((line ++ 10 :: f).drop (lus m (line ++ 10 :: f)).length) =
      some (.ligne (w ++ line) f) := by
  have hmax : intMax / 2 + 1 = 2 ^ 30 := by decide
  induction k generalizing w line i m g with
  | zero => omega
  | succ k ih =>
    have hline : 10 ∉ line := fun h => h10 (List.mem_append_right w h)
    by_cases hs : line.length < m
    · have hdrop : (line ++ 10 :: f).drop (line ++ [10]).length = f := by
        have h : line ++ 10 :: f = line ++ [10] ++ f := by simp
        rw [h, List.drop_left]
      have hbuf : w ++ (line ++ [10]) ++ 0 :: g = (w ++ line) ++ 10 :: 0 :: g := by simp
      rw [lus_ligne hline hs, hdrop, hbuf, remplit_ligne h0]
    · -- the buffer is full
      have hlus : lus m (line ++ 10 :: f) = line.take m := lus_debut hline (.inl (by omega))
      have htake : (line.take m).length = m := by
        rw [List.length_take]
        omega
      rw [hlus, htake] at hg
      obtain rfl : g = [] := List.eq_nil_of_length_eq_zero (by omega)
      have hreste : (line ++ 10 :: f).drop m = line.drop m ++ 10 :: f := List.drop_append_of_le_length (by omega)
      obtain ⟨hligne, hv, hle, hv0, hv10⟩ := pleine h0 h10 hm (by omega)
      have hi' : i ≠ 30 := by
        rintro rfl
        omega
      have hmoitie := moitie_le hi hi'
      obtain ⟨g', hg', hr⟩ := remplit_suite hv0 hv10 (by omega) (by simp : line.drop m ++ 10 :: f ≠ [])
      rw [hlus, htake, hreste, hr, ← hligne]
      refine ih (i := i + 1) ?_ ?_ ?_ (by omega) (by omega) ?_ hg'
      · rwa [hligne]
      · rwa [hligne]
      · rw [pow_succ]
        omega
      · rwa [hligne]

/-- the same for the last line, when no newline ends it -/
theorem remplit_jusqua_fin {m : ℕ} (h0 : 0 ∉ w ++ line) (h10 : 10 ∉ w ++ line) (hm : w.length + m + 1 = 2 ^ i)
    (hi : i ≤ 30) (hik : 32 ≤ i + k) (hline : line ≠ []) (hmw : i ≤ 29 ∨ m ≤ w.length + 1)
    (hg : g.length + (lus m line).length = m) :
    remplit brut k (w ++ lus m line ++ 0 :: g) (line.drop (lus m line).length) =
      some (if (w ++ line).length < 2 ^ 29 then .ligne (w ++ line) [] else .memoire) := by
  have hmax : intMax / 2 + 1 = 2 ^ 30 := by decide
  induction k generalizing w line i m g with
  | zero => omega
  | succ k ih =>
    have hlus : lus m line = line.take m := by
      have h := lus_debut (f := []) (n := m) (fun h => h10 (List.mem_append_right w h)) (.inr rfl)
      rwa [List.append_nil] at h
    have hpos : 0 < line.length := List.length_pos_iff.2 hline
    by_cases hs : line.length < m
    · have htake : line.take m = line := List.take_of_length_le (by omega)
      rw [hlus, htake] at hg ⊢
      have hN : (w ++ line).length + 1 + g.length = 2 ^ i := by
        rw [List.length_append]
        omega
      rw [List.drop_length]
      by_cases hi' : i = 30
      · subst hi'
        rw [List.length_append] at hN ⊢
        rw [if_neg (by omega), remplit_memoire h0 h10 (by rw [List.length_append]; omega)]
      · have hmoitie := moitie_le hi hi'
        rw [if_pos (by omega), remplit_null h0 h10 (by omega)]
    · have htake : (line.take m).length = m := by
        rw [List.length_take]
        omega
      rw [hlus, htake] at hg
      obtain rfl : g = [] := List.eq_nil_of_length_eq_zero (by omega)
      obtain ⟨hligne, hv, hle, hv0, hv10⟩ := pleine h0 h10 hm (by omega)
      rw [hlus, htake]
      by_cases hi' : i = 30
      · subst hi'
        rw [if_neg (by omega), remplit_memoire hv0 hv10 (by simpa using (by omega))]
      have hmoitie := moitie_le hi hi'
      by_cases hvide : line.drop m = []
      · rw [hvide, List.append_nil] at hligne
        rw [hvide, remplit_null hv0 hv10 (by simpa using (by omega)), ← hligne, if_pos (by omega)]
      · obtain ⟨g', hg', hr⟩ := remplit_suite hv0 hv10 (by omega) hvide
        rw [hr, ← hligne]
        refine ih (i := i + 1) ?_ ?_ ?_ (by omega) (by omega) hvide (.inr le_rfl) hg'
        · rwa [hligne]
        · rwa [hligne]
        · rw [pow_succ]
          omega

/-! ## A call -/

theorem readline_ligne (brut : ℕ → UInt8) (f : Octets) (h0 : 0 ∉ line) (h10 : 10 ∉ line)
    (hl : line.length < intMax / 2) (hk : 28 ≤ k) : readline brut k (line ++ 10 :: f) = some (.ligne line f) := by
  obtain ⟨g, hg, hr⟩ := readline_suite brut k (by simp : line ++ 10 :: f ≠ [])
  rw [hr]
  exact remplit_jusqua_ligne (w := []) (i := 4) h0 h10 rfl (by decide) (by omega) hl hg

/-- a last line without newline has to be shorter than half of the largest buffer -/
theorem readline_derniere (brut : ℕ → UInt8) (h0 : 0 ∉ line) (h10 : 10 ∉ line) (hne : line ≠ []) (hk : 28 ≤ k) :
    readline brut k line = some (if line.length < 2 ^ 29 then .ligne line [] else .memoire) := by
  obtain ⟨g, hg, hr⟩ := readline_suite brut k hne
  rw [hr]
  exact remplit_jusqua_fin (w := []) (i := 4) h0 h10 rfl (by decide) (by omega) hne (.inl (by decide)) hg

theorem readline_null (brut : ℕ → UInt8) (k : ℕ) : readline brut k [] = some .null := by
  have hl := length_nouveaux brut 0 16
  have h := fgets_vide (w := []) (g := nouveaux brut 0 16) (by omega) (by rw [hl]; decide)
  rw [hl] at h
  rw [readline]
  rw [List.nil_append, List.length_nil] at h
  rw [h]

/-- on any stream, each access is inside the buffer -/
theorem remplit_dedans {buf : Octets} (h : 0 ∈ buf) : remplit brut k buf flux ≠ some .hors := by
  induction k generalizing buf flux with
  | zero => simp [remplit]
  | succ k ih =>
    have hl : (cstr buf).length < buf.length := by
      by_contra hle
      have hpre : cstr buf <+: buf := List.takeWhile_prefix _
      have heq : cstr buf = buf := hpre.eq_of_length_le (by omega)
      exact Octets.cstr_ne_zero (heq.symm ▸ h) rfl
    have hdans : intMax / 2 > buf.length → (cstr buf).length + (buf.length + buf.length - (cstr buf).length) ≤
        (buf ++ nouveaux brut buf.length buf.length).length ∧ 1 < buf.length + buf.length - (cstr buf).length ∧
          buf.length + buf.length - (cstr buf).length ≤ intMax := by
      intro hmax
      have hmax' : intMax / 2 + intMax / 2 ≤ intMax := by decide
      rw [List.length_append, length_nouveaux]
      omega
    rw [remplit, if_neg (by simpa using h)]
    simp only [List.length_append, length_nouveaux, fgets]
    split_ifs with h1 h2 h3 h4
    · simp
    · simp
    · simp
    · exact ih (by simp)
    · exact absurd (hdans (by omega)) (by simpa using h3)

theorem readline_dedans (brut : ℕ → UInt8) (k : ℕ) (flux : Octets) : readline brut k flux ≠ some .hors := by
  by_cases hf : flux = []
  · rw [hf, readline_null]
    simp
  · obtain ⟨g, -, hr⟩ := readline_suite brut k hf
    rw [hr]
    exact remplit_dedans (by simp)

/-! ## Successive calls -/

/-- the lines of a stream, and what comes after its last newline -/
structure Lignes (flux : Octets) (ls : List Octets) (reste : Octets) : Prop where
  flux : flux = ls.flatMap (· ++ [10]) ++ reste
  ligne : ∀ line ∈ ls, 10 ∉ line
  reste : 10 ∉ reste

/-- every stream has lines -/
theorem exists_lignes (flux : Octets) : ∃ ls reste, Lignes flux ls reste := by
  induction flux with
  | nil => exact ⟨[], [], rfl, by simp, by simp⟩
  | cons c flux ih =>
    obtain ⟨ls, reste, h⟩ := ih
    by_cases hc : c = 10
    · refine ⟨[] :: ls, reste, ?_, List.forall_mem_cons.2 ⟨by simp, h.ligne⟩, h.reste⟩
      simp [h.flux, hc]
    · have hcons {line : Octets} (hl : 10 ∉ line) : 10 ∉ c :: line := by simpa using ⟨Ne.symm hc, hl⟩
      cases ls with
      | nil => exact ⟨[], c :: reste, by simp [h.flux], by simp, hcons h.reste⟩
      | cons line ls =>
        obtain ⟨hl, hls⟩ := List.forall_mem_cons.1 h.ligne
        exact ⟨(c :: line) :: ls, reste, by simp [h.flux], List.forall_mem_cons.2 ⟨hcons hl, hls⟩, h.reste⟩

/-- the lines to return: the last one counts when it is not empty -/
def rendues (ls : List Octets) (reste : Octets) : List Octets := if reste = [] then ls else ls ++ [reste]

variable {ls : List Octets} {reste : Octets}

theorem appels_vide (bruts : ℕ → ℕ → UInt8) (k n : ℕ) : appels bruts k n [] = some (List.replicate n none) := by
  induction n with
  | zero => rfl
  | succ n ih =>
    rw [appels, readline_null, ih]
    rfl

theorem appels_eq (bruts : ℕ → ℕ → UInt8) (n : ℕ) (h : Lignes flux ls reste) (h0 : 0 ∉ flux)
    (hls : ∀ line ∈ ls, line.length < intMax / 2) (hreste : reste.length < 2 ^ 29) (hk : 28 ≤ k) :
    appels bruts k n flux = some (((rendues ls reste).map some ++ List.replicate n none).take n) := by
  induction n generalizing flux ls with
  | zero => simp [appels]
  | succ n ih =>
    cases ls with
    | nil =>
      have hflux : flux = reste := by simpa using h.flux
      subst hflux
      by_cases hvide : flux = []
      · subst hvide
        rw [appels_vide]
        simp [rendues]
      · rw [appels, readline_derniere (bruts n) h0 h.reste hvide hk, if_pos hreste]
        simp [appels_vide, rendues, hvide]
    | cons line ls =>
      obtain ⟨h10, hls10⟩ := List.forall_mem_cons.1 h.ligne
      obtain ⟨hl, hls⟩ := List.forall_mem_cons.1 hls
      have hflux : flux = line ++ 10 :: (ls.flatMap (· ++ [10]) ++ reste) := by simp [h.flux]
      rw [hflux] at h0
      have hl0 : 0 ∉ line := fun hm => h0 (List.mem_append_left _ hm)
      have hs0 : 0 ∉ ls.flatMap (· ++ [10]) ++ reste := fun hm =>
        h0 (List.mem_append_right _ (List.mem_cons_of_mem _ hm))
      have hsuite := ih ⟨rfl, hls10, h.reste⟩ hs0 hls
      have hrendues : rendues (line :: ls) reste = line :: rendues ls reste := by
        unfold rendues
        split_ifs <;> rfl
      have htake : ((rendues ls reste).map some ++ List.replicate (n + 1) none).take n =
          ((rendues ls reste).map some ++ List.replicate n none).take n := by
        rw [List.replicate_succ', ← List.append_assoc, List.take_append_of_le_length]
        rw [List.length_append, List.length_replicate]
        omega
      rw [appels, hflux, readline_ligne (bruts n) _ hl0 h10 hl hk, hrendues, List.map_cons, List.cons_append,
        List.take_succ_cons, htake]
      simp only [Option.bind_eq_bind, Option.bind_some, hsuite]
      rfl

/-- **Successive calls** return the successive lines, and each access is inside the buffer. -/
theorem appels_lignes (bruts : ℕ → ℕ → UInt8) (n : ℕ) (h : Lignes flux ls reste) (h0 : 0 ∉ flux)
    (hls : ∀ line ∈ ls, line.length < intMax / 2) (hreste : reste.length < 2 ^ 29) (hk : 28 ≤ k) :
    appels bruts k n flux = some (((rendues ls reste).map some ++ List.replicate n none).take n) ∧
      ∀ brut k flux, readline brut k flux ≠ some .hors :=
  ⟨appels_eq bruts n h h0 hls hreste hk, readline_dedans⟩

theorem appels_deux_lignes :
    appels (fun _ _ => 170) 28 3 (octets "ls\x0acd") = some [some (octets "ls"), some (octets "cd"), none] := by
  have h : Lignes (octets "ls\x0acd") [octets "ls"] (octets "cd") := ⟨by decide, by decide, by decide⟩
  exact (appels_lignes (fun _ _ => 170) 3 h (by decide) (by decide) (by decide) le_rfl).1

/-- a last line of `n` letters, too long for half of the largest buffer -/
theorem readline_replicate {n : ℕ} (hn : 2 ^ 29 ≤ n) :
    Lignes (List.replicate n 97) [] (List.replicate n 97) ∧ 0 ∉ List.replicate n (97 : UInt8) ∧
      ∀ brut k, 28 ≤ k → readline brut k (List.replicate n 97) = some .memoire := by
  have h0 : 0 ∉ List.replicate n (97 : UInt8) := fun h => absurd (List.eq_of_mem_replicate h) (by decide)
  have h10 : 10 ∉ List.replicate n (97 : UInt8) := fun h => absurd (List.eq_of_mem_replicate h) (by decide)
  have hlen : (List.replicate n (97 : UInt8)).length = n := List.length_replicate
  have hne : List.replicate n (97 : UInt8) ≠ [] := by
    rw [← List.length_pos_iff, hlen]
    omega
  refine ⟨⟨by simp, by simp, h10⟩, h0, ?_⟩
  intro brut k hk
  rw [readline_derniere brut h0 h10 hne hk, hlen, if_neg (by omega)]

/-- such a line can be shorter than `INT_MAX / 2`: the process ends instead of returning it -/
theorem derniere_trop_longue :
    Lignes (List.replicate (2 ^ 29) 97) [] (List.replicate (2 ^ 29) 97) ∧ 0 ∉ List.replicate (2 ^ 29) (97 : UInt8) ∧
      (List.replicate (2 ^ 29) (97 : UInt8)).length < intMax / 2 ∧
      ∀ brut k, 28 ≤ k → readline brut k (List.replicate (2 ^ 29) 97) = some .memoire := by
  have hmax : (2 : ℕ) ^ 29 < intMax / 2 := by decide
  obtain ⟨hl, h0, hr⟩ := readline_replicate (n := 2 ^ 29) le_rfl
  exact ⟨hl, h0, List.length_replicate.trans_lt hmax, hr⟩

end Semestre6.Shell
