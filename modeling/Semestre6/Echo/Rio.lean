/-
csapp.c: the robust reads of the Rio package, on a descriptor whose bytes come in pieces of any size.

A call of `read` gives one `Lu`; a call of the package is fed with those that have returned, and waits when there are
no more of them. `rio_readlineb` counts one byte too many when the line does not end with a newline, as its source does.

- `rioRead_spec`, `rioReadlineb_spec`, `rioReadnb_spec`: what a call takes from the bytes to come;
- `appels_flux`: any sequence of calls returns what it would on the stream in one piece.
-/
import Semestre6.Lib.Octets
import Semestre6.Lib.Morceaux
import Semestre6.Ftp.Define

namespace Semestre6.Rio

open Semestre6.Ftp (Octets maxline)
open Octets (readInto)
open Morceaux

/-- `RIO_BUFSIZE` -/
def rioBufsize : ℕ := 8192

/-- `rio_t`, the pointer as an index -/
structure RioT where
  cnt : ℤ
  bufptr : ℕ
  buf : Octets
deriving DecidableEq, Repr

/-- what a call of `read` returns; no byte at end of file -/
inductive Lu where
  | eintr
  | erreur
  | octets (d : Octets)
deriving DecidableEq, Repr

/-- what a call of the package ends with; it waits when a `read` has not returned -/
inductive Appel (σ ρ : Type) where
  | rendu (r : ρ) (rp : RioT) (suite : List Lu)
  | attend (e : σ)
deriving DecidableEq, Repr

/-- `rio_readinitb`, on a buffer that nobody wrote -/
def rioReadinitb (buf : Octets) : RioT := ⟨0, 0, buf⟩

/-- the copy of `min(n, rio_cnt)` bytes -/
def copie (n : ℕ) (rp : RioT) (lus : List Lu) : Appel RioT (ℤ × Octets) :=
  let cnt := if rp.cnt < n then rp.cnt.toNat else n
  .rendu (cnt, (rp.buf.drop rp.bufptr).take cnt) { rp with bufptr := rp.bufptr + cnt, cnt := rp.cnt - cnt } lus

def rioRead (n : ℕ) (rp : RioT) (lus : List Lu) : Appel RioT (ℤ × Octets) :=
  if 0 < rp.cnt then copie n rp lus
  else
    match lus with
    | [] => .attend rp
    | .eintr :: lus => rioRead n { rp with cnt := -1 } lus
    | .erreur :: lus => .rendu (-1, []) { rp with cnt := -1 } lus
    | .octets d :: lus =>
      if d = [] then .rendu (0, []) { rp with cnt := 0 } lus
      else copie n { rp with cnt := d.length, bufptr := 0, buf := readInto rp.buf d } lus

/-- the loop of `rio_readlineb`: `m` turns are left, `bufp` is written -/
def boucleLigne : ℕ → ℕ → Octets → RioT → List Lu → Appel (ℕ × Octets × RioT) (ℤ × Octets)
  | 0, n, bufp, rp, lus => .rendu (n, bufp) rp lus
  | m + 1, n, bufp, rp, lus =>
    match rioRead 1 rp lus with
    | .attend rp => .attend (n, bufp, rp)
    | .rendu (rc, c) rp lus =>
      if rc = 1 then
        if c = [10] then .rendu (n, bufp ++ c) rp lus else boucleLigne m (n + 1) (bufp ++ c) rp lus
      else if rc = 0 then
        if n = 1 then .rendu (0, []) rp lus else .rendu (n, bufp) rp lus
      else .rendu (-1, bufp) rp lus

def rioReadlineb (maxlen : ℕ) (rp : RioT) (lus : List Lu) : Appel (ℕ × Octets × RioT) (ℤ × Octets) :=
  boucleLigne (maxlen - 1) 1 [] rp lus

/-- a call of `rio_readlineb` that was waiting -/
def reprend (maxlen : ℕ) (e : ℕ × Octets × RioT) (lus : List Lu) : Appel (ℕ × Octets × RioT) (ℤ × Octets) :=
  boucleLigne (maxlen - e.1) e.1 e.2.1 e.2.2 lus

/-- the loop of `rio_readnb`: `k` turns at most, since each one but the last takes a byte or more -/
def boucleOctets : ℕ → ℕ → Octets → RioT → List Lu → Appel (ℕ × Octets × RioT) (ℤ × Octets)
  | 0, _, bufp, rp, lus => .rendu (bufp.length, bufp) rp lus
  | k + 1, nleft, bufp, rp, lus =>
    if nleft = 0 then .rendu (bufp.length, bufp) rp lus
    else
      match rioRead nleft rp lus with
      | .attend rp => .attend (nleft, bufp, rp)
      | .rendu (nread, d) rp lus =>
        if nread < 0 then .rendu (-1, bufp) rp lus
        else if nread = 0 then .rendu (bufp.length, bufp) rp lus
        else boucleOctets k (nleft - nread.toNat) (bufp ++ d) rp lus

def rioReadnb (n : ℕ) (rp : RioT) (lus : List Lu) : Appel (ℕ × Octets × RioT) (ℤ × Octets) :=
  boucleOctets n n [] rp lus

/-! ## The bytes to come -/

/-- the bytes of the buffer that nobody has taken -/
def RioT.nonLus (rp : RioT) : Octets := (rp.buf.drop rp.bufptr).take rp.cnt.toNat

/-- they are inside the buffer -/
structure RioT.Sain (rp : RioT) : Prop where
  taille : rp.buf.length = rioBufsize
  dedans : rp.bufptr + rp.cnt.toNat ≤ rioBufsize

/-- the bytes that the reads give, up to the first end of file -/
def donnees : List Lu → Octets
  | [] => []
  | .octets d :: lus => if d = [] then [] else d ++ donnees lus
  | _ :: lus => donnees lus

/-- the reads fit in the buffer, none fails, and an end of file is one for good -/
inductive Reguliere : List Lu → Prop
  | nil : Reguliere []
  | eintr {lus : List Lu} (h : Reguliere lus) : Reguliere (.eintr :: lus)
  | octets {d : Octets} {lus : List Lu} (hd : d ≠ []) (hlen : d.length ≤ rioBufsize) (h : Reguliere lus) :
    Reguliere (.octets d :: lus)
  | fin {lus : List Lu} (hfin : donnees lus = []) (h : Reguliere lus) : Reguliere (.octets [] :: lus)

def flux (rp : RioT) (lus : List Lu) : Octets := rp.nonLus ++ donnees lus

/-- the ends of file that the reads give -/
def fins (lus : List Lu) : ℕ := lus.count (.octets [])

variable {rp rp' : RioT} {lus lus' : List Lu} {n k maxlen : ℕ} {bufp w d s : Octets}

theorem nonLus_of_cnt (h : ¬0 < rp.cnt) : rp.nonLus = [] := by
  have hcnt : rp.cnt.toNat = 0 := by omega
  rw [RioT.nonLus, hcnt, List.take_zero]

theorem length_nonLus (h : rp.Sain) : rp.nonLus.length = rp.cnt.toNat := by
  have htaille := h.taille
  have hdedans := h.dedans
  rw [RioT.nonLus, List.length_take, List.length_drop]
  omega

theorem sain_vide (h : rp.Sain) (c : ℤ) (hc : c ≤ 0) : ({ rp with cnt := c } : RioT).Sain := by
  have hdedans := h.dedans
  refine ⟨h.taille, ?_⟩
  show rp.bufptr + c.toNat ≤ rioBufsize
  omega

theorem sain_rempli (h : rp.Sain) (hlen : d.length ≤ rioBufsize) :
    ({ rp with cnt := d.length, bufptr := 0, buf := readInto rp.buf d } : RioT).Sain := by
  have htaille := h.taille
  refine ⟨?_, ?_⟩
  · show (readInto rp.buf d).length = rioBufsize
    rw [readInto, List.length_append, List.length_drop]
    omega
  · show 0 + (d.length : ℤ).toNat ≤ rioBufsize
    omega

theorem nonLus_rempli (rp : RioT) (d : Octets) :
    ({ rp with cnt := d.length, bufptr := 0, buf := readInto rp.buf d } : RioT).nonLus = d := by
  simp [RioT.nonLus, readInto]

/-! ## One `rio_read` -/

/-- what a call of `rio_read` leaves -/
def Prend (n : ℕ) (s : Octets) (f : ℕ) : Appel RioT (ℤ × Octets) → Prop
  | .rendu (rc, d) rp lus => rp.Sain ∧ Reguliere lus ∧ rc = d.length ∧ d.length ≤ n ∧ s = d ++ flux rp lus ∧
    f = fins lus + (if d = [] then 1 else 0) ∧ (d = [] → flux rp lus = [])
  | .attend rp => rp.Sain ∧ rp.nonLus = [] ∧ s = [] ∧ f = 0

theorem copie_spec (hn : 0 < n) (h : rp.Sain) (hcnt : 0 < rp.cnt) (hl : Reguliere lus) :
    Prend n (flux rp lus) (fins lus) (copie n rp lus) := by
  obtain ⟨k, hk, hkn, hk0, hcopie⟩ : ∃ k : ℕ, (k : ℤ) ≤ rp.cnt ∧ k ≤ n ∧ 0 < k ∧ copie n rp lus =
      .rendu (k, (rp.buf.drop rp.bufptr).take k) { rp with bufptr := rp.bufptr + k, cnt := rp.cnt - k } lus := by
    by_cases hlt : rp.cnt < n
    · refine ⟨rp.cnt.toNat, by omega, by omega, by omega, ?_⟩
      simp [copie, hlt]
    · refine ⟨n, by omega, le_rfl, hn, ?_⟩
      simp [copie, hlt]
  have htaille := h.taille
  have hdedans := h.dedans
  have hlen : ((rp.buf.drop rp.bufptr).take k).length = k := by
    rw [List.length_take, List.length_drop]
    omega
  have hne : (rp.buf.drop rp.bufptr).take k ≠ [] := by
    intro he
    rw [he] at hlen
    exact absurd hlen.symm (by simpa using hk0.ne')
  rw [hcopie]
  refine ⟨⟨htaille, ?_⟩, hl, by rw [hlen], by omega, ?_, by simp [hne], fun he => absurd he hne⟩
  · show rp.bufptr + k + (rp.cnt - k).toNat ≤ rioBufsize
    omega
  · have hsplit : rp.cnt.toNat = k + (rp.cnt - k).toNat := by omega
    rw [flux, flux, RioT.nonLus, RioT.nonLus, hsplit, List.take_add, List.drop_drop, List.append_assoc]

theorem rioRead_spec (hn : 0 < n) (h : rp.Sain) (hl : Reguliere lus) :
    Prend n (flux rp lus) (fins lus) (rioRead n rp lus) := by
  induction hl generalizing rp with
  | nil =>
    rw [rioRead]
    split_ifs with hcnt
    · exact copie_spec hn h hcnt .nil
    · exact ⟨h, nonLus_of_cnt hcnt, by simp [flux, nonLus_of_cnt hcnt, donnees], rfl⟩
  | @eintr lus hl ih =>
    rw [rioRead]
    split_ifs with hcnt
    · exact copie_spec hn h hcnt (.eintr hl)
    · have hvide := ih (sain_vide h (-1) (by omega))
      have hflux : flux { rp with cnt := -1 } lus = flux rp (.eintr :: lus) := by
        rw [flux, flux, nonLus_of_cnt hcnt, nonLus_of_cnt (show ¬(0 : ℤ) < -1 by omega)]
        rfl
      have hfins : fins (.eintr :: lus) = fins lus := by simp [fins]
      rw [hfins, ← hflux]
      exact hvide
  | @octets d lus hd hlen hl ih =>
    rw [rioRead]
    split_ifs with hcnt
    · exact copie_spec hn h hcnt (.octets hd hlen hl)
    · have hcnt' : (0 : ℤ) < d.length := by
        have := List.length_pos_of_ne_nil hd
        omega
      have hplein := copie_spec hn (sain_rempli h hlen) hcnt' hl
      have hflux : flux { rp with cnt := d.length, bufptr := 0, buf := readInto rp.buf d } lus =
          flux rp (.octets d :: lus) := by
        simp [flux, nonLus_of_cnt hcnt, nonLus_rempli, donnees, hd]
      have hfins : fins (.octets d :: lus) = fins lus := by simp [fins, hd]
      rw [hfins, ← hflux]
      simpa [hd] using hplein
  | @fin lus hfin hl ih =>
    rw [rioRead, if_pos rfl]
    split_ifs with hcnt
    · exact copie_spec hn h hcnt (.fin hfin hl)
    · have hvide : ({ rp with cnt := 0 } : RioT).nonLus = [] := nonLus_of_cnt (lt_irrefl _)
      refine ⟨sain_vide h 0 le_rfl, hl, rfl, Nat.zero_le _, ?_, ?_, ?_⟩
      · simp [flux, nonLus_of_cnt hcnt, hvide, donnees, hfin]
      · simp [fins]
      · intro _
        rw [flux, hvide, hfin, List.nil_append]

theorem cnt_of_nonLus (h : rp.Sain) (hvide : rp.nonLus = []) : ¬0 < rp.cnt := by
  have hlen := length_nonLus h
  rw [hvide, List.length_nil] at hlen
  omega

/-- a call that finds its buffer empty takes one of the reads -/
theorem rioRead_suite {r : ℤ × Octets} (h : rioRead n rp lus = .rendu r rp' lus') :
    lus'.length ≤ lus.length ∧ (¬0 < rp.cnt → lus'.length < lus.length) := by
  induction lus generalizing rp with
  | nil =>
    rw [rioRead] at h
    split_ifs at h with hcnt
    · simp only [copie, Appel.rendu.injEq] at h
      exact ⟨by rw [h.2.2], fun h => absurd hcnt h⟩
  | cons lu lus ih =>
    by_cases hcnt : 0 < rp.cnt
    · rw [rioRead.eq_def, if_pos hcnt] at h
      simp only [copie, Appel.rendu.injEq] at h
      exact ⟨by rw [h.2.2], fun h => absurd hcnt h⟩
    · have hlt : lus'.length ≤ lus.length := by
        rw [rioRead.eq_def, if_neg hcnt] at h
        match lu with
        | .eintr => exact (ih h).1
        | .erreur =>
          simp only [Appel.rendu.injEq] at h
          rw [h.2.2]
        | .octets d =>
          dsimp only at h
          split_ifs at h <;> simp only [copie, Appel.rendu.injEq] at h <;> rw [h.2.2]
      rw [List.length_cons]
      exact ⟨by omega, fun _ => by omega⟩

/-! ## One line -/

/-- what `rio_readlineb` counts: the bytes of the line and, when no newline ends it, one more -/
def compte (w : Octets) : ℤ := if w = [] then 0 else if w.getLast? = some 10 then w.length else w.length + 1

/-- what a call of `rio_readlineb` leaves, when `bufp` is already read of the line -/
def LigneLue (maxlen : ℕ) (bufp s : Octets) (f : ℕ) : Appel (ℕ × Octets × RioT) (ℤ × Octets) → Prop
  | .rendu (rc, w) rp lus => rp.Sain ∧ Reguliere lus ∧ rc = compte w ∧ bufp ++ s = w ++ flux rp lus ∧
    coupe (maxlen - 1) 10 bufp s = (if w = [] then [] else w :: coupe (maxlen - 1) 10 [] (flux rp lus)) ∧
    (f = fins lus ∧ ¬Ouvert (maxlen - 1) 10 w ∨ f = fins lus + 1 ∧ Ouvert (maxlen - 1) 10 w ∧ flux rp lus = [])
  | .attend (n, w, rp) => rp.Sain ∧ rp.nonLus = [] ∧ n = w.length + 1 ∧ w = bufp ++ s ∧ Ouvert (maxlen - 1) 10 w ∧ f = 0

theorem LigneLue.recule {c : UInt8} {f : ℕ} {a : Appel (ℕ × Octets × RioT) (ℤ × Octets)}
    (ho : Ouvert (maxlen - 1) 10 (bufp ++ [c])) (h : LigneLue maxlen (bufp ++ [c]) s f a) :
    LigneLue maxlen bufp (c :: s) f a := by
  match a with
  | .rendu (rc, w) rp lus =>
    obtain ⟨hrp, hl, hrc, hs, hc, hf⟩ := h
    refine ⟨hrp, hl, hrc, ?_, ?_, hf⟩
    · rw [← hs, List.append_assoc, List.singleton_append]
    · rw [coupe_suite ho, hc]
  | .attend (n, w, rp) =>
    obtain ⟨hrp, hvide, hn, hw, hw', hf⟩ := h
    exact ⟨hrp, hvide, hn, by rw [hw, List.append_assoc, List.singleton_append], hw', hf⟩

theorem boucleLigne_spec {m : ℕ} (hm : m + bufp.length + 1 = maxlen) (hm0 : 0 < m) (ho : 10 ∉ bufp) (h : rp.Sain)
    (hl : Reguliere lus) :
    LigneLue maxlen bufp (flux rp lus) (fins lus) (boucleLigne m (bufp.length + 1) bufp rp lus) := by
  induction m generalizing bufp rp lus with
  | zero => omega
  | succ m ih =>
    have hr := rioRead_spec (n := 1) one_pos h hl
    rw [boucleLigne]
    cases hx : rioRead 1 rp lus with
    | attend rp' =>
      rw [hx] at hr
      obtain ⟨hrp, hvide, hs, hf⟩ := hr
      refine ⟨hrp, hvide, rfl, by rw [hs, List.append_nil], ⟨ho, by omega⟩, hf⟩
    | rendu r rp' lus' =>
      rw [hx] at hr
      obtain ⟨rc, c⟩ := r
      obtain ⟨hrp, hl', rfl, hlen, hs, hf, hfin⟩ := hr
      match c with
      | [] =>
        -- the end of the stream
        have hs' : flux rp' lus' = [] := hfin rfl
        simp only [List.length_nil, Nat.cast_zero, zero_ne_one, if_false, if_true]
        rw [hs, hs', List.append_nil]
        have hf' : fins lus = fins lus' + 1 := by simpa using hf
        by_cases hb : bufp = []
        · subst hb
          exact ⟨hrp, hl', rfl, by simp [hs'], by simp, .inr ⟨hf', ⟨ho, by simp; omega⟩, hs'⟩⟩
        · have hb' : bufp.length + 1 ≠ 1 := by simpa using hb
          rw [if_neg hb']
          refine ⟨hrp, hl', ?_, by rw [hs'], ?_, .inr ⟨hf', ⟨ho, by omega⟩, hs'⟩⟩
          · have hlast : bufp.getLast? ≠ some 10 := fun he => ho (List.mem_of_getLast? he)
            rw [compte, if_neg hb, if_neg hlast]
            push_cast
            rfl
          · rw [hs', coupe_nil hb, if_neg hb, coupe_nil_nil]
      | [x] =>
        have hne : bufp ++ [x] ≠ [] := by simp
        simp only [List.length_singleton, Nat.cast_one, if_true]
        rw [hs, List.singleton_append]
        have hf' : fins lus = fins lus' := by simpa using hf
        by_cases hx10 : x = 10
        · subst hx10
          rw [if_pos rfl]
          refine ⟨hrp, hl', ?_, by simp, ?_, .inl ⟨hf', fun hw => hw.1 (by simp)⟩⟩
          · simp [compte]
          · rw [coupe_fini (.inl rfl), if_neg hne]
        · rw [if_neg (by simpa using hx10)]
          have ho' : 10 ∉ bufp ++ [x] := by simpa using ⟨ho, Ne.symm hx10⟩
          rcases Nat.eq_zero_or_pos m with rfl | hm0'
          · -- the buffer is full
            have hlast : (bufp ++ [x]).getLast? ≠ some 10 := by simpa using hx10
            have hplein : ¬Ouvert (maxlen - 1) 10 (bufp ++ [x]) := by
              intro hw
              have hlt := hw.2
              rw [List.length_append, List.length_singleton] at hlt
              omega
            refine ⟨hrp, hl', ?_, by simp, ?_, .inl ⟨hf', hplein⟩⟩
            · rw [compte, if_neg hne, if_neg hlast, List.length_append, List.length_singleton]
              push_cast
              rfl
            · rw [coupe_fini (.inr (by omega)), if_neg hne]
          · have hlen' : m + (bufp ++ [x]).length + 1 = maxlen := by
              rw [List.length_append, List.length_singleton]
              omega
            have hsuite := ih hlen' hm0' ho' hrp hl'
            rw [List.length_append, List.length_singleton] at hsuite
            have hopen : Ouvert (maxlen - 1) 10 (bufp ++ [x]) :=
              ⟨ho', by rw [List.length_append, List.length_singleton]; omega⟩
            rw [hf']
            exact hsuite.recule hopen
      | _ :: _ :: _ => simp at hlen

theorem rioReadlineb_spec (hm : 2 ≤ maxlen) (h : rp.Sain) (hl : Reguliere lus) :
    LigneLue maxlen [] (flux rp lus) (fins lus) (rioReadlineb maxlen rp lus) :=
  boucleLigne_spec (by simp; omega) (by omega) (by simp) h hl

/-- a call that was waiting goes on -/
theorem reprend_spec (ho : Ouvert (maxlen - 1) 10 w) (h : rp.Sain) (hl : Reguliere lus) :
    LigneLue maxlen w (flux rp lus) (fins lus) (reprend maxlen (w.length + 1, w, rp) lus) := by
  have hlen := ho.2
  exact boucleLigne_spec (by omega) (by omega) ho.1 h hl

theorem boucleLigne_suite {m : ℕ} {r : ℤ × Octets} (h : boucleLigne m n bufp rp lus = .rendu r rp' lus') :
    lus'.length ≤ lus.length ∧ (0 < m → ¬0 < rp.cnt → lus'.length < lus.length) := by
  induction m generalizing n bufp rp lus with
  | zero =>
    simp only [boucleLigne, Appel.rendu.injEq] at h
    exact ⟨by rw [h.2.2], fun h => absurd h (lt_irrefl 0)⟩
  | succ m ih =>
    rw [boucleLigne] at h
    cases hx : rioRead 1 rp lus with
    | attend rp₁ => simp [hx] at h
    | rendu r₁ rp₁ lus₁ =>
      obtain ⟨hle, hlt⟩ := rioRead_suite hx
      have hsuite : lus'.length ≤ lus₁.length := by
        simp only [hx] at h
        split_ifs at h
        any_goals simp only [Appel.rendu.injEq] at h; rw [h.2.2]
        exact (ih h).1
      exact ⟨hsuite.trans hle, fun _ hcnt => hsuite.trans_lt (hlt hcnt)⟩

/-- a call that was waiting takes the read that comes -/
theorem reprend_suite {lu : Lu} {r : ℤ × Octets} (ho : Ouvert (maxlen - 1) 10 w) (h : rp.Sain) (hvide : rp.nonLus = [])
    (hx : reprend maxlen (w.length + 1, w, rp) [lu] = .rendu r rp' lus') : lus' = [] := by
  have hlen := ho.2
  have hlt := (boucleLigne_suite hx).2 (by show 0 < maxlen - (w.length + 1); omega) (cnt_of_nonLus h hvide)
  exact List.length_eq_zero_iff.1 (Nat.lt_one_iff.1 hlt)

/-! ## A number of bytes -/

/-- what a call of `rio_readnb` leaves, when `bufp` is already read and `nleft` bytes are asked for -/
def OctetsLus (nleft : ℕ) (bufp s : Octets) (f : ℕ) : Appel (ℕ × Octets × RioT) (ℤ × Octets) → Prop
  | .rendu (rc, w) rp lus => rp.Sain ∧ Reguliere lus ∧ rc = w.length ∧ w = bufp ++ s.take nleft ∧
    flux rp lus = s.drop nleft ∧ f ≤ fins lus + 1
  | .attend (_, w, rp) => rp.Sain ∧ rp.nonLus = [] ∧ w = bufp ++ s ∧ s.length < nleft ∧ f = 0

theorem boucleOctets_spec {nleft : ℕ} (hk : nleft ≤ k) (h : rp.Sain) (hl : Reguliere lus) :
    OctetsLus nleft bufp (flux rp lus) (fins lus) (boucleOctets k nleft bufp rp lus) := by
  induction k generalizing nleft bufp rp lus with
  | zero =>
    obtain rfl := Nat.le_zero.1 hk
    exact ⟨h, hl, rfl, by simp, by simp, Nat.le_succ _⟩
  | succ k ih =>
    rw [boucleOctets]
    by_cases hn : nleft = 0
    · subst hn
      rw [if_pos rfl]
      exact ⟨h, hl, rfl, by simp, by simp, Nat.le_succ _⟩
    rw [if_neg hn]
    have hr := rioRead_spec (Nat.pos_of_ne_zero hn) h hl
    cases hx : rioRead nleft rp lus with
    | attend rp' =>
      rw [hx] at hr
      obtain ⟨hrp, hvide, hs, hf⟩ := hr
      exact ⟨hrp, hvide, by rw [hs, List.append_nil], by rw [hs]; exact Nat.pos_of_ne_zero hn, hf⟩
    | rendu r rp' lus' =>
      rw [hx] at hr
      obtain ⟨rc, d⟩ := r
      obtain ⟨hrp, hl', rfl, hlen, hs, hf, hfin⟩ := hr
      by_cases hd : d = []
      · subst hd
        have hs' : flux rp' lus' = [] := hfin rfl
        have hs0 : flux rp lus = [] := by rw [hs, hs', List.append_nil]
        rw [hs0]
        exact ⟨hrp, hl', rfl, by simp, by simpa using hs', by simpa using hf.le⟩
      · have hpos := List.length_pos_of_ne_nil hd
        have hneg : ¬(d.length : ℤ) < 0 := by omega
        have hzero : ¬(d.length : ℤ) = 0 := by omega
        have hf' : fins lus = fins lus' := by simpa [hd] using hf
        simp only [if_neg hneg, if_neg hzero, Int.toNat_natCast]
        have hle : nleft - d.length ≤ k := by omega
        have hsuite := @ih rp' lus' (bufp ++ d) _ hle hrp hl'
        rw [hs]
        cases hy : boucleOctets k (nleft - d.length) (bufp ++ d) rp' lus' with
        | attend e =>
          rw [hy] at hsuite
          obtain ⟨hrp', hvide, hw, hlt, hf0⟩ := hsuite
          refine ⟨hrp', hvide, by rw [hw, List.append_assoc], ?_, by omega⟩
          rw [List.length_append]
          omega
        | rendu r rp'' lus'' =>
          rw [hy] at hsuite
          obtain ⟨hrp', hl'', hrc, hw, hflux, hff⟩ := hsuite
          refine ⟨hrp', hl'', hrc, ?_, ?_, hf'.trans_le hff⟩
          · rw [hw, List.append_assoc, List.take_append, List.take_of_length_le hlen]
          · rw [hflux, List.drop_append, List.drop_of_length_le hlen, List.nil_append]

theorem rioReadnb_spec (n : ℕ) (h : rp.Sain) (hl : Reguliere lus) :
    OctetsLus n [] (flux rp lus) (fins lus) (rioReadnb n rp lus) := boucleOctets_spec le_rfl h hl

/-! ## Any sequence of calls -/

inductive Op where
  | ligne (maxlen : ℕ)
  | octets (n : ℕ)
deriving DecidableEq, Repr

def Op.appel : Op → RioT → List Lu → Appel (ℕ × Octets × RioT) (ℤ × Octets)
  | .ligne maxlen, rp, lus => rioReadlineb maxlen rp lus
  | .octets n, rp, lus => rioReadnb n rp lus

/-- the results of the calls, unless one of them still waits -/
def appels : List Op → RioT → List Lu → Option (List (ℤ × Octets))
  | [], _, _ => some []
  | op :: ops, rp, lus =>
    match op.appel rp lus with
    | .attend _ => none
    | .rendu r rp lus => (appels ops rp lus).map (r :: ·)

/-- the bytes that a call takes at the beginning of a stream in one piece -/
def Op.prend : Op → Octets → Octets
  | .ligne maxlen, s => ((coupe (maxlen - 1) 10 [] s).head?).getD []
  | .octets n, s => s.take n

def Op.rend : Op → Octets → ℤ
  | .ligne _, w => compte w
  | .octets _, w => w.length

/-- the calls on a stream in one piece -/
def appelsFlux : List Op → Octets → List (ℤ × Octets)
  | [], _ => []
  | op :: ops, s => (op.rend (op.prend s), op.prend s) :: appelsFlux ops (s.drop (op.prend s).length)

/-- the buffers for lines hold a byte and the terminator -/
def Op.Correct : Op → Prop
  | .ligne maxlen => 2 ≤ maxlen
  | .octets _ => True

theorem appel_spec {op : Op} (hop : op.Correct) (h : rp.Sain) (hl : Reguliere lus) (hf : 0 < fins lus) :
    ∃ rp' lus', op.appel rp lus = .rendu (op.rend (op.prend (flux rp lus)), op.prend (flux rp lus)) rp' lus' ∧
      rp'.Sain ∧ Reguliere lus' ∧ flux rp' lus' = (flux rp lus).drop (op.prend (flux rp lus)).length ∧
      fins lus ≤ fins lus' + 1 := by
  cases op with
  | ligne maxlen =>
    have hspec := rioReadlineb_spec hop h hl
    cases hx : rioReadlineb maxlen rp lus with
    | attend e =>
      rw [hx] at hspec
      obtain ⟨-, -, -, -, -, hf0⟩ := hspec
      omega
    | rendu r rp' lus' =>
      rw [hx] at hspec
      obtain ⟨rc, w⟩ := r
      obtain ⟨hrp, hl', rfl, hs, hc, hff⟩ := hspec
      have hw : Op.prend (.ligne maxlen) (flux rp lus) = w := by
        rw [Op.prend, hc]
        by_cases hw : w = []
        · rw [if_pos hw, hw]
          rfl
        · rw [if_neg hw]
          rfl
      rw [hw]
      refine ⟨rp', lus', hx, hrp, hl', ?_, by omega⟩
      rw [← List.nil_append (flux rp lus), hs, List.drop_left]
  | octets n =>
    have hspec := rioReadnb_spec n h hl
    cases hx : rioReadnb n rp lus with
    | attend e =>
      rw [hx] at hspec
      obtain ⟨-, -, -, -, hf0⟩ := hspec
      omega
    | rendu r rp' lus' =>
      rw [hx] at hspec
      obtain ⟨rc, w⟩ := r
      obtain ⟨hrp, hl', rfl, rfl, hs, hff⟩ := hspec
      refine ⟨rp', lus', hx, hrp, hl', ?_, hff⟩
      rw [hs, Op.prend, List.length_take]
      rcases le_total n (flux rp lus).length with hle | hle
      · rw [Nat.min_eq_left hle]
      · rw [Nat.min_eq_right hle, List.drop_length, List.drop_of_length_le hle]

/-- **The cuts do not show**: whatever the pieces that the reads give and the interruptions between them, any sequence
of calls returns what it would on the stream in one piece. The ends of file are as many as the calls, so that none of
them waits. -/
theorem appels_flux {ops : List Op} (hops : ∀ op ∈ ops, op.Correct) (h : rp.Sain) (hl : Reguliere lus)
    (hf : ops.length ≤ fins lus) : appels ops rp lus = some (appelsFlux ops (flux rp lus)) := by
  induction ops generalizing rp lus with
  | nil => rfl
  | cons op ops ih =>
    obtain ⟨hop, hops⟩ := List.forall_mem_cons.1 hops
    rw [List.length_cons] at hf
    obtain ⟨rp', lus', hx, hrp, hl', hs, hff⟩ := appel_spec hop h hl (by omega)
    rw [appels, hx, appelsFlux, ← hs]
    show (appels ops rp' lus').map _ = _
    rw [ih hops hrp hl' (by omega)]
    rfl

/-- a line, five bytes and what is left, from three reads -/
theorem appels_flux_trois :
    appels [.ligne maxline, .octets 5, .ligne 3] (rioReadinitb (List.replicate rioBufsize 0))
        [.octets [97, 98], .eintr, .octets [10, 99], .octets [100, 101, 102, 103, 104, 105], .octets [], .octets [],
          .octets []] =
      some [(3, [97, 98, 10]), (5, [99, 100, 101, 102, 103]), (3, [104, 105])] := by
  have hl : Reguliere [.octets [97, 98], .eintr, .octets [10, 99], .octets [100, 101, 102, 103, 104, 105], .octets [],
      .octets [], .octets []] :=
    .octets (by simp) (by simp [rioBufsize]) <| .eintr <| .octets (by simp) (by simp [rioBufsize]) <|
      .octets (by simp) (by simp [rioBufsize]) <| .fin rfl <| .fin rfl <| .fin rfl .nil
  have hsain : (rioReadinitb (List.replicate rioBufsize 0)).Sain := ⟨List.length_replicate, Nat.zero_le _⟩
  have hops : ∀ op ∈ [Op.ligne maxline, .octets 5, .ligne 3], op.Correct := by
    simp [Op.Correct, maxline]
  exact appels_flux hops hsain hl (by decide)

end Semestre6.Rio
