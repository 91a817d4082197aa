/-
A get cut short and resumed, any number of times. Each chunk that `envoi_fichier_au_client` writes is taken by one read
of the client's `reception_fichier`. A round is a number of chunks acknowledged, then one more chunk that the client
writes to its file or loses, but never acknowledges; the slave reports `nb - MAXLINE`, counted after that chunk, and the
next round starts there on both sides. A negative `nb - MAXLINE` is reported without an offset and ends the story.

- `Tenu`: the client's file is a prefix of the server's that reaches the offset reported;
- `tour_tenu`: every round keeps it;
- `reprise_iff`: after any rounds and a resume that completes, the offsets were right and the files are equal exactly
  when the size fits an int;
- `reprise_termine`: the last resume does complete.
-/
import Semestre6.Ftp.Transfert

namespace Semestre6.Ftp.Reprise

open Octets Transition

/-! ## Rounds -/

/-- one chunk written, read whole, written to the client's file and acknowledged -/
def echange (p : Envoi × Reception) : Option (Envoi × Reception) :=
  if p.1.Encore ∧ p.2.Encore ∧ p.1.lit.nb < 2 ^ 31 then some (p.1.lit, p.2.recoit p.1.morceau) else none

def echanges : ℕ → Envoi × Reception → Option (Envoi × Reception)
  | 0, p => some p
  | k + 1, p => (echange p).bind (echanges k)

/-- the client's file and the offset that the slave has reported -/
structure Etat where
  fichier : Octets
  offset : ℤ
deriving DecidableEq, Repr

/-- the client's file is created empty by the get -/
def Etat.initial : Etat := ⟨[], 0⟩

/-- both sides start at the offset reported, with the size announced again -/
def depart (src : Octets) (s : Etat) : Envoi × Reception :=
  (Envoi.debut src s.offset (versInt src.length), Reception.debut s.fichier s.offset (versInt src.length))

structure Tour where
  /-- chunks acknowledged before the silence -/
  acquittes : ℕ
  /-- the last chunk was written before the silence -/
  ecrit : Bool
deriving DecidableEq, Repr

def coupure (ecrit : Bool) (p : Envoi × Reception) : Option Etat :=
  -- `nb = nb_octets+1` ends the slave's loop
  if p.1.Encore ∧ (ecrit → p.2.Encore) ∧ p.1.lit.nb < 2 ^ 31 ∧ maxline ≤ p.1.lit.nb ∧ p.1.nbOctets + 1 < 2 ^ 31 then
    some ⟨if ecrit then (p.2.recoit p.1.morceau).fichier else p.2.fichier, p.1.lit.nb - maxline⟩
  else none

def tour (src : Octets) (s : Etat) (t : Tour) : Option Etat :=
  (echanges t.acquittes (depart src s)).bind (coupure t.ecrit)

/-- the client's file after a resume of `k` chunks, all acknowledged, that ends both loops -/
def acheve (src : Octets) (s : Etat) (k : ℕ) : Option Octets :=
  (echanges k (depart src s)).bind fun p => if ¬p.1.Encore ∧ ¬p.2.Encore then some p.2.fichier else none

/-- the length of the correct prefix -/
def prefixeCorrect : Octets → Octets → ℕ
  | a :: src, b :: f => if a = b then prefixeCorrect src f + 1 else 0
  | _, _ => 0

theorem prefixeCorrect_take (src : Octets) (m : ℕ) (hm : m ≤ src.length) : prefixeCorrect src (src.take m) = m := by
  induction src generalizing m with
  | nil => simp only [List.length_nil, Nat.le_zero] at hm; subst hm; rfl
  | cons a src ih =>
    cases m with
    | zero => rfl
    | succ m => simp [prefixeCorrect, ih m (by simpa using hm)]

/-! ## The invariant of a round -/

/-- both loops are at the same place of a prefix of the source, of length `m` -/
structure Aligne (src : Octets) (m : ℕ) (p : Envoi × Reception) : Prop where
  source : p.1.fichier = src
  annonce : p.1.nbOctets = versInt src.length ∧ p.2.nbOctets = versInt src.length
  compte : p.1.nb = p.1.pos
  ensemble : p.2.pos = p.1.pos ∧ p.2.nb = p.1.nb
  fichier : p.2.fichier = src.take m
  borne : p.1.pos ≤ m ∧ m ≤ src.length ∧ m < 2 ^ 31

theorem aligne_morceau {src : Octets} {m : ℕ} {p : Envoi × Reception} (h : Aligne src m p) :
    p.1.morceau = (src.drop p.1.pos).take maxline ∧ p.1.morceau.length = min maxline (src.length - p.1.pos) := by
  rw [Envoi.morceau, h.source]
  simp

/-- a chunk written by the client lengthens the prefix up to the sender's new offset -/
theorem aligne_recoit {src : Octets} {m : ℕ} {p : Envoi × Reception} (h : Aligne src m p) (hb : p.1.lit.nb < 2 ^ 31) :
    Aligne src (max m (p.1.pos + p.1.morceau.length)) (p.1.lit, p.2.recoit p.1.morceau) := by
  obtain ⟨hm, hlen⟩ := aligne_morceau h
  obtain ⟨hpm, hml, hm31⟩ := h.borne
  have hnb : p.1.lit.nb = p.1.pos + p.1.morceau.length := by rw [Envoi.lit, ← h.compte]
  exact {
    source := h.source
    annonce := h.annonce
    compte := by simp only [Envoi.lit, h.compte]; push_cast; rfl
    ensemble := by simp [Reception.recoit, Envoi.lit, h.ensemble.1, h.ensemble.2]
    fichier := by
      have htake : src.take (max m (p.1.pos + maxline)) = src.take (max m (p.1.pos + p.1.morceau.length)) := by
        rw [hlen]
        by_cases hc : maxline ≤ src.length - p.1.pos
        · rw [Nat.min_eq_left hc]
        · rw [List.take_of_length_le (by omega), List.take_of_length_le (by omega)]
      calc writeAt p.2.fichier p.2.pos p.1.morceau
          = writeAt (src.take m) p.1.pos ((src.drop p.1.pos).take maxline) := by rw [h.fichier, h.ensemble.1, hm]
        _ = src.take (max m (p.1.pos + maxline)) := writeAt_prefix src m p.1.pos maxline hpm hml
        _ = src.take (max m (p.1.pos + p.1.morceau.length)) := htake
    borne := by simp only [Envoi.lit]; omega }

theorem aligne_echanges {src : Octets} {k m : ℕ} {p q : Envoi × Reception} (h : Aligne src m p)
    (hk : echanges k p = some q) : ∃ m', m ≤ m' ∧ Aligne src m' q := by
  induction k generalizing m p with
  | zero => simp only [echanges, Option.some.injEq] at hk; subst hk; exact ⟨m, le_rfl, h⟩
  | succ k ih =>
    simp only [echanges, Option.bind_eq_some_iff] at hk
    obtain ⟨p', hp, hk⟩ := hk
    unfold echange at hp
    split_ifs at hp with hc
    cases hp
    obtain ⟨m', hm, ha⟩ := ih (aligne_recoit h hc.2.2) hk
    exact ⟨m', le_trans (Nat.le_max_left _ _) hm, ha⟩

/-- between two rounds the client's file is a prefix of the source that reaches the offset reported -/
def Tenu (src : Octets) (s : Etat) : Prop :=
  ∃ m, s.fichier = src.take m ∧ 0 ≤ s.offset ∧ s.offset ≤ m ∧ m ≤ src.length ∧ m < 2 ^ 31

theorem tenu_initial (src : Octets) : Tenu src Etat.initial :=
  ⟨0, rfl, le_rfl, le_rfl, Nat.zero_le _, Nat.two_pow_pos 31⟩

theorem tenu_depart {src : Octets} {s : Etat} (h : Tenu src s) : ∃ m, Aligne src m (depart src s) := by
  obtain ⟨m, hf, h0, hle, hm, hb⟩ := h
  refine ⟨m, ?_⟩
  constructor <;> simp only [depart, Envoi.debut, Reception.debut] <;> first | trivial | omega

/-- the offset counts at most what the client had before the last chunk -/
theorem tour_tenu {src : Octets} {s s' : Etat} {t : Tour} (h : Tenu src s) (ht : tour src s t = some s') :
    Tenu src s' := by
  simp only [tour, Option.bind_eq_some_iff] at ht
  obtain ⟨p, hp, hc⟩ := ht
  obtain ⟨m₀, ha₀⟩ := tenu_depart h
  obtain ⟨m, -, ha⟩ := aligne_echanges ha₀ hp
  unfold coupure at hc
  split_ifs at hc with hg
  · obtain ⟨-, -, hb, hmax, -⟩ := hg
    cases hc
    have ha' := aligne_recoit ha hb
    have hb' := ha'.borne
    have hc' := ha'.compte
    refine ⟨_, ha'.fichier, by simp only; omega, ?_, hb'.2⟩
    simp only [maxline] at *
    omega
  · obtain ⟨-, -, hb, hmax, -⟩ := hg
    cases hc
    obtain ⟨-, hlen⟩ := aligne_morceau ha
    have hb' := ha.borne
    have hnb : p.1.lit.nb = p.1.pos + p.1.morceau.length := by rw [Envoi.lit, ← ha.compte]
    refine ⟨m, ha.fichier, by simp only; omega, ?_, hb'.2⟩
    simp only
    omega

theorem tours_tenu {src : Octets} {s : Etat} {l : List Tour} (h : runM (tour src) Etat.initial l = some s) :
    Tenu src s :=
  runM_inv (fun _ _ _ h hs => tour_tenu h hs) (tenu_initial src) h

/-- every offset reported lies in the correct prefix of the client's file -/
theorem tenu_offset {src : Octets} {s : Etat} (h : Tenu src s) :
    0 ≤ s.offset ∧ s.offset ≤ prefixeCorrect src s.fichier := by
  obtain ⟨m, hf, h0, hle, hm, -⟩ := h
  rw [hf, prefixeCorrect_take src m hm]
  exact ⟨h0, hle⟩

/-! ## The last resume -/

/-- a resume that completes leaves the source's bytes up to the size announced, and fewer than 2^31 of them -/
theorem acheve_tenu {src f : Octets} {s : Etat} {k : ℕ} (h : Tenu src s) (hk : acheve src s k = some f) :
    ∃ m, f = src.take m ∧ versInt src.length ≤ m ∧ m ≤ src.length ∧ m < 2 ^ 31 := by
  simp only [acheve, Option.bind_eq_some_iff] at hk
  obtain ⟨p, hp, hc⟩ := hk
  obtain ⟨m₀, ha₀⟩ := tenu_depart h
  obtain ⟨m, -, ha⟩ := aligne_echanges ha₀ hp
  split_ifs at hc with hfin
  cases hc
  have hb := ha.borne
  have hend := hfin.1
  rw [Envoi.Encore, ha.annonce.1, ha.compte] at hend
  exact ⟨m, ha.fichier, by omega, hb.2⟩

/-- **Resuming after any number of interruptions.** Every offset reported is in the correct prefix, and the resume that
completes leaves the server's file, exactly when the size of the file fits the int that announces it. -/
theorem reprise_iff (src f : Octets) (tours : List Tour) (s : Etat) (k : ℕ)
    (hs : runM (tour src) Etat.initial tours = some s) (hk : acheve src s k = some f) :
    ((∀ l s', l <+: tours → runM (tour src) Etat.initial l = some s' →
        0 ≤ s'.offset ∧ s'.offset ≤ prefixeCorrect src s'.fichier) ∧ f = src) ↔
      src.length < 2 ^ 31 := by
  obtain ⟨m, hf, hn, hm, hb⟩ := acheve_tenu (tours_tenu hs) hk
  constructor
  · rintro ⟨-, he⟩
    have hlen := congrArg List.length (hf.symm.trans he)
    rw [List.length_take] at hlen
    omega
  · intro hlt
    rw [versInt_eq hlt] at hn
    refine ⟨fun l s' _ hl => tenu_offset (tours_tenu hl), ?_⟩
    rw [hf, List.take_of_length_le (by omega)]

/-- while a loop goes on the next chunk is not empty, and a count that fits an int stays one -/
theorem aligne_avance {src : Octets} {m : ℕ} {p : Envoi × Reception} (h : Aligne src m p)
    (hv : versInt src.length = src.length ∨ versInt src.length + maxline ≤ 2 ^ 31) (he : p.1.Encore) :
    p.2.Encore ∧ p.1.nb < p.1.lit.nb ∧ p.1.lit.nb < 2 ^ 31 := by
  have hle := versInt_le src.length
  have hlt := versInt_lt src.length
  have hc := h.compte
  obtain ⟨-, hlen⟩ := aligne_morceau h
  simp only [Envoi.Encore, h.annonce.1] at he
  simp only [Reception.Encore, h.annonce.2, h.ensemble.2, Envoi.lit, hlen]
  simp only [maxline] at *
  omega

theorem echanges_termine {src : Octets} {m : ℕ} {p : Envoi × Reception} (h : Aligne src m p)
    (hv : versInt src.length = src.length ∨ versInt src.length + maxline ≤ 2 ^ 31) :
    ∃ k q, echanges k p = some q ∧ ¬q.1.Encore ∧ ¬q.2.Encore := by
  -- the bytes still to count decrease with each chunk
  induction hd : (versInt src.length - p.1.nb).toNat using Nat.strong_induction_on generalizing m p with
  | _ d ih =>
    by_cases he : p.1.Encore
    · obtain ⟨hr, hnb, hb⟩ := aligne_avance h hv he
      have hech : echange p = some (p.1.lit, p.2.recoit p.1.morceau) := if_pos ⟨he, hr, hb⟩
      have hlt : (versInt src.length - p.1.lit.nb).toNat < d := by
        rw [Envoi.Encore, h.annonce.1] at he
        omega
      obtain ⟨k, q, hk, hq⟩ := ih _ hlt (aligne_recoit h hb) rfl
      exact ⟨k + 1, q, by rw [echanges, hech]; exact hk, hq⟩
    · refine ⟨0, p, rfl, he, ?_⟩
      rw [Reception.Encore, h.annonce.2, h.ensemble.2]
      rwa [Envoi.Encore, h.annonce.1] at he

/-- a resume that nothing interrupts completes -/
theorem reprise_termine {src : Octets} {s : Etat} (h : Tenu src s)
    (hv : versInt src.length = src.length ∨ versInt src.length + maxline ≤ 2 ^ 31) :
    ∃ k f, acheve src s k = some f := by
  obtain ⟨m, ha⟩ := tenu_depart h
  obtain ⟨k, q, hk, hq⟩ := echanges_termine ha hv
  exact ⟨k, q.2.fichier, by rw [acheve, hk]; exact if_pos hq⟩

theorem coupure_perdu {p : Envoi × Reception} (he : p.1.Encore) (hnb : p.1.lit.nb = maxline)
    (hn : p.1.nbOctets + 1 < 2 ^ 31) : coupure false p = some ⟨p.2.fichier, 0⟩ := by
  have hb : p.1.lit.nb < 2 ^ 31 := by rw [hnb]; norm_num [maxline]
  rw [coupure, if_pos ⟨he, fun h => absurd h Bool.false_ne_true, hb, hnb.ge, hn⟩, hnb]
  simp

/-- a first chunk lost is reported at offset 0 -/
theorem tour_perdu {src : Octets} (hl : maxline ≤ src.length) (hv : 0 < versInt src.length)
    (hn : versInt src.length + 1 < 2 ^ 31) :
    tour src Etat.initial ⟨0, false⟩ = some Etat.initial := by
  have he : (depart src Etat.initial).1.Encore := by
    simpa only [depart, Envoi.Encore, Envoi.debut, Etat.initial] using hv
  have hm : (depart src Etat.initial).1.morceau.length = maxline := by
    simp [depart, Envoi.morceau, Envoi.debut, Etat.initial, hl]
  have hnb : (depart src Etat.initial).1.lit.nb = maxline := by
    rw [Envoi.lit, hm]; simp [depart, Envoi.debut, Etat.initial]
  have hfin : (depart src Etat.initial).1.nbOctets + 1 < 2 ^ 31 := by simpa only [depart, Envoi.debut] using hn
  rw [tour, echanges, Option.bind_some, coupure_perdu he hnb hfin]
  rfl

/-- a file of one chunk: lost, reported, sent again -/
theorem reprise_iff_un_morceau :
    ∃ s f k, runM (tour (List.replicate maxline 0)) Etat.initial [⟨0, false⟩] = some s ∧
      acheve (List.replicate maxline 0) s k = some f ∧
      (((∀ l s', l <+: [⟨0, false⟩] → runM (tour (List.replicate maxline 0)) Etat.initial l = some s' →
          0 ≤ s'.offset ∧ s'.offset ≤ prefixeCorrect (List.replicate maxline 0) s'.fichier) ∧
          f = List.replicate maxline 0) ↔
        (List.replicate maxline (0 : UInt8)).length < 2 ^ 31) := by
  have hn : versInt (List.replicate maxline (0 : UInt8)).length = maxline := by
    rw [List.length_replicate]; exact versInt_eq (by norm_num [maxline])
  have hs : runM (tour (List.replicate maxline 0)) Etat.initial [⟨0, false⟩] = some Etat.initial := by
    simp [runM, tour_perdu (List.length_replicate (n := maxline)).ge (by rw [hn]; norm_num [maxline])
      (by rw [hn]; norm_num [maxline])]
  obtain ⟨k, f, hk⟩ := reprise_termine (tenu_initial (List.replicate maxline 0))
    (Or.inl (by rw [hn, List.length_replicate]))
  exact ⟨_, f, k, hs, hk, reprise_iff _ f _ _ k hs hk⟩

/-- a file from 2^31 bytes on whose size is announced positive: once lost and reported at 0, its resume completes too
short -/
theorem tronquee {n : ℕ} (hn : 2 ^ 31 ≤ n) (hpos : 0 < versInt n) (hv : versInt n + maxline ≤ 2 ^ 31) :
    ∃ k f, runM (tour (List.replicate n 0)) Etat.initial [⟨0, false⟩] = some Etat.initial ∧
      acheve (List.replicate n 0) Etat.initial k = some f ∧ f ≠ List.replicate n 0 := by
  have hlen : (List.replicate n (0 : UInt8)).length = n := List.length_replicate
  have hl : maxline ≤ (List.replicate n (0 : UInt8)).length := by rw [hlen]; simp only [maxline]; omega
  have hs : runM (tour (List.replicate n 0)) Etat.initial [⟨0, false⟩] = some Etat.initial := by
    have hn : versInt (List.replicate n (0 : UInt8)).length + 1 < 2 ^ 31 := by
      rw [hlen]
      simp only [maxline] at hv
      omega
    simp only [runM, tour_perdu hl (hlen.symm ▸ hpos) hn, Option.bind_some]
  obtain ⟨k, f, hk⟩ := reprise_termine (tenu_initial (List.replicate n 0)) (Or.inr (hlen.symm ▸ hv))
  refine ⟨k, f, hs, hk, ?_⟩
  intro he
  obtain ⟨m, hf, -, -, hb⟩ := acheve_tenu (tenu_initial _) hk
  have hmin := congrArg List.length (hf.symm.trans he)
  rw [List.length_take, hlen] at hmin
  omega

/-- 2^32 + 16384 bytes are announced as 16384 -/
theorem reprise_tronquee :
    ∃ k f, runM (tour (List.replicate (2 ^ 32 + 16384) 0)) Etat.initial [⟨0, false⟩] = some Etat.initial ∧
      acheve (List.replicate (2 ^ 32 + 16384) 0) Etat.initial k = some f ∧
      f ≠ List.replicate (2 ^ 32 + 16384) 0 :=
  tronquee (n := 2 ^ 32 + 16384) (by norm_num) (by decide) (by decide)

end Semestre6.Ftp.Reprise
