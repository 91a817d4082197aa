/-
One file transfer between a sender and a receiver over a byte stream. The loops are those of `envoi_fichier_au_client`
(slave, for get) and `envoi_fichier_a_esclave` (client, for put), which are the same code on different sockets, and of
the two `reception_fichier`. The sender writes a chunk of at most MAXLINE bytes and waits for one OK; the receiver
reads whatever the stream has, at most MAXLINE bytes, and answers each read with an OK.

`Transfert` runs both loops in any interleaving and for any cut of the stream into reads, nobody crashing. Once its
loop is over the sender goes on with its session and may write more on the same connection (`suite`): after a put the
client's next opcode, after a get the slave's next reply.

- `Suivi`, `suivi_step`: what holds after every schedule, in terms of the chunks, the reads and the byte stream;
- `contenu_iff`: when the destination is the source at the end of a transfer;
- `acks_iff`: when a get leaves no OK on the connection;
- `plus_long_conserve`, `ok_restant`: a longer old file keeps its end; a chunk read in two pieces leaves an OK.
-/
import Semestre6.Lib.Transition
import Semestre6.Ftp.Define

namespace Semestre6.Ftp

open Octets Transition

/-! ## The two loops -/

/-- the sender's loop: the file, its offset, `nb` and `nb_octets` -/
structure Envoi where
  fichier : Octets
  pos : ℕ
  nb : ℤ
  nbOctets : ℤ
deriving DecidableEq, Repr

namespace Envoi

/-- `lseek(file, nb, SEEK_SET)`, which fails and leaves offset 0 on a negative `nb` -/
def debut (fichier : Octets) (nb nbOctets : ℤ) : Envoi := ⟨fichier, nb.toNat, nb, nbOctets⟩

/-- the loop condition -/
def Encore (e : Envoi) : Prop := e.nb < e.nbOctets

instance (e : Envoi) : Decidable e.Encore := by unfold Encore; infer_instance

/-- what `read(file, buf, MAXLINE)` returns -/
def morceau (e : Envoi) : Octets := (e.fichier.drop e.pos).take maxline

/-- the chunk is read and counted -/
def lit (e : Envoi) : Envoi := { e with pos := e.pos + e.morceau.length, nb := e.nb + e.morceau.length }

end Envoi

/-- the receiver's loop: the file being written, its offset, `nb` and `nb_octets` -/
structure Reception where
  fichier : Octets
  pos : ℕ
  nb : ℤ
  nbOctets : ℤ
deriving DecidableEq, Repr

namespace Reception

def debut (fichier : Octets) (nb nbOctets : ℤ) : Reception := ⟨fichier, nb.toNat, nb, nbOctets⟩

def Encore (r : Reception) : Prop := r.nb < r.nbOctets

instance (r : Reception) : Decidable r.Encore := by unfold Encore; infer_instance

/-- one round: the bytes read are counted and written -/
def recoit (r : Reception) (d : Octets) : Reception :=
  { r with fichier := writeAt r.fichier r.pos d, pos := r.pos + d.length, nb := r.nb + d.length }

end Reception

/-! ## Both loops over a byte stream -/

structure Transfert where
  envoi : Envoi
  /-- the sender has written a chunk and waits for its OK -/
  attend : Bool
  /-- bytes written on the connection and not yet read -/
  flux : Octets
  recep : Reception
  /-- OKs on their way to the sender -/
  acks : ℕ
  /-- OKs that the receiver's loop has sent -/
  okEnvoyes : ℕ
  /-- OKs that the sender's loop has read -/
  okLus : ℕ
deriving DecidableEq, Repr

namespace Transfert

inductive Op where
  | morceau
  | lit (k : ℕ)
  | ack
  | suite (b : Octets)
deriving DecidableEq, Repr

/-- `nb` is an int: counting past 2^31 is undefined and refused -/
def step (t : Transfert) : Op → Option Transfert
  | .morceau =>
    if t.attend = false ∧ t.envoi.Encore ∧ t.envoi.lit.nb < 2 ^ 31 then
      some { t with envoi := t.envoi.lit, attend := true, flux := t.flux ++ t.envoi.morceau }
    else none
  | .lit k =>
    if t.recep.Encore ∧ 1 ≤ k ∧ k ≤ maxline ∧ k ≤ t.flux.length ∧ t.recep.nb + k < 2 ^ 31 then
      some { t with
        flux := t.flux.drop k
        recep := t.recep.recoit (t.flux.take k)
        acks := t.acks + 1
        okEnvoyes := t.okEnvoyes + 1 }
    else none
  | .ack =>
    if t.attend = true ∧ 0 < t.acks then some { t with attend := false, acks := t.acks - 1, okLus := t.okLus + 1 }
    else none
  | .suite b => if t.attend = false ∧ ¬t.envoi.Encore then some { t with flux := t.flux ++ b } else none

/-- `get`: the receiver's first OK is the reply to the size; `put`: the slave's own OK is, and the first OK of its
`reception_fichier` is still on its way -/
inductive Sens where
  | get
  | put
deriving DecidableEq, Repr

def Sens.avance : Sens → ℕ
  | .get => 0
  | .put => 1

/-- the transfer of `src` onto a file whose content was `vieux` (`none`: absent; it is opened with O_CREAT and without
O_TRUNC). The size is announced as an int; a size that is not positive is reported as an error and nothing starts. -/
def debut (sens : Sens) (src : Octets) (vieux : Option Octets) : Option Transfert :=
  if 0 < versInt src.length then
    some ⟨Envoi.debut src 0 (versInt src.length), false, [], Reception.debut (vieux.getD []) 0 (versInt src.length),
      sens.avance, 0, 0⟩
  else none

/-! ## What a schedule fixes: the byte stream and its cut -/

/-- the sizes of the reads -/
def lectures : List Op → List ℕ
  | [] => []
  | .lit k :: l => k :: lectures l
  | _ :: l => lectures l

/-- the number of chunks written -/
def morceaux : List Op → ℕ
  | [] => 0
  | .morceau :: l => morceaux l + 1
  | _ :: l => morceaux l

/-- what the sender's process writes after its loop -/
def suites : List Op → Octets
  | [] => []
  | .suite b :: l => b ++ suites l
  | _ :: l => suites l

/-- the byte stream: the chunks, then the rest of the session -/
def flot (src : Octets) (ops : List Op) : Octets := src.take (morceaux ops * maxline) ++ suites ops

theorem lectures_append (l l' : List Op) : lectures (l ++ l') = lectures l ++ lectures l' := by
  induction l with
  | nil => rfl
  | cons o l ih => cases o <;> simp [lectures, ih]

theorem morceaux_append (l l' : List Op) : morceaux (l ++ l') = morceaux l + morceaux l' := by
  induction l with
  | nil => simp [morceaux]
  | cons o l ih => cases o <;> simp [morceaux, ih, Nat.add_right_comm]

theorem suites_append (l l' : List Op) : suites (l ++ l') = suites l ++ suites l' := by
  induction l with
  | nil => rfl
  | cons o l ih => cases o <;> simp [suites, ih]

/-- one more chunk continues the source where the stream stopped -/
theorem morceau_eq (src : Octets) (c p : ℕ) (hp : p = min (c * maxline) src.length) :
    src.take (c * maxline) ++ (src.drop p).take maxline = src.take ((c + 1) * maxline) := by
  have hdrop : src.drop p = src.drop (c * maxline) := by
    rw [hp]
    rcases Nat.le_total (c * maxline) src.length with h | h
    · rw [Nat.min_eq_left h]
    · rw [Nat.min_eq_right h, List.drop_of_length_le le_rfl, List.drop_of_length_le h]
  rw [hdrop, Nat.succ_mul, List.take_add]

/-- what holds after every schedule `ops` of the transfer of `src` onto a file of content `vieux` -/
structure Suivi (sens : Sens) (src vieux : Octets) (ops : List Op) (t : Transfert) : Prop where
  source : t.envoi.fichier = src
  annonce : t.envoi.nbOctets = versInt src.length ∧ t.recep.nbOctets = versInt src.length
  envoye : t.envoi.pos = min (morceaux ops * maxline) src.length ∧ t.envoi.nb = t.envoi.pos
  /-- the last chunk was needed -/
  utile : morceaux ops = 0 ∨ (((morceaux ops - 1) * maxline : ℕ) : ℤ) < versInt src.length
  /-- nothing follows the chunks before the sender's loop is over -/
  apres : suites ops ≠ [] → ¬t.envoi.Encore
  lu : (lectures ops).sum ≤ (flot src ops).length
  flux : t.flux = (flot src ops).drop (lectures ops).sum
  recu : t.recep.pos = (lectures ops).sum ∧ t.recep.nb = (lectures ops).sum
  fichier : t.recep.fichier = writeAt vieux 0 ((flot src ops).take (lectures ops).sum)
  tailles : ∀ k ∈ lectures ops, 1 ≤ k ∧ k ≤ maxline
  okEnvoyes : t.okEnvoyes = (lectures ops).length
  okLus : t.okLus + (if t.attend then 1 else 0) = morceaux ops
  acks : t.acks + t.okLus = sens.avance + t.okEnvoyes

theorem suivi_debut {sens : Sens} {src : Octets} {vieux : Option Octets} {t : Transfert}
    (h : debut sens src vieux = some t) : 0 < versInt src.length ∧ Suivi sens src (vieux.getD []) [] t := by
  unfold debut at h
  split_ifs at h with hpos
  cases h
  refine ⟨hpos, ?_⟩
  constructor <;> simp [Envoi.debut, Reception.debut, lectures, morceaux, suites, flot]

section
variable {sens : Sens} {src vieux : Octets} {ops : List Op} {t t' : Transfert}

/-- a chunk is sent -/
theorem suivi_morceau (h : Suivi sens src vieux ops t) (hs : step t .morceau = some t') :
    Suivi sens src vieux (ops ++ [.morceau]) t' := by
  simp only [step] at hs
  split_ifs at hs with hc
  obtain ⟨ha, he, -⟩ := hc
  cases hs
  have hsuite : suites ops = [] := by
    by_contra hne; exact h.apres hne he
  have hm : t.envoi.morceau = (src.drop t.envoi.pos).take maxline := by rw [Envoi.morceau, h.source]
  have hflot : flot src (ops ++ [.morceau]) = flot src ops ++ t.envoi.morceau := by
    simp only [flot, morceaux_append, suites_append, hsuite, morceaux, suites, List.append_nil, hm]
    exact (morceau_eq src _ _ h.envoye.1).symm
  have hlen : t.envoi.morceau.length = min maxline (src.length - t.envoi.pos) := by rw [hm]; simp
  have hlt : t.envoi.nb < versInt src.length := by rw [← h.annonce.1]; exact he
  constructor
  · exact h.source
  · exact h.annonce
  · refine ⟨?_, ?_⟩
    · simp only [Envoi.lit, morceaux_append, morceaux, hlen, h.envoye.1, Nat.zero_add, Nat.succ_mul]
      omega
    · simp only [Envoi.lit, h.envoye.2]; push_cast; rfl
  · right
    simp only [morceaux_append, morceaux, Nat.zero_add, Nat.add_sub_cancel]
    rw [h.envoye.2, h.envoye.1] at hlt
    have := versInt_le src.length
    push_cast at hlt ⊢
    omega
  · simp [suites_append, hsuite, suites]
  · simp only [lectures_append, lectures, List.append_nil, hflot, List.length_append]
    exact Nat.le_add_right_of_le h.lu
  · simp only [lectures_append, lectures, List.append_nil, hflot, h.flux]
    rw [List.drop_append_of_le_length h.lu]
  · simpa [lectures_append, lectures] using h.recu
  · simp only [lectures_append, lectures, List.append_nil, hflot, List.take_append_of_le_length h.lu]
    exact h.fichier
  · simpa [lectures_append, lectures] using h.tailles
  · simpa [lectures_append, lectures] using h.okEnvoyes
  · have := h.okLus
    simp only [ha, Bool.false_eq_true, if_false] at this
    simp [morceaux_append, morceaux, ← this]
  · exact h.acks

/-- bytes of the stream are read -/
theorem suivi_lit {k : ℕ} (h : Suivi sens src vieux ops t) (hs : step t (.lit k) = some t') :
    Suivi sens src vieux (ops ++ [.lit k]) t' := by
  simp only [step] at hs
  split_ifs at hs with hc
  obtain ⟨-, h1, hk, hkl, -⟩ := hc
  cases hs
  have hflot : flot src (ops ++ [.lit k]) = flot src ops := by
    simp [flot, morceaux_append, suites_append, morceaux, suites]
  have hsum : (lectures (ops ++ [.lit k])).sum = (lectures ops).sum + k := by simp [lectures_append, lectures]
  have hlen : (t.flux.take k).length = k := by simp; omega
  have hlu := h.lu
  rw [h.flux, List.length_drop] at hkl
  constructor
  · exact h.source
  · exact h.annonce
  · simpa [morceaux_append, morceaux] using h.envoye
  · simpa [morceaux_append, morceaux] using h.utile
  · simpa [suites_append, suites] using h.apres
  · rw [hsum, hflot]; omega
  · rw [hsum, hflot, ← List.drop_drop, ← h.flux]
  · simp [Reception.recoit, hsum, hlen, h.recu.1, h.recu.2]
  · have hl : ((flot src ops).take (lectures ops).sum).length = (lectures ops).sum := by simp; omega
    have hpos : t.recep.pos = 0 + ((flot src ops).take (lectures ops).sum).length := by rw [hl, h.recu.1, Nat.zero_add]
    calc writeAt t.recep.fichier t.recep.pos (t.flux.take k)
        = writeAt vieux 0 ((flot src ops).take (lectures ops).sum ++ t.flux.take k) := by
          rw [h.fichier, hpos, writeAt_writeAt]
      _ = writeAt vieux 0 ((flot src ops).take ((lectures ops).sum + k)) := by rw [h.flux, List.take_add]
      _ = writeAt vieux 0 ((flot src (ops ++ [.lit k])).take (lectures (ops ++ [.lit k])).sum) := by rw [hsum, hflot]
  · intro k' hk'
    rw [lectures_append] at hk'
    rcases List.mem_append.1 hk' with hk' | hk'
    · exact h.tailles k' hk'
    · simp only [lectures, List.mem_singleton] at hk'; subst hk'; exact ⟨h1, hk⟩
  · simp [lectures_append, lectures, h.okEnvoyes]
  · simpa [morceaux_append, morceaux] using h.okLus
  · have := h.acks; simp only; omega

/-- an OK is read -/
theorem suivi_ack (h : Suivi sens src vieux ops t) (hs : step t .ack = some t') :
    Suivi sens src vieux (ops ++ [.ack]) t' := by
  simp only [step] at hs
  split_ifs at hs with hc
  obtain ⟨ha, hp⟩ := hc
  cases hs
  have hflot : flot src (ops ++ [.ack]) = flot src ops := by
    simp [flot, morceaux_append, suites_append, morceaux, suites]
  have hlec : lectures (ops ++ [.ack]) = lectures ops := by simp [lectures_append, lectures]
  have hmor : morceaux (ops ++ [.ack]) = morceaux ops := by simp [morceaux_append, morceaux]
  have hsui : suites (ops ++ [.ack]) = suites ops := by simp [suites_append, suites]
  have hok := h.okLus
  have hacks := h.acks
  simp only [ha, if_true] at hok
  exact { source := h.source, annonce := h.annonce, envoye := by rw [hmor]; exact h.envoye
          utile := by rw [hmor]; exact h.utile, apres := by rw [hsui]; exact h.apres
          lu := by rw [hlec, hflot]; exact h.lu, flux := by rw [hlec, hflot]; exact h.flux
          recu := by rw [hlec]; exact h.recu, fichier := by rw [hlec, hflot]; exact h.fichier
          tailles := by rw [hlec]; exact h.tailles, okEnvoyes := by rw [hlec]; exact h.okEnvoyes
          okLus := by simp [hmor, ← hok], acks := by simp only; omega }

/-- the sender goes on with its session -/
theorem suivi_suite {b : Octets} (h : Suivi sens src vieux ops t) (hs : step t (.suite b) = some t') :
    Suivi sens src vieux (ops ++ [.suite b]) t' := by
  simp only [step] at hs
  split_ifs at hs with hc
  obtain ⟨ha, hn⟩ := hc
  cases hs
  have hflot : flot src (ops ++ [.suite b]) = flot src ops ++ b := by
    simp [flot, morceaux_append, suites_append, morceaux, suites]
  have hlec : lectures (ops ++ [.suite b]) = lectures ops := by simp [lectures_append, lectures]
  have hmor : morceaux (ops ++ [.suite b]) = morceaux ops := by simp [morceaux_append, morceaux]
  have hlu := h.lu
  exact { source := h.source, annonce := h.annonce, envoye := by rw [hmor]; exact h.envoye
          utile := by rw [hmor]; exact h.utile, apres := fun _ => hn
          lu := by rw [hlec, hflot, List.length_append]; omega
          flux := by rw [hlec, hflot, List.drop_append_of_le_length hlu, ← h.flux]
          recu := by rw [hlec]; exact h.recu
          fichier := by rw [hlec, hflot, List.take_append_of_le_length hlu]; exact h.fichier
          tailles := by rw [hlec]; exact h.tailles, okEnvoyes := by rw [hlec]; exact h.okEnvoyes
          okLus := by rw [hmor]; exact h.okLus, acks := h.acks }

theorem suivi_step {o : Op} (h : Suivi sens src vieux ops t) (hs : step t o = some t') :
    Suivi sens src vieux (ops ++ [o]) t' := by
  match o with
  | .morceau => exact suivi_morceau h hs
  | .lit k => exact suivi_lit h hs
  | .ack => exact suivi_ack h hs
  | .suite b => exact suivi_suite h hs

end

theorem suivi_run {sens : Sens} {src : Octets} {vieux : Option Octets} {t₀ t : Transfert} {ops : List Op}
    (h₀ : debut sens src vieux = some t₀) (h : runM step t₀ ops = some t) :
    0 < versInt src.length ∧ Suivi sens src (vieux.getD []) ops t := by
  obtain ⟨hpos, hs⟩ := suivi_debut h₀
  exact ⟨hpos, by simpa using runM_hist (fun _ _ _ _ h hs => suivi_step h hs) hs h⟩

/-! ## The content of the destination -/

/-- the bytes read replace the start of the old content -/
theorem fichier_eq_iff {sens : Sens} {src vieux : Octets} {ops : List Op} {t : Transfert}
    (h : Suivi sens src vieux ops t) :
    t.recep.fichier = src ↔
      (flot src ops).take (lectures ops).sum = src.take (lectures ops).sum ∧
        vieux.drop (lectures ops).sum = src.drop (lectures ops).sum := by
  have hl : ((flot src ops).take (lectures ops).sum).length = (lectures ops).sum := by
    have := h.lu; simp; omega
  rw [h.fichier, writeAt_zero, hl]
  constructor
  · intro he
    have ht := congrArg (List.take (lectures ops).sum) he
    have hd := congrArg (List.drop (lectures ops).sum) he
    rw [List.take_left' hl] at ht
    rw [List.drop_left' hl] at hd
    exact ⟨ht, hd⟩
  · rintro ⟨ht, hd⟩
    rw [ht, hd, List.take_append_drop]

/-- once the announced size is the real one and has been read, the stream starts with the whole source -/
theorem flot_prefixe {sens : Sens} {src vieux : Octets} {ops : List Op} {t : Transfert}
    (h : Suivi sens src vieux ops t) (hsrc : versInt src.length = src.length)
    (hR : src.length ≤ (lectures ops).sum) : src <+: flot src ops := by
  by_cases hm : src.length ≤ morceaux ops * maxline
  · rw [flot, List.take_of_length_le hm]
    exact List.prefix_append _ _
  · have hsuite : suites ops = [] := by
      by_contra hne
      apply h.apres hne
      rw [Envoi.Encore, h.annonce.1, h.envoye.2, h.envoye.1, hsrc]
      omega
    have hlu := h.lu
    rw [flot, hsuite, List.append_nil, List.length_take] at hlu
    omega

/-- **Content of a finished transfer.** Below 2^31 bytes the destination is the source exactly when the old content was
not longer (nothing truncates it) and the receiver read no byte past the file; from 2^31 bytes on the announced size is
wrong, and the destination is right only where the old content already was. -/
theorem contenu_iff (sens : Sens) (src : Octets) (vieux : Option Octets) (ops : List Op) (t₀ t : Transfert)
    (h₀ : debut sens src vieux = some t₀) (h : runM step t₀ ops = some t) (hf : ¬t.recep.Encore) :
    (src.length < 2 ^ 31 →
      (t.recep.fichier = src ↔ (vieux.getD []).length ≤ src.length ∧ (lectures ops).sum = src.length)) ∧
    (2 ^ 31 ≤ src.length →
      (t.recep.fichier = src ↔
        (flot src ops).take (lectures ops).sum = src.take (lectures ops).sum ∧
          (vieux.getD []).drop (lectures ops).sum = src.drop (lectures ops).sum)) := by
  obtain ⟨-, hs⟩ := suivi_run h₀ h
  refine ⟨?_, fun _ => fichier_eq_iff hs⟩
  intro hlt
  have hsrc := versInt_eq hlt
  have hR : src.length ≤ (lectures ops).sum := by
    rw [Reception.Encore, hs.annonce.2, hs.recu.2, hsrc] at hf
    omega
  rw [fichier_eq_iff hs, List.drop_of_length_le hR, List.drop_eq_nil_iff, List.take_of_length_le hR]
  constructor
  · rintro ⟨ht, hd⟩
    have hlu := hs.lu
    have hlen := congrArg List.length ht
    rw [List.length_take] at hlen
    omega
  · rintro ⟨hv, he⟩
    refine ⟨?_, by omega⟩
    rw [he]
    exact (List.prefix_iff_eq_take.1 (flot_prefixe hs hsrc hR)).symm

/-- a get of one byte onto an absent file -/
theorem contenu_iff_un_octet :
    ∃ t₀ t, debut .get [1] none = some t₀ ∧ runM step t₀ [.morceau, .lit 1, .ack] = some t ∧
      (t.recep.fichier = [1] ↔ ([] : Octets).length ≤ 1 ∧ (lectures [.morceau, .lit 1, .ack]).sum = 1) :=
  ⟨_, _, rfl, rfl, (contenu_iff .get [1] none [.morceau, .lit 1, .ack] _ _ rfl rfl (by decide)).1 (by decide)⟩

/-- a file of one byte received over a file of two keeps the second -/
theorem plus_long_conserve :
    ∃ t₀ t, debut .get [1] (some [7, 7]) = some t₀ ∧ runM step t₀ [.morceau, .lit 1, .ack] = some t ∧
      ¬t.recep.Encore ∧ t.recep.fichier = [1, 7] :=
  ⟨_, _, rfl, rfl, by decide, by decide⟩

/-! ## The acknowledgements -/

/-- the number of chunks once the sender's loop is over -/
theorem morceaux_fini {sens : Sens} {src vieux : Octets} {ops : List Op} {t : Transfert} (hpos : 0 < versInt src.length)
    (h : Suivi sens src vieux ops t) (hf : ¬t.envoi.Encore) :
    morceaux ops = ((versInt src.length).toNat + maxline - 1) / maxline := by
  have hle := versInt_le src.length
  have hu := h.utile
  rw [Envoi.Encore, h.annonce.1, h.envoye.2, h.envoye.1] at hf
  simp only [maxline] at *
  push_cast at *
  omega

/-- **One OK a read, one a chunk.** When the slave's loop of a get is over, no OK is left exactly when the client has made
as many reads as the slave sent chunks. -/
theorem acks_iff (src : Octets) (vieux : Option Octets) (ops : List Op) (t₀ t : Transfert)
    (h₀ : debut .get src vieux = some t₀) (h : runM step t₀ ops = some t) (ha : t.attend = false)
    (he : ¬t.envoi.Encore) :
    (t.okEnvoyes = t.okLus ∧ t.acks = 0) ↔
      (lectures ops).length = ((versInt src.length).toNat + maxline - 1) / maxline := by
  obtain ⟨hpos, hs⟩ := suivi_run h₀ h
  have hm := morceaux_fini hpos hs he
  have hok := hs.okLus
  have hacks := hs.acks
  simp only [ha, Bool.false_eq_true, if_false, Nat.add_zero] at hok
  rw [hs.okEnvoyes, hok, ← hm]
  rw [hs.okEnvoyes, hok] at hacks
  simp only [Sens.avance] at hacks
  omega

/-- a get of one byte, in one read -/
theorem acks_iff_un_octet :
    ∃ t₀ t, debut .get [1] none = some t₀ ∧ runM step t₀ [.morceau, .lit 1, .ack] = some t ∧
      ((t.okEnvoyes = t.okLus ∧ t.acks = 0) ↔
        (lectures [.morceau, .lit 1, .ack]).length = ((versInt 1).toNat + maxline - 1) / maxline) :=
  ⟨_, _, rfl, rfl, acks_iff [1] none [.morceau, .lit 1, .ack] _ _ rfl rfl rfl (by decide)⟩

/-- two bytes sent as one chunk and read one by one leave an OK, which the slave's loop takes for a GET -/
theorem ok_restant :
    ∃ t₀ t, debut .get [1, 2] none = some t₀ ∧ runM step t₀ [.morceau, .lit 1, .lit 1, .ack] = some t ∧
      t.attend = false ∧ ¬t.envoi.Encore ∧ ¬t.recep.Encore ∧ t.okEnvoyes = t.okLus + 1 ∧ t.acks = 1 ∧
      Code.ok = Code.get :=
  ⟨_, _, rfl, rfl, rfl, by decide, by decide, rfl, rfl, rfl⟩

end Transfert

end Semestre6.Ftp
