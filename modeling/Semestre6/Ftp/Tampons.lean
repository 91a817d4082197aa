/-
The buffers that the three programs fill by hand (slave.c, master.c, client.c, stock_ip.c): a terminator stored at the
count that read returns, or one further, and the listing built with strcat.

- `Evenement.ecritures`: the stores that the handling of a message makes, in order;
- `ecritures_dedans_iff`: along any sequence of messages, all are inside their buffers exactly when each read leaves
  room for its terminator and each listing fits;
- `argument_refuse_iff`, `nomFichier_refuse_iff`, `listable_iff`, `nomCrash_refuse_iff`, `rapportIp_refuse_iff`,
  `rapportNom_refuse_iff`: the slave, the client and the master refuse exactly what stores outside (the master also
  refuses a string without its zero).
Witness that the condition is needed: `adresse_entiere`, the 16 bytes of an address, that a slave always sends.
-/
import Semestre6.Lib.Tampon
import Semestre6.Ftp.Client
import Semestre6.Ftp.Maitre
import Semestre6.Ftp.Esclave

namespace Semestre6.Ftp.Tampons

open Octets Tampon

def maxFilename : ℕ := 8192

inductive Buf where
  -- the slave
  | list
  | path
  | filename
  -- the client
  | filenameClient
  -- the master, and a record of its list
  | ipClientCrashed
  | filenameClientCrashed
  | nodeIp
  | nodeFilename
deriving DecidableEq, Repr

def Buf.taille : Buf → ℕ
  | .list | .path | .filename | .filenameClient | .filenameClientCrashed => maxline
  | .nodeFilename => maxFilename
  | .ipClientCrashed | .nodeIp => inetAddrstrlen

/-- what `read(fd, buf, taille)` gives: nothing when it returns -1 -/
structure Lecture (taille : ℕ) where
  octets : Option Octets
  borne : ∀ b ∈ octets, b.length ≤ taille

variable {k : ℕ}

/-- what read returns -/
def Lecture.n (r : Lecture k) : ℤ := r.octets.elim (-1) fun b => (b.length : ℤ)

/-- the bytes in the buffer -/
def Lecture.lus (r : Lecture k) : Octets := r.octets.getD []

/-- the memory from the start of a buffer on: what it held, and what follows it -/
structure Memoire (taille : ℕ) where
  octets : Octets
  borne : taille ≤ octets.length

/-- `n = read(fd, buf, taille); buf[n + d] = 0` -/
def litTermine (t : Buf) (r : Lecture k) (d : ℤ) : List (Ecriture Buf) :=
  suite t 0 r.lus.length ++ [⟨t, r.n + d⟩]

/-! ## The slave -/

/-- the loop on readdir, with what `list` holds so far -/
def boucleLs : List Octets → Octets → List (Ecriture Buf)
  | [], _ => []
  | d_name :: l, list =>
    if d_name ≠ octets "." ∧ d_name ≠ octets ".." then
      strcat .list list d_name ++ strcat .list (list ++ d_name) [(10 : UInt8)] ++ boucleLs l (list ++ d_name ++ [10])
    else boucleLs l list

/-- LS; readdir of a failed opendir ends the process -/
def ls (rep : Option (List Octets)) : List (Ecriture Buf) :=
  strcpy .list ([] : Octets) ++ rep.elim [] fun l => boucleLs l []

/-- MKDIR, RM, RMR and CD -/
def argument (r : Option (Lecture maxline)) : List (Ecriture Buf) := r.elim [] fun r => litTermine .path r 0

/-- the name of PUT and of GET -/
def nomFichier (r : Option (Lecture maxline)) : List (Ecriture Buf) := r.elim [] fun r => litTermine .filename r 0

/-- the name is read without a terminator -/
def receptionInfoCrashFromMaster (r : Option (Lecture maxline)) : List (Ecriture Buf) :=
  r.elim [] fun r => suite .filename 0 r.lus.length

/-! ## The master -/

/-- the string that the buffer holds after `buf[n + 1] = 0` -/
def chaineTerminee (m : Memoire k) (r : Lecture k) : Octets :=
  cstr ((readInto m.octets r.lus).set (r.n + 1).toNat 0)

/-- `add`: both strings are copied in the record -/
def add (val_ip file : Octets) : List (Ecriture Buf) := strcpy .nodeIp val_ip ++ strcpy .nodeFilename file

/-- the three waits of a report, `none` when the slave is silent; `nb` tells whether the second is answered -/
structure Rapport where
  ip : Option (Lecture inetAddrstrlen)
  nb : Bool
  nom : Option (Lecture maxline)
  memoireIp : Memoire inetAddrstrlen
  memoireNom : Memoire maxline

def registerCrashTransfert (c : Rapport) : List (Ecriture Buf) :=
  match c.ip with
  | none => []
  | some ip =>
    litTermine .ipClientCrashed ip 1 ++
      if c.nb then
        match c.nom with
        | none => []
        | some nom =>
          litTermine .filenameClientCrashed nom 1 ++
            add (chaineTerminee c.memoireIp ip) (chaineTerminee c.memoireNom nom)
      else []

/-! ## The client -/

def receptionDonneesCrash (r : Option (Lecture maxline)) : List (Ecriture Buf) :=
  r.elim [] fun r => litTermine .filenameClient r 1

/-! ## Any sequence of messages -/

inductive Evenement where
  | ls (rep : Option (List Octets))
  | argument (r : Option (Lecture maxline))
  | nomFichier (r : Option (Lecture maxline))
  | crashEsclave (r : Option (Lecture maxline))
  | crashMaitre (c : Rapport)
  | crashClient (r : Option (Lecture maxline))

def Evenement.ecritures : Evenement → List (Ecriture Buf)
  | .ls rep => Tampons.ls rep
  | .argument r => Tampons.argument r
  | .nomFichier r => Tampons.nomFichier r
  | .crashEsclave r => receptionInfoCrashFromMaster r
  | .crashMaitre c => registerCrashTransfert c
  | .crashClient r => receptionDonneesCrash r

/-- both reads of a report leave room for a terminator at `n + 1` -/
def Rapport.Tient (c : Rapport) : Prop :=
  ∀ ip ∈ c.ip, ip.n + 1 < inetAddrstrlen ∧ (c.nb = true → ∀ nom ∈ c.nom, nom.n + 1 < maxline)

/-- each read leaves room for its terminator, and the listing fits with its own -/
def Evenement.Tient : Evenement → Prop
  | .ls rep => ∀ l ∈ rep, (Esclave.listing l).length < maxline
  | .argument o | .nomFichier o => ∀ r ∈ o, 0 ≤ r.n ∧ r.n < maxline
  | .crashEsclave _ => True
  | .crashMaitre c => c.Tient
  | .crashClient o => ∀ r ∈ o, r.n + 1 < maxline

/-! ## When the stores are inside -/

theorem Lecture.n_ge (r : Lecture k) : -1 ≤ r.n := by
  unfold Lecture.n
  match r.octets with
  | none => exact le_rfl
  | some b =>
    rw [Option.elim_some]
    omega

theorem Lecture.length_lus (r : Lecture k) : r.lus.length ≤ k := by
  unfold Lecture.lus
  match h : r.octets with
  | none => exact Nat.zero_le k
  | some b => exact r.borne b h

theorem litTermine_iff {t : Buf} {r : Lecture k} {d : ℤ} (hk : k ≤ t.taille) :
    Surs Buf.taille (litTermine t r d) ↔ 0 ≤ r.n + d ∧ r.n + d < t.taille := by
  have hlus := r.length_lus
  rw [litTermine, surs_append, surs_singleton, suite_dedans_iff]
  exact and_iff_right (.inr (by omega))

/-- a terminator stored at the count is before the buffer when the read fails -/
theorem litTermine_zero_iff {t : Buf} {r : Lecture k} (hk : k ≤ t.taille) :
    Surs Buf.taille (litTermine t r 0) ↔ 0 ≤ r.n ∧ r.n < t.taille := by
  rw [litTermine_iff hk, Int.add_zero]

/-- a terminator one place further is never stored before the buffer -/
theorem litTermine_un_iff {t : Buf} {r : Lecture k} (hk : k ≤ t.taille) :
    Surs Buf.taille (litTermine t r 1) ↔ r.n + 1 < t.taille := by
  have hn := r.n_ge
  rw [litTermine_iff hk]
  exact and_iff_right (by omega)

/-- the loop on readdir concatenates the names but `.` and `..`, and a newline after each -/
theorem boucleLs_eq (l : List Octets) (list : Octets) :
    boucleLs l list = strcats .list list
      ((l.filter fun n => n ≠ octets "." ∧ n ≠ octets "..").flatMap fun n => [n, [10]]) := by
  induction l generalizing list with
  | nil => rfl
  | cons n l ih =>
    unfold boucleLs
    split_ifs with hn
    · rw [List.filter_cons_of_pos (by simpa using hn), List.flatMap_cons, ih]
      simp [strcats, List.append_assoc]
    · rw [List.filter_cons_of_neg (by simpa using hn), ih]

theorem flatten_lignes (l : List Octets) : (l.flatMap fun n => [n, [10]]).flatten = l.flatMap (· ++ [10]) := by
  induction l with
  | nil => rfl
  | cons n l ih =>
    calc ([n, [10]] ++ l.flatMap fun n => [n, [10]]).flatten
        = n ++ [10] ++ (l.flatMap fun n => [n, [10]]).flatten := by simp
      _ = (n :: l).flatMap (· ++ [10]) := by rw [ih, List.flatMap_cons]

theorem ls_iff (rep : Option (List Octets)) :
    Surs Buf.taille (ls rep) ↔ ∀ l ∈ rep, (Esclave.listing l).length < maxline := by
  have hvide : Surs Buf.taille (strcpy .list ([] : Octets)) := strcpy_dedans_iff.2 (by decide)
  rw [ls, surs_append]
  match rep with
  | none => exact ⟨fun _ => nofun, fun _ => ⟨hvide, surs_nil⟩⟩
  | some l =>
    have hlt : ([] : Octets).length < Buf.list.taille := by decide
    rw [Option.elim_some, boucleLs_eq, strcats_dedans_iff hlt, flatten_lignes, List.nil_append]
    apply Iff.intro
    · intro h l' hl'
      rw [← Option.some.inj hl']
      exact h.2
    · intro h
      exact ⟨hvide, h l rfl⟩

theorem chaineTerminee_le {m : Memoire k} {r : Lecture k} : ((chaineTerminee m r).length : ℤ) ≤ r.n + 1 := by
  have hn := r.n_ge
  have hlen := length_cstr_set_le (readInto m.octets r.lus) (r.n + 1).toNat
  unfold chaineTerminee
  omega

/-- `add` copies into arrays of the sizes of the ones it copies from, and the terminators bound the strings -/
theorem add_surs {mi : Memoire inetAddrstrlen} {mn : Memoire maxline} {ip : Lecture inetAddrstrlen}
    {nom : Lecture maxline} (hip : ip.n + 1 < inetAddrstrlen) (hnom : nom.n + 1 < maxline) :
    Surs Buf.taille (add (chaineTerminee mi ip) (chaineTerminee mn nom)) := by
  have hi : ((chaineTerminee mi ip).length : ℤ) < inetAddrstrlen := lt_of_le_of_lt chaineTerminee_le hip
  have hm : ((chaineTerminee mn nom).length : ℤ) < maxline := lt_of_le_of_lt chaineTerminee_le hnom
  rw [add, surs_append, strcpy_dedans_iff, strcpy_dedans_iff]
  exact ⟨by exact_mod_cast hi, by exact_mod_cast hm⟩

theorem registerCrashTransfert_iff (c : Rapport) :
    Surs Buf.taille (registerCrashTransfert c) ↔ c.Tient := by
  have hip : ∀ ip : Lecture inetAddrstrlen,
      Surs Buf.taille (litTermine .ipClientCrashed ip 1) ↔ ip.n + 1 < inetAddrstrlen :=
    fun ip => litTermine_un_iff (t := .ipClientCrashed) le_rfl
  have hnom : ∀ nom : Lecture maxline,
      Surs Buf.taille (litTermine .filenameClientCrashed nom 1) ↔ nom.n + 1 < maxline :=
    fun nom => litTermine_un_iff (t := .filenameClientCrashed) le_rfl
  unfold registerCrashTransfert Rapport.Tient
  rcases c.ip with _ | ip
  · simp
  · simp only [surs_append, hip, Option.mem_some_iff, forall_eq']
    apply and_congr_right
    intro hlt
    by_cases hnb : c.nb = true
    · rw [if_pos hnb]
      rcases c.nom with _ | nom
      · simp
      · simp only [surs_append, hnom, Option.mem_some_iff, forall_eq', hnb, forall_true_left]
        exact and_iff_left_of_imp fun hlt' => add_surs hlt hlt'
    · rw [if_neg hnb]
      exact ⟨fun _ h => absurd h hnb, fun _ => surs_nil⟩

/-- a read that may not come -/
theorem attente_iff {o : Option (Lecture k)} {f : Lecture k → List (Ecriture Buf)} {P : Lecture k → Prop}
    (h : ∀ r, Surs Buf.taille (f r) ↔ P r) : Surs Buf.taille (o.elim [] f) ↔ ∀ r ∈ o, P r := by
  match o with
  | none => exact ⟨fun _ => nofun, fun _ => surs_nil⟩
  | some r => simpa using h r

/-- **One message.** -/
theorem evenement_iff (e : Evenement) : Surs Buf.taille e.ecritures ↔ e.Tient := by
  match e with
  | .ls rep => exact ls_iff rep
  | .argument o => exact attente_iff fun r => litTermine_zero_iff (t := .path) le_rfl
  | .nomFichier o => exact attente_iff fun r => litTermine_zero_iff (t := .filename) le_rfl
  | .crashEsclave o =>
    have hsurs : ∀ r : Lecture maxline, Surs Buf.taille (suite .filename 0 r.lus.length) ↔ True := fun r =>
      iff_true_intro (suite_dedans_iff.2 (.inr ((Nat.zero_add _).trans_le r.length_lus)))
    exact (attente_iff hsurs).trans ⟨fun _ => trivial, fun _ _ _ => trivial⟩
  | .crashMaitre c => exact registerCrashTransfert_iff c
  | .crashClient o => exact attente_iff fun r => litTermine_un_iff (t := .filenameClient) le_rfl

/-- **The stores.** Along any sequence of messages, every store is inside its buffer exactly when every read leaves
room for its terminator and every listing fits. -/
theorem ecritures_dedans_iff (l : List Evenement) :
    (∀ w ∈ l.flatMap Evenement.ecritures, Dedans Buf.taille w) ↔ ∀ e ∈ l, e.Tient := by
  calc (∀ w ∈ l.flatMap Evenement.ecritures, Dedans Buf.taille w)
      ↔ ∀ e ∈ l, Surs Buf.taille e.ecritures := by simp [Surs, List.mem_flatMap]; tauto
    _ ↔ ∀ e ∈ l, e.Tient := forall₂_congr fun e _ => evenement_iff e

/-- the address as the slave writes it, INET_ADDRSTRLEN bytes, padded with zeros -/
def adresse : Lecture inetAddrstrlen := ⟨some (octets "10.0.0.7" ++ List.replicate 8 0), by decide⟩

def rapportEntier : Rapport :=
  ⟨some adresse, false, none, ⟨List.replicate inetAddrstrlen 0, by simp⟩, ⟨List.replicate maxline 0, by simp⟩⟩

/-- **A whole address** is read: its terminator is stored at index 17 of 16. -/
theorem adresse_entiere :
    ¬∀ l : List Evenement, ∀ w ∈ l.flatMap Evenement.ecritures, Dedans Buf.taille w := by
  intro h
  have hmem : (⟨.ipClientCrashed, 17⟩ : Ecriture Buf) ∈ (Evenement.crashMaitre rapportEntier).ecritures := by decide
  have hdedans := h [.crashMaitre rapportEntier] ⟨.ipClientCrashed, 17⟩
    (List.mem_flatMap.2 ⟨_, List.mem_singleton_self _, hmem⟩)
  exact absurd hdedans (by decide)

/-! ## The processes refuse what is stored outside -/

/-- a read that gives `b` -/
def Lecture.de (b : Octets) (hb : b.length ≤ k) : Lecture k := ⟨some b, fun _ h => (Option.some.inj h) ▸ hb⟩

variable {d : Disque} {b : Octets}

theorem argument_iff (hb : b.length ≤ maxline) :
    Surs Buf.taille (argument (some (.de b hb))) ↔ b.length < maxline := by
  calc Surs Buf.taille (argument (some (.de b hb)))
      ↔ 0 ≤ (b.length : ℤ) ∧ (b.length : ℤ) < maxline := litTermine_zero_iff (t := .path) le_rfl
    _ ↔ b.length < maxline := by omega

theorem nomFichier_iff (hb : b.length ≤ maxline) :
    Surs Buf.taille (nomFichier (some (.de b hb))) ↔ b.length < maxline := by
  calc Surs Buf.taille (nomFichier (some (.de b hb)))
      ↔ 0 ≤ (b.length : ℤ) ∧ (b.length : ℤ) < maxline := litTermine_zero_iff (t := .filename) le_rfl
    _ ↔ b.length < maxline := by omega

/-- a terminator one place behind the bytes -/
theorem litTermine_de_iff {t : Buf} (hk : k ≤ t.taille) (hb : b.length ≤ k) :
    Surs Buf.taille (litTermine t (.de b hb) 1) ↔ b.length + 1 < t.taille := by
  calc Surs Buf.taille (litTermine t (.de b hb) 1)
      ↔ (b.length : ℤ) + 1 < t.taille := litTermine_un_iff hk
    _ ↔ b.length + 1 < t.taille := by omega

theorem receptionDonneesCrash_iff (hb : b.length ≤ maxline) :
    Surs Buf.taille (receptionDonneesCrash (some (.de b hb))) ↔ b.length + 1 < maxline :=
  litTermine_de_iff (t := .filenameClient) le_rfl hb

/-- a step that goes on exactly under a test -/
theorem isSome_ite {α : Type*} {c : Prop} [Decidable c] {x : Option α} (hx : x.isSome = true) :
    (if c then x else none).isSome = true ↔ c := by
  split_ifs with h
  · exact iff_of_true hx h
  · exact iff_of_false Bool.false_ne_true h

/-- the slave, on the argument of mkdir, rm, rm -r or cd -/
theorem argument_refuse_iff {s : Esclave.Etat} {cmd : ℤ} (hpc : s.pc = .nom cmd) (hb : b.length ≤ maxline) :
    (Esclave.step d s (some (.octets b))).isSome = true ↔ Surs Buf.taille (argument (some (.de b hb))) := by
  rw [argument_iff]
  simp only [Esclave.step, hpc]
  exact isSome_ite rfl

/-- the slave, on the name of a put or of a get -/
theorem nomFichier_refuse_iff {s : Esclave.Etat} (hpc : s.pc = .nomPut ∨ s.pc = .nomGet) (hb : b.length ≤ maxline) :
    (Esclave.step d s (some (.octets b))).isSome = true ↔ Surs Buf.taille (nomFichier (some (.de b hb))) := by
  rw [nomFichier_iff]
  rcases hpc with hpc | hpc
  · have hput : ∀ s, (Esclave.ouvrePut d s).isSome = true := by
      intro s
      unfold Esclave.ouvrePut
      split <;> rfl
    simp only [Esclave.step, hpc]
    exact isSome_ite (hput _)
  · have hget : ∀ s, (Esclave.ouvreGet d s).isSome = true := by
      intro s
      unfold Esclave.ouvreGet
      split
      · split_ifs <;> rfl
      · rfl
    simp only [Esclave.step, hpc]
    exact isSome_ite (hget _)

/-- the client, on the name of a recovery -/
theorem nomCrash_refuse_iff {s : Client.Etat} (hpc : s.pc = .nomCrash) (hb : b.length ≤ maxline) :
    (Client.step d s (.recu (.octets b))).isSome = true ↔
      Surs Buf.taille (receptionDonneesCrash (some (.de b hb))) := by
  rw [receptionDonneesCrash_iff]
  simp only [Client.step, hpc]
  exact isSome_ite rfl

/-- the master, on the address of a report -/
theorem rapportIp_refuse_iff {N : ℕ} {s : Maitre.Etat N} {i : Fin N} {ub : List StockIp.Fiche} (hpc : s.pc = .regIp i)
    (hb : b.length ≤ inetAddrstrlen) (hnul : 0 ∈ b) :
    (Maitre.step ub s (.recu i (.octets b))).isSome = true ↔
      Surs Buf.taille (litTermine .ipClientCrashed (.de b hb) 1) := by
  have htient : (i = i ∧ Maitre.Tient inetAddrstrlen b) ↔ b.length + 1 < inetAddrstrlen := by
    simp [Maitre.Tient, hnul]
  have hecrit : Surs Buf.taille (litTermine .ipClientCrashed (.de b hb) 1) ↔ b.length + 1 < inetAddrstrlen :=
    litTermine_de_iff (t := .ipClientCrashed) le_rfl hb
  rw [hecrit, ← htient]
  simp only [Maitre.step, hpc]
  exact isSome_ite rfl

/-- the master, on the name of a report, which it then copies with the address in a record -/
theorem rapportNom_refuse_iff {N : ℕ} {s : Maitre.Etat N} {i : Fin N} {ip : Octets} {nb : ℤ} {ub : List StockIp.Fiche}
    (hpc : s.pc = .regNom i ip nb) (hb : b.length ≤ maxline) (hnul : 0 ∈ b) :
    (Maitre.step ub s (.recu i (.octets b))).isSome = true ↔
      Surs Buf.taille (litTermine .filenameClientCrashed (.de b hb) 1) := by
  have htient : (i = i ∧ Maitre.Tient maxline b) ↔ b.length + 1 < maxline := by simp [Maitre.Tient, hnul]
  have hecrit : Surs Buf.taille (litTermine .filenameClientCrashed (.de b hb) 1) ↔ b.length + 1 < maxline :=
    litTermine_de_iff (t := .filenameClientCrashed) le_rfl hb
  rw [hecrit, ← htient]
  simp only [Maitre.step, hpc]
  exact isSome_ite rfl

/-- the slave, on the listing of its directory -/
theorem listable_iff (d : Disque) :
    (Esclave.listable d).isSome = true ↔ d.liste.isSome = true ∧ Surs Buf.taille (ls d.liste) := by
  rw [ls_iff, Esclave.listable]
  match d.liste with
  | none => simp
  | some l =>
    rw [Option.bind_some, isSome_ite rfl]
    simp

end Semestre6.Ftp.Tampons
