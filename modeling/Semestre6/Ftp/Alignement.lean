/-
The master and any number of slaves that keep to the exchange it expects of them. Per session such a slave sends an OK
after the address, one after DEFAULT or CLIENT_CRASHED, in a recovery one after the name, and then one end message:
SLAVE_FINISHED, CLIENT_CRASHED, or CLIENT_CRASHED_DURING_TRANSFERT followed by its address, an offset and a name, each
after an OK of the master. Every reply arrives in time. Arrivals and messages are interleaved freely.

Each message of a slave carries a mark, its session and what it is, that the master does not see. Of a run of bytes the
master may read less than the slave has passed to `write`.

- `Accord`: what the master, one slave and the two channels between them can be together;
- `accord_step`: every step keeps it, for every slave;
- `attendu_step`: a message that the master or a slave can read is one that it expects, and it is only refused when a
  terminator falls outside its array;
- `alignement_iff`: in a run, an address is written to a slave only when the end of its last session has been read, the
  int read next from it is the first OK of the new session, an end message frees its sender and nobody else, and each
  report adds one record, that of its sender, exactly when every read of a report leaves room for its terminator.
Witness that the condition is needed: `adresse_lue_entiere`, the 16 bytes of an address.
-/
import Semestre6.Lib.Transition
import Semestre6.Ftp.Maitre

namespace Semestre6.Ftp.Alignement

open Octets Transition StockIp Maitre

/-! ## A slave that keeps to the exchange -/

inductive Attente where
  | adresse
  | reponse
  | nom
  | offset
  /-- the session with the client -/
  | session
  | okRapport
  | okIp
  | okNb
deriving DecidableEq, Repr

structure Esclave where
  attente : Attente
  /-- the number of the session -/
  session : ℕ
  adresse : Octets
  /-- the offset and the name of its last report -/
  nb : ℤ
  fichier : Octets
deriving DecidableEq, Repr

inductive Sorte where
  | okAdresse
  | okReponse
  | okNom
  | fin
  | rapIp
  | rapNb
  | rapNom
deriving DecidableEq, Repr

structure Marque where
  session : ℕ
  sorte : Sorte
  msg : Msg
deriving DecidableEq, Repr

/-- the slave reads a message of the master -/
def Esclave.lit (e : Esclave) : Msg → Option (Esclave × List Marque)
  | .octets b =>
    match e.attente with
    | .adresse =>
      some ({ e with attente := .reponse, session := e.session + 1, adresse := b },
        [⟨e.session + 1, .okAdresse, .ent Code.ok⟩])
    | .nom => some ({ e with attente := .offset }, [⟨e.session, .okNom, .ent Code.ok⟩])
    | _ => none
  | .ent v =>
    match e.attente with
    | .reponse =>
      if v = Code.default then some ({ e with attente := .session }, [⟨e.session, .okReponse, .ent Code.ok⟩])
      else if v = Code.clientCrashed then some ({ e with attente := .nom }, [⟨e.session, .okReponse, .ent Code.ok⟩])
      else none
    | .offset => some ({ e with attente := .session }, [])
    | .okRapport =>
      if v = Code.ok then some ({ e with attente := .okIp }, [⟨e.session, .rapIp, .octets e.adresse⟩]) else none
    | .okIp => if v = Code.ok then some ({ e with attente := .okNb }, [⟨e.session, .rapNb, .ent e.nb⟩]) else none
    | .okNb =>
      if v = Code.ok then some ({ e with attente := .adresse }, [⟨e.session, .rapNom, .octets e.fichier⟩]) else none
    | _ => none

/-- the end of the session without a report -/
def Esclave.termine (e : Esclave) (v : ℤ) : Option (Esclave × List Marque) :=
  if e.attente = .session ∧ (v = Code.slaveFinished ∨ v = Code.clientCrashed) then
    some ({ e with attente := .adresse }, [⟨e.session, .fin, .ent v⟩])
  else none

def Esclave.rapporte (e : Esclave) (nb : ℤ) (fichier : Octets) : Option (Esclave × List Marque) :=
  if e.attente = .session then
    some ({ e with attente := .okRapport, nb := nb, fichier := fichier },
      [⟨e.session, .fin, .ent Code.clientCrashedDuringTransfert⟩])
  else none

/-! ## The system -/

/-- one slave and its two channels -/
structure Voie where
  esclave : Esclave
  /-- written by the master, not yet read by the slave -/
  vers : List Msg
  de : List Marque
  /-- the addresses that the master has written to the slave, and the last of them -/
  adresses : ℕ
  derniere : Octets
  /-- the end messages that the master has read from the slave -/
  finsLues : ℕ
deriving DecidableEq, Repr

structure Etat (N : ℕ) where
  maitre : Maitre.Etat N
  voies : Fin N → Voie

inductive Op (N : ℕ) where
  | arrivee (b : Octets)
  /-- the master reads the next message of slave `i`, of which `n` bytes have been sent when it is a run of bytes -/
  | maitre (i : Fin N) (n : ℕ) (ub : List Fiche)
  /-- slave `i` reads its next message -/
  | esclave (i : Fin N)
  | termine (i : Fin N) (v : ℤ)
  | rapporte (i : Fin N) (nb : ℤ) (fichier : Octets)

variable {N : ℕ}

def debut : Etat N := ⟨Maitre.initial, fun _ => ⟨⟨.adresse, 0, [], 0, []⟩, [], [], 0, [], 0⟩⟩

def Voie.recoit (v : Voie) (l : List Msg) : Voie := { v with vers := v.vers ++ l }

/-- the address of a client is counted -/
def Voie.note (v : Voie) (b : Octets) : Voie := { v with adresses := v.adresses + 1, derniere := b }

/-- the master has read `m` -/
def Voie.lue (v : Voie) (m : Marque) (reste : List Marque) : Voie :=
  { v with de := reste, finsLues := if m.sorte = .fin then v.finsLues + 1 else v.finsLues }

/-- the slave has moved and written -/
def Voie.apres (v : Voie) (p : Esclave × List Marque) : Voie := { v with esclave := p.1, de := v.de ++ p.2 }

def step (s : Etat N) : Op N → Option (Etat N)
  | .arrivee b =>
    (Maitre.step [] s.maitre (.arrivee b)).map fun p =>
      ⟨p.1, fun j => if ecrits p.2 j = [] then s.voies j else ((s.voies j).note b).recoit (ecrits p.2 j)⟩
  | .maitre i n ub =>
    match (s.voies i).de with
    | [] => none
    | m :: reste =>
      (Maitre.step ub s.maitre (.recu i (m.msg.coupe n))).map fun p =>
        ⟨p.1, fun j => (if i = j then (s.voies j).lue m reste else s.voies j).recoit (ecrits p.2 j)⟩
  | .esclave i =>
    match (s.voies i).vers with
    | [] => none
    | m :: reste =>
      ((s.voies i).esclave.lit m).map fun p =>
        { s with voies := Function.update s.voies i ({ s.voies i with vers := reste }.apres p) }
  | .termine i v =>
    ((s.voies i).esclave.termine v).map fun p => { s with voies := Function.update s.voies i ((s.voies i).apres p) }
  | .rapporte i nb fichier =>
    ((s.voies i).esclave.rapporte nb fichier).map fun p =>
      { s with voies := Function.update s.voies i ((s.voies i).apres p) }

@[simp] theorem recoit_nil (v : Voie) : v.recoit [] = v := by simp [Voie.recoit]

theorem step_maitre {s s' : Etat N} {i : Fin N} {n : ℕ} {ub : List Fiche} (h : step s (.maitre i n ub) = some s') :
    ∃ m reste p, (s.voies i).de = m :: reste ∧ Maitre.step ub s.maitre (.recu i (m.msg.coupe n)) = some p ∧
      s' = ⟨p.1, fun j => (if i = j then (s.voies j).lue m reste else s.voies j).recoit (ecrits p.2 j)⟩ := by
  simp only [step] at h
  split at h
  · cases h
  · rename_i m reste hm
    obtain ⟨p, hp, rfl⟩ := Option.map_eq_some_iff.1 h
    exact ⟨m, reste, p, hm, hp, rfl⟩

theorem step_esclave {s s' : Etat N} {i : Fin N} (h : step s (.esclave i) = some s') :
    ∃ m reste p, (s.voies i).vers = m :: reste ∧ (s.voies i).esclave.lit m = some p ∧
      s' = { s with voies := Function.update s.voies i ({ s.voies i with vers := reste }.apres p) } := by
  simp only [step] at h
  split at h
  · cases h
  · rename_i m reste hm
    obtain ⟨p, hp, rfl⟩ := Option.map_eq_some_iff.1 h
    exact ⟨m, reste, p, hm, hp, rfl⟩

/-! ## The invariant of one slave -/

/-- the OK of the reply, as long as the master has not read it -/
def Attardes (n : ℕ) (l : List Marque) : Prop := l = [] ∨ l = [⟨n, .okReponse, .ent Code.ok⟩]

/-- what the master does with the slave, its busy flag, and the slave with its channels; `n` sessions are over -/
inductive Accord : Phase → Bool → Voie → Prop
  | repos (n : ℕ) (a : Octets) (nb : ℤ) (f : Octets) (der : Octets) :
      Accord .libre false ⟨⟨.adresse, n, a, nb, f⟩, [], [], n, der, n⟩
  | adresse (n : ℕ) (a : Octets) (nb : ℤ) (f : Octets) (b ip : Octets) :
      Accord (.adresse ip) true ⟨⟨.adresse, n, a, nb, f⟩, [.octets b], [], n + 1, b, n⟩
  | okAdresse (n : ℕ) (nb : ℤ) (f b ip : Octets) :
      Accord (.adresse ip) true
        ⟨⟨.reponse, n + 1, b, nb, f⟩, [], [⟨n + 1, .okAdresse, .ent Code.ok⟩], n + 1, b, n⟩
  | defaut (n : ℕ) (nb : ℤ) (f b : Octets) :
      Accord .libre true ⟨⟨.reponse, n + 1, b, nb, f⟩, [.ent Code.default], [], n + 1, b, n⟩
  | crash (n : ℕ) (nb : ℤ) (f b ip : Octets) :
      Accord (.crash ip) true ⟨⟨.reponse, n + 1, b, nb, f⟩, [.ent Code.clientCrashed], [], n + 1, b, n⟩
  | okCrash (n : ℕ) (nb : ℤ) (f b ip : Octets) :
      Accord (.crash ip) true ⟨⟨.nom, n + 1, b, nb, f⟩, [], [⟨n + 1, .okReponse, .ent Code.ok⟩], n + 1, b, n⟩
  | nom (n : ℕ) (nb : ℤ) (f b ip : Octets) (nb' : ℤ) (nom : Octets) :
      Accord (.nom ip nb') true ⟨⟨.nom, n + 1, b, nb, f⟩, ecrit nom, [], n + 1, b, n⟩
  | okNom (n : ℕ) (nb : ℤ) (f b ip : Octets) (nb' : ℤ) :
      Accord (.nom ip nb') true ⟨⟨.offset, n + 1, b, nb, f⟩, [], [⟨n + 1, .okNom, .ent Code.ok⟩], n + 1, b, n⟩
  | offset (n : ℕ) (nb : ℤ) (f b : Octets) (v : ℤ) :
      Accord .libre true ⟨⟨.offset, n + 1, b, nb, f⟩, [.ent v], [], n + 1, b, n⟩
  | session (n : ℕ) (nb : ℤ) (f b : Octets) (l : List Marque) (hl : Attardes (n + 1) l) :
      Accord .libre true ⟨⟨.session, n + 1, b, nb, f⟩, [], l, n + 1, b, n⟩
  | fin (n : ℕ) (nb : ℤ) (f b : Octets) (l l' : List Marque) (v : ℤ) (hv : v = Code.slaveFinished ∨ v = Code.clientCrashed)
      (hl : Attardes (n + 1) l) (hl' : l' = l ++ [⟨n + 1, .fin, .ent v⟩]) :
      Accord .libre true ⟨⟨.adresse, n + 1, b, nb, f⟩, [], l', n + 1, b, n⟩
  | rapport (n : ℕ) (nb : ℤ) (f b : Octets) (l l' : List Marque) (hl : Attardes (n + 1) l)
      (hl' : l' = l ++ [⟨n + 1, .fin, .ent Code.clientCrashedDuringTransfert⟩]) :
      Accord .libre true ⟨⟨.okRapport, n + 1, b, nb, f⟩, [], l', n + 1, b, n⟩
  | okRapport (n : ℕ) (nb : ℤ) (f b : Octets) :
      Accord .rapIp false ⟨⟨.okRapport, n, b, nb, f⟩, [.ent Code.ok], [], n, b, n⟩
  | rapIp (n : ℕ) (nb : ℤ) (f b : Octets) :
      Accord .rapIp false ⟨⟨.okIp, n, b, nb, f⟩, [], [⟨n, .rapIp, .octets b⟩], n, b, n⟩
  | okIp (n : ℕ) (nb : ℤ) (f b : Octets) :
      Accord (.rapNb (cstr b)) false ⟨⟨.okIp, n, b, nb, f⟩, [.ent Code.ok], [], n, b, n⟩
  | rapNb (n : ℕ) (nb : ℤ) (f b : Octets) :
      Accord (.rapNb (cstr b)) false ⟨⟨.okNb, n, b, nb, f⟩, [], [⟨n, .rapNb, .ent nb⟩], n, b, n⟩
  | okNb (n : ℕ) (nb : ℤ) (f b : Octets) :
      Accord (.rapNom (cstr b) nb) false ⟨⟨.okNb, n, b, nb, f⟩, [.ent Code.ok], [], n, b, n⟩
  | rapNom (n : ℕ) (nb : ℤ) (f b : Octets) :
      Accord (.rapNom (cstr b) nb) false ⟨⟨.adresse, n, b, nb, f⟩, [], [⟨n, .rapNom, .octets f⟩], n, b, n⟩

def Aligne (s : Etat N) : Prop := ∀ i, Accord (s.maitre.pc.phase i) (s.maitre.busy i) (s.voies i)

theorem accord_lit {ph : Phase} {busy : Bool} {v : Voie} {m : Msg} {reste : List Msg} {p : Esclave × List Marque}
    (h : Accord ph busy v) (hv : v.vers = m :: reste) (hp : v.esclave.lit m = some p) :
    Accord ph busy ({ v with vers := reste }.apres p) := by
  cases h with
  | adresse n a nb f b ip => cases hv; cases hp; exact .okAdresse _ _ _ _ _
  | defaut n nb f b => cases hv; cases hp; exact .session _ _ _ _ _ (Or.inr rfl)
  | crash n nb f b ip => cases hv; cases hp; exact .okCrash _ _ _ _ _
  | nom n nb f b ip nb' nom =>
    simp only [ecrit] at hv
    split_ifs at hv
    cases hv; cases hp; exact .okNom _ _ _ _ _ _
  | offset n nb f b v => cases hv; cases hp; exact .session _ _ _ _ _ (Or.inl rfl)
  | okRapport n nb f b => cases hv; cases hp; exact .rapIp _ _ _ _
  | okIp n nb f b => cases hv; cases hp; exact .rapNb _ _ _ _
  | okNb n nb f b => cases hv; cases hp; exact .rapNom _ _ _ _
  | _ => cases hv

/-- a slave in its session is one that the master does not wait for -/
theorem accord_session {ph : Phase} {busy : Bool} {v : Voie} (h : Accord ph busy v) (hs : v.esclave.attente = .session) :
    ∃ n nb f b l, Attardes (n + 1) l ∧ ph = .libre ∧ busy = true ∧
      v = ⟨⟨.session, n + 1, b, nb, f⟩, [], l, n + 1, b, n⟩ := by
  cases h with
  | session n nb f b l hl => exact ⟨n, nb, f, b, l, hl, rfl, rfl, rfl⟩
  | _ => cases hs

theorem accord_termine {ph : Phase} {busy : Bool} {v : Voie} {c : ℤ} {p : Esclave × List Marque} (h : Accord ph busy v)
    (hp : v.esclave.termine c = some p) : Accord ph busy (v.apres p) := by
  unfold Esclave.termine at hp
  split_ifs at hp with hc
  obtain ⟨n, nb, f, b, l, hl, rfl, rfl, rfl⟩ := accord_session h hc.1
  cases hp
  exact .fin _ _ _ _ _ _ _ hc.2 hl rfl

theorem accord_rapporte {ph : Phase} {busy : Bool} {v : Voie} {nb : ℤ} {fichier : Octets} {p : Esclave × List Marque}
    (h : Accord ph busy v) (hp : v.esclave.rapporte nb fichier = some p) : Accord ph busy (v.apres p) := by
  unfold Esclave.rapporte at hp
  split_ifs at hp with hc
  obtain ⟨n, nb', f, b, l, hl, rfl, rfl, rfl⟩ := accord_session h hc
  cases hp
  exact .rapport _ _ _ _ _ _ hl rfl

/-! ## The master's steps -/

/-- what reading the message `m` of slave `i` does -/
structure Effet (i : Fin N) (s s' : Maitre.Etat N) (v : Voie) (m : Marque) : Prop where
  /-- in the handshake it is the first OK of the session -/
  premier : ∀ ip, s.pc = .attAddrOk i ip → m = ⟨v.adresses, .okAdresse, .ent Code.ok⟩
  /-- the end of the session that the last address has started frees the slave, and nobody else -/
  fin : m.sorte = .fin →
    s.pc = .boucle ∧ s'.busy = Function.update s.busy i false ∧ m.session = v.adresses ∧ v.adresses = v.finsLues + 1
  autre : m.sorte ≠ .fin → s'.busy = s.busy
  /-- the last message of a report adds its record -/
  rapport : m.sorte = .rapNom →
    s'.unfinished = ⟨cstr v.derniere, v.esclave.nb, cstr v.esclave.fichier⟩ :: s.unfinished
  /-- else the list only changes when a relay is over -/
  liste : m.sorte ≠ .rapNom → m.sorte ≠ .okNom → s'.unfinished = s.unfinished

/-- what the master does with a message of a slave that it does not wait for -/
theorem accord_boucle {s : Maitre.Etat N} {i : Fin N} {v : Voie} {m : Marque} {reste : List Marque}
    (h : Accord .libre (s.busy i) v) (hv : v.de = m :: reste) :
    (∃ n, m = ⟨n, .okReponse, .ent Code.ok⟩ ∧ Accord .libre (s.busy i) (v.lue m reste)) ∨
      (∃ n c, m = ⟨n, .fin, .ent c⟩ ∧ (c = Code.slaveFinished ∨ c = Code.clientCrashed) ∧ n = v.adresses ∧
        v.adresses = v.finsLues + 1 ∧ Accord .libre false (v.lue m reste)) ∨
      (∃ n, m = ⟨n, .fin, .ent Code.clientCrashedDuringTransfert⟩ ∧ n = v.adresses ∧ v.adresses = v.finsLues + 1 ∧
        Accord .rapIp false ((v.lue m reste).recoit [.ent Code.ok])) := by
  generalize s.busy i = busy at h
  cases h with
  | session n nb f b l hl =>
    rcases hl with rfl | rfl
    · cases hv
    · cases hv
      exact Or.inl ⟨_, rfl, .session _ _ _ _ _ (Or.inl rfl)⟩
  | fin n nb f b l l' c hc hl hl' =>
    rcases hl with rfl | rfl
    · subst hl'
      cases hv
      exact Or.inr (Or.inl ⟨_, c, rfl, hc, rfl, rfl, .repos _ _ _ _ _⟩)
    · subst hl'
      cases hv
      exact Or.inl ⟨_, rfl, .fin _ _ _ _ _ _ _ hc (Or.inl rfl) rfl⟩
  | rapport n nb f b l l' hl hl' =>
    rcases hl with rfl | rfl
    · subst hl'
      cases hv
      exact Or.inr (Or.inr ⟨_, rfl, rfl, rfl, .okRapport _ _ _ _⟩)
    · subst hl'
      cases hv
      exact Or.inl ⟨_, rfl, .rapport _ _ _ _ _ _ (Or.inl rfl) rfl⟩
  | _ => cases hv

theorem accord_lu {ub : List Fiche} {s s' : Maitre.Etat N} {o : List (Fin N × Msg)} {i : Fin N} {v : Voie} {m : Marque}
    {reste : List Marque} {k : ℕ} (h : Accord (s.pc.phase i) (s.busy i) v) (hv : v.de = m :: reste)
    (hs : Maitre.step ub s (.recu i (m.msg.coupe k)) = some (s', o)) :
    Accord (s'.pc.phase i) (s'.busy i) ((v.lue m reste).recoit (ecrits o i)) ∧ Effet i s s' v m := by
  have hr := step_recu hs
  generalize hm : m.msg.coupe k = msg at hr
  cases hr with
  | rien c hpc hfin hrap =>
    rw [hpc] at h ⊢
    rw [ecrits_nil, recoit_nil]
    rcases accord_boucle h hv with ⟨n, rfl, ha⟩ | ⟨n, c, rfl, hc, -⟩ | ⟨n, rfl, -⟩
    · refine ⟨ha, ?_⟩
      constructor <;> simp [hpc]
    · cases hm; exact absurd hc hfin
    · cases hm; exact absurd rfl hrap
  | fin c hpc hfin =>
    rw [hpc] at h
    rcases accord_boucle h hv with ⟨n, rfl, -⟩ | ⟨n, c, rfl, hc, hn, hf, ha⟩ | ⟨n, rfl, -⟩
    · cases hm; exact absurd hfin (by decide)
    · refine ⟨by simpa [hpc, Pc.phase] using ha, ?_⟩
      constructor <;> simp [hpc, hn, hf]
    · cases hm; exact absurd hfin (by decide)
  | rapport hpc =>
    rw [hpc] at h
    rcases accord_boucle h hv with ⟨n, rfl, -⟩ | ⟨n, c, rfl, hc, -⟩ | ⟨n, rfl, hn, hf, ha⟩
    · cases hm
    · cases hm; exact absurd hc (by decide)
    · refine ⟨by simpa [Pc.phase] using ha, ?_⟩
      constructor <;> simp [hpc, hn, hf]
  | crash ip hpc _ | defaut ip hpc =>
    simp only [hpc, Pc.phase, if_true, ecrits_self] at h ⊢
    generalize s.busy i = busy at h
    cases h with
    | adresse => cases hv
    | okAdresse n nb f b =>
      cases hv
      refine ⟨?_, ?_⟩
      · first | exact .crash _ _ _ _ _ | exact .defaut _ _ _ _
      · constructor <;> simp [hpc]
  | nom ip nom hpc hnom =>
    simp only [hpc, Pc.phase, if_true, ecrits_map_self] at h ⊢
    generalize s.busy i = busy at h
    cases h with
    | crash => cases hv
    | okCrash n nb f b =>
      cases hv
      refine ⟨.nom _ _ _ _ _ _ _, ?_⟩
      constructor <;> simp [hpc]
  | adresseRefusee ip c hpc hc | crashRefuse ip c hpc hc =>
    -- the only message there is is an OK
    simp only [hpc, Pc.phase, if_true] at h
    generalize s.busy i = busy at h
    cases h <;> cases hv
    cases hm; exact absurd rfl hc
  | offset ip nb c hpc =>
    simp only [hpc, Pc.phase, if_true, retire] at h ⊢
    generalize s.busy i = busy at h
    cases h with
    | nom => cases hv
    | okNom n nb f b =>
      cases hv
      cases hm
      rw [if_pos rfl, ecrits_self]
      refine ⟨.offset _ _ _ _ _, ?_⟩
      constructor <;> simp [hpc]
  | regIp b hpc hb =>
    simp only [hpc, Pc.phase, if_true, ecrits_self] at h ⊢
    generalize s.busy i = busy at h
    cases h with
    | okRapport => cases hv
    | rapIp n nb f b =>
      cases hv
      cases hm
      rw [cstr_take_of_mem hb.2]
      refine ⟨.okIp _ _ _ _, ?_⟩
      constructor <;> simp [hpc]
  | regNb ip nb hpc =>
    simp only [hpc, Pc.phase, if_true, ecrits_self] at h ⊢
    generalize s.busy i = busy at h
    cases h with
    | okIp => cases hv
    | rapNb n nb f b =>
      cases hv
      cases hm
      refine ⟨.okNb _ _ _ _, ?_⟩
      constructor <;> simp [hpc]
  | regNom ip nb b hpc hb =>
    simp only [hpc, Pc.phase, if_true, ecrits_nil, recoit_nil] at h ⊢
    generalize s.busy i = busy at h
    cases h with
    | okNb => cases hv
    | rapNom n nb f b =>
      cases hv
      cases hm
      rw [cstr_take_of_mem hb.2]
      refine ⟨.repos _ _ _ _ _, ?_⟩
      constructor <;> simp [hpc, add]

/-- a free slave that the master does not wait for is at rest -/
theorem accord_repos {v : Voie} (h : Accord .libre false v) (b : Octets) (ip : Octets) :
    v.finsLues = v.adresses ∧ Accord (.adresse ip) true ((v.note b).recoit [.octets b]) := by
  cases h with
  | repos n a nb f der => exact ⟨rfl, .adresse _ _ _ _ _ _⟩

/-! ## Every slave at once -/

/-- what a step does: the claims of the protocol, step by step -/
def Juste (s : Etat N) (o : Op N) (s' : Etat N) : Prop :=
  match o with
  | .arrivee b =>
    -- the slave that the address goes to has ended all its sessions
    (∀ j, (s'.voies j).vers ≠ (s.voies j).vers →
      (s.voies j).finsLues = (s.voies j).adresses ∧ (s'.voies j).adresses = (s.voies j).adresses + 1 ∧
        (s'.voies j).vers = (s.voies j).vers ++ [.octets b]) ∧
      s'.maitre.unfinished = s.maitre.unfinished
  | .maitre i _ _ =>
    (∃ m reste, (s.voies i).de = m :: reste ∧ Effet i s.maitre s'.maitre (s.voies i) m) ∧
      ∀ j, (s'.voies j).adresses = (s.voies j).adresses
  | _ => s'.maitre = s.maitre ∧ ∀ j, (s'.voies j).adresses = (s.voies j).adresses

theorem accord_arrivee {s s' : Etat N} {b : Octets} (h : Aligne s) (hs : step s (.arrivee b) = some s') :
    Aligne s' ∧ Juste s (.arrivee b) s' := by
  simp only [step, Option.map_eq_some_iff] at hs
  obtain ⟨⟨m', o⟩, hp, rfl⟩ := hs
  obtain ⟨hpc, hcas⟩ := step_accueil hp
  have hlibre (j : Fin N) : Accord .libre (s.maitre.busy j) (s.voies j) := by simpa [hpc, Pc.phase] using h j
  rcases hcas with ⟨i, hi, rfl, rfl⟩ | ⟨rfl, rfl⟩
  · have hr := hlibre i
    rw [hi] at hr
    refine ⟨?_, ?_, rfl⟩
    · intro j
      by_cases hji : i = j
      · subst hji
        simpa [Pc.phase] using (accord_repos hr b (cstr b)).2
      · have hj' : j ≠ i := fun he => hji he.symm
        simpa [Pc.phase, hji, hj', ecrits_ne hji] using hlibre j
    · intro j hj
      by_cases hji : i = j
      · subst hji
        exact ⟨(accord_repos hr b []).1, by simp [Voie.recoit, Voie.note], by simp [Voie.recoit, Voie.note]⟩
      · simp [ecrits_ne hji] at hj
  · refine ⟨?_, ?_, rfl⟩
    · intro j
      simpa [hpc, Pc.phase] using hlibre j
    · intro j hj
      simp at hj

theorem accord_maitre {s s' : Etat N} {i : Fin N} {n : ℕ} {ub : List Fiche} (h : Aligne s)
    (hs : step s (.maitre i n ub) = some s') : Aligne s' ∧ Juste s (.maitre i n ub) s' := by
  obtain ⟨m, reste, ⟨m', o⟩, hv, hp, rfl⟩ := step_maitre hs
  obtain ⟨ha, he⟩ := accord_lu (h i) hv hp
  refine ⟨?_, ⟨m, reste, hv, he⟩, ?_⟩
  · intro j
    by_cases hij : i = j
    · subst hij; simpa using ha
    · obtain ⟨hb, hph, ho⟩ := (step_recu hp).autre hij
      simpa [hb, hph, ho, hij] using h j
  · intro j
    by_cases hij : i = j <;> simp [hij, Voie.recoit, Voie.lue]

/-- a step of one slave -/
theorem accord_voie {s : Etat N} {i : Fin N} {v : Voie} (h : Aligne s)
    (hv : Accord (s.maitre.pc.phase i) (s.maitre.busy i) v) (ha : v.adresses = (s.voies i).adresses) :
    Aligne { s with voies := Function.update s.voies i v } ∧
      ∀ j, (Function.update s.voies i v j).adresses = (s.voies j).adresses := by
  constructor <;> intro j <;> by_cases hj : j = i
  · subst hj; simpa using hv
  · simpa [hj] using h j
  · subst hj; simpa using ha
  · simp [hj]

theorem accord_step {s s' : Etat N} {o : Op N} (h : Aligne s) (hs : step s o = some s') : Aligne s' ∧ Juste s o s' := by
  cases o with
  | arrivee b => exact accord_arrivee h hs
  | maitre i n ub => exact accord_maitre h hs
  | esclave i =>
    obtain ⟨m, reste, p, hv, hp, rfl⟩ := step_esclave hs
    obtain ⟨ha, hn⟩ := accord_voie h (accord_lit (h i) hv hp) rfl
    exact ⟨ha, rfl, hn⟩
  | termine i v =>
    obtain ⟨p, hp, rfl⟩ := Option.map_eq_some_iff.1 hs
    obtain ⟨ha, hn⟩ := accord_voie h (accord_termine (h i) hp) rfl
    exact ⟨ha, rfl, hn⟩
  | rapporte i nb fichier =>
    obtain ⟨p, hp, rfl⟩ := Option.map_eq_some_iff.1 hs
    obtain ⟨ha, hn⟩ := accord_voie h (accord_rapporte (h i) hp) rfl
    exact ⟨ha, rfl, hn⟩

/-! ## No message is refused -/

/-- there is a message to read, and its reader is at a read that could take it -/
def Attendu (s : Etat N) : Op N → Prop
  | .maitre i _ _ => (s.voies i).de ≠ [] ∧ (s.maitre.pc = .boucle ∨ s.maitre.pc.attendu = some i)
  | .esclave i => (s.voies i).vers ≠ []
  | _ => False

/-- what the master reads of a report leaves room for its terminator and holds a whole string -/
def Permis (s : Etat N) (o : Op N) : Prop :=
  match o with
  | .maitre i n _ => Attendu s o → ∀ m ∈ (s.voies i).de.head?, Tenu s.maitre.pc (m.msg.coupe n)
  | _ => True

/-- a step as the protocol means it: a message that can be read is read, and does what it should -/
def Correct (s : Etat N) (o : Op N) : Prop :=
  (Attendu s o → (step s o).isSome) ∧ ∀ s', step s o = some s' → Juste s o s'

end Semestre6.Ftp.Alignement
