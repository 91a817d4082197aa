/-
One session: the client's command loop and the slave's session loop, joined by two channels. Each write is received
whole by one read, nothing is lost, no wait runs out and nobody crashes; the two processes are interleaved freely, and
the lines typed and the files are arbitrary.

- `Accord`: what the two places and the two channels can be together, as long as no put announces a positive size;
- `accord_step`: every step keeps it;
- `canaux_vides`: in every such run, whenever the client is at its prompt and the slave at its select, both channels are
  empty;
- `put_laisse_ok`: a put of one byte leaves an OK to the client.
-/
import Semestre6.Ftp.Client
import Semestre6.Ftp.Esclave

namespace Semestre6.Ftp.Session

open Octets Transition Parse

/-! ## The two processes and their channels -/

structure Etat where
  client : Client.Etat
  esclave : Esclave.Etat
  /-- written by the client, not yet read by the slave -/
  versEsclave : List Msg
  versClient : List Msg

inductive Op where
  | ligne (d : Disque) (l : Octets)
  | client (d : Disque)
  | esclave (d : Disque)

/-- the slave has just sent DEFAULT, the client has not read it -/
def debut (tampon : Octets) (esclave : Esclave.Etat) : Etat :=
  ⟨⟨.accueil, tampon⟩, { esclave with pc := .requete }, [], [.ent Code.default]⟩

def apresClient (s : Etat) (reste : List Msg) (p : Client.Etat × List Client.Sortie) : Etat :=
  { s with
    client := p.1
    versClient := reste
    versEsclave := s.versEsclave ++ p.2.filterMap Client.Sortie.versEsclave }

def apresEsclave (s : Etat) (reste : List Msg) (p : Esclave.Etat × List Esclave.Sortie) : Etat :=
  { s with
    esclave := p.1
    versEsclave := reste
    versClient := s.versClient ++ p.2.filterMap Esclave.Sortie.versClient }

def step (s : Etat) : Op → Option Etat
  | .ligne d l => (Client.step d s.client (.ligne l)).map (apresClient s s.versClient)
  | .client d =>
    match s.versClient with
    | [] => none
    | m :: reste => (Client.step d s.client (.recu m)).map (apresClient s reste)
  | .esclave d =>
    match s.versEsclave with
    | [] => none
    | m :: reste =>
      if s.esclave.pc.ecoute = some .client then (Esclave.step d s.esclave (some m)).map (apresEsclave s reste) else none

theorem step_esclave {s s' : Etat} {d : Disque} (h : step s (.esclave d) = some s') :
    ∃ m reste p, s.versEsclave = m :: reste ∧ s.esclave.pc.ecoute = some .client ∧
      Esclave.step d s.esclave (some m) = some p ∧ s' = apresEsclave s reste p := by
  simp only [step] at h
  split at h
  · cases h
  · rename_i m reste hv
    split_ifs at h with hec
    obtain ⟨p, hp, rfl⟩ := Option.map_eq_some_iff.1 h
    exact ⟨m, reste, p, hv, hec, hp, rfl⟩

/-! ## The joint invariant -/

/-- what the client has asked and the slave has not read -/
inductive Demande : Client.Pc → List Msg → Prop
  | invite : Demande .invite []
  | ls : Demande .attLs [.ent Code.ls]
  | pwd : Demande .attPwd [.ent Code.pwd]
  | argument (cmd : ℤ) (arg : Octets) (harg : arg ≠ [])
      (hcmd : cmd ∈ [Code.mkdir, Code.rm, Code.rmr, Code.cd, Code.put, Code.get]) :
      Demande (.attOk cmd arg) [.ent cmd]
  | exit : Demande .parti [.ent Code.exit]

/-- what the slave still has to read of the last command before it is back at its select; it answers nothing to it -/
inductive Retard : Esclave.Pc → List Msg → Prop
  | requete : Retard .requete []
  | nom (cmd : ℤ) (arg : Octets) : Retard (.nom cmd) [.octets arg]
  | dernierOk (e : Envoi) (he : ¬e.Encore) : Retard (.envoie e false) [.ent Code.ok]
  | taille (f : Octets) (v : ℤ) (hv : v ≤ 0) : Retard (.taillePut f) [.ent v]

/-- the two places, the messages to the slave and the messages to the client -/
inductive Accord : Client.Pc → Esclave.Pc → List Msg → List Msg → Prop
  | accueil : Accord .accueil .requete [] [.ent Code.default]
  | calme (c : Client.Pc) (e : Esclave.Pc) (p q : List Msg) (hp : Retard e p) (hq : Demande c q) :
      Accord c e (p ++ q) []
  | reponseLs (b : Octets) : Accord .attLs .requete [] (ecrit b)
  | reponsePwd (b : Octets) : Accord .attPwd .requete [] (ecrit b)
  | okNom (cmd : ℤ) (arg : Octets) (harg : arg ≠ []) (hcmd : cmd ∈ [Code.mkdir, Code.rm, Code.rmr, Code.cd]) :
      Accord (.attOk cmd arg) (.nom cmd) [] [.ent Code.ok]
  -- get
  | okGet (arg : Octets) (harg : arg ≠ []) : Accord (.attOk Code.get arg) .nomGet [] [.ent Code.ok]
  | nomGet (arg : Octets) : Accord (.attTaille arg) .nomGet [.octets arg] []
  | taille (nom : Octets) (e : Envoi) (he : e.nb = 0) : Accord (.attTaille nom) (.okGet e) [] [.ent e.nbOctets]
  | absent (nom : Octets) (v : ℤ) (hv : v ≤ 0) : Accord (.attTaille nom) .requete [] [.ent v]
  | muetGet (nom : Octets) : Accord (.attTaille nom) .requete [] []
  | okTaille (nom : Octets) (r : Reception) (e : Envoi) (hr : r.Encore) (hn : r.nb = e.nb)
      (ho : r.nbOctets = e.nbOctets) : Accord (.recoit nom r) (.okGet e) [.ent Code.ok] []
  | morceau (nom : Octets) (r : Reception) (e : Envoi) (b : Octets) (hr : r.Encore) (hn : r.nb + b.length = e.nb)
      (ho : r.nbOctets = e.nbOctets) : Accord (.recoit nom r) (.envoie e false) [] (ecrit b)
  | okMorceau (nom : Octets) (r : Reception) (e : Envoi) (hr : r.Encore) (hn : r.nb = e.nb)
      (ho : r.nbOctets = e.nbOctets) : Accord (.recoit nom r) (.envoie e false) [.ent Code.ok] []
  -- the client is back at its prompt and the slave waits for the OK of the size
  | refus (c : Client.Pc) (e : Envoi) (v : ℤ) (q : List Msg) (hv : v ≠ Code.ok) (hq : Demande c q) :
      Accord c (.okGet e) (.ent v :: q) []
  | ignore (c : Client.Pc) (e : Envoi) (q : List Msg) (he : ¬e.Encore) (hq : Demande c q) : Accord c (.okGet e) q []
  | bloque (cmd : ℤ) (arg : Octets) : Accord (.attOk cmd arg) .requete [] []
  -- put
  | okPut (arg : Octets) (harg : arg ≠ []) : Accord (.attOk Code.put arg) .nomPut [] [.ent Code.ok]
  | nomPut (arg : Octets) : Accord (.attOkNom arg) .nomPut [.octets arg] []
  | okOuvert (nom f : Octets) : Accord (.attOkNom nom) (.taillePut f) [] [.ent Code.ok]
  | refusNom (nom : Octets) : Accord (.attOkNom nom) .requete [] [.ent Code.errorOpen]
  | taillePut (e : Envoi) (f : Octets) (v : ℤ) (hv : v ≤ 0) : Accord (.attOkTaille e) (.taillePut f) [.ent v] []
  | muetPut (e : Envoi) : Accord (.attOkTaille e) .requete [] []
  /-- the session is over for the slave -/
  | hors (c : Client.Pc) (e : Esclave.Pc) (p q : List Msg) (he : e.ecoute ≠ some .client) : Accord c e p q

def Etat.Accord (s : Etat) : Prop := Session.Accord s.client.pc s.esclave.pc s.versEsclave s.versClient

/-- at the prompt and at the select nothing is left -/
theorem accord_repos {p q : List Msg} (h : Accord .invite .requete p q) : p = [] ∧ q = [] := by
  cases h with
  | calme _ _ p q hp hq => cases hp; cases hq; exact ⟨rfl, rfl⟩
  | hors _ _ p q he => exact absurd rfl he

theorem ecrit_ne {b : Octets} (h : b ≠ []) : ecrit b = [.octets b] := if_neg h

theorem mem_ecrit {b : Octets} {m : Msg} {l : List Msg} (h : ecrit b = m :: l) : m = .octets b ∧ l = [] := by
  unfold ecrit at h
  split_ifs at h
  cases h
  exact ⟨rfl, rfl⟩

@[simp] theorem filterMap_client (l : List Msg) :
    (l.map Esclave.Sortie.client).filterMap Esclave.Sortie.versClient = l := by
  induction l with
  | nil => rfl
  | cons m l ih => simpa [Esclave.Sortie.versClient] using ih

@[simp] theorem filterMap_esclave (l : List Msg) :
    (l.map Client.Sortie.esclave).filterMap Client.Sortie.versEsclave = l := by
  induction l with
  | nil => rfl
  | cons m l ih => simpa [Client.Sortie.versEsclave] using ih

/-! ## The client's steps -/

/-- a line typed at the prompt asks for at most one thing -/
theorem ligne_demande {d : Disque} {c c' : Client.Etat} {l : Octets} {o : List Client.Sortie}
    (h : Client.step d c (.ligne l) = some (c', o)) :
    c.pc = .invite ∧ Demande c'.pc (o.filterMap Client.Sortie.versEsclave) := by
  have hpc : c.pc = .invite := by
    cases hpc : c.pc with
    | invite => rfl
    | _ => simp [Client.step, hpc] at h
  refine ⟨hpc, ?_⟩
  simp only [Client.step, hpc] at h
  split at h
  · rename_i cmd args hmots
    have harg : ∀ a ∈ args, a ≠ [] := fun a ha => mots_non_vides (by rw [hmots]; exact List.mem_cons_of_mem _ ha)
    unfold Client.execute at h
    split_ifs at h with he hls hpwd hcmd hrm
    · cases h; rw [he]; exact .exit
    · cases h; rw [hls]; exact .ls
    · cases h; rw [hpwd]; exact .pwd
    · split at h
      · cases h
        refine .argument _ _ (harg _ List.mem_cons_self) ?_
        rcases hcmd with hc | hc | hc | hc <;> simp [hc]
      · cases h; rw [hpc]; exact .invite
    · split at h
      · split_ifs at h
        · cases h
          exact .argument _ _ (harg _ (by simp)) (by simp)
        · cases h
          exact .argument _ _ (harg _ (by simp)) (by simp [hrm])
      · cases h
        exact .argument _ _ (harg _ (by simp)) (by simp [hrm])
      · cases h; rw [hpc]; exact .invite
    · cases h; rw [hpc]; exact .invite
  · cases h; rw [hpc]; exact .invite

/-- the condition on a step: the size that the client announces in a put, once the slave has opened its file, is not
positive -/
def SansPut (s : Etat) (o : Op) : Prop :=
  ∀ d nom f, o = .client d → s.client.pc = .attOkNom nom → s.versClient.head? = some (.ent Code.ok) →
    d.lecture nom = some f → d.stat nom = true → versInt f.length ≤ 0

theorem accord_ligne {s s' : Etat} {d : Disque} {l : Octets} (h : s.Accord) (hs : step s (.ligne d l) = some s') :
    s'.Accord := by
  obtain ⟨⟨cpc, tampon⟩, ⟨epc, ip, nom, nb⟩, vE, vC⟩ := s
  simp only [step, Option.map_eq_some_iff] at hs
  obtain ⟨⟨c', o⟩, hc, rfl⟩ := hs
  obtain ⟨rfl, hd⟩ := ligne_demande hc
  simp only [Etat.Accord] at h
  simp only [Etat.Accord, apresClient]
  cases h with
  | calme _ _ p q hp hq => cases hq; rw [List.append_assoc]; exact .calme _ _ _ _ hp hd
  | refus _ e v q hv hq => cases hq; exact .refus _ _ _ _ hv hd
  | ignore _ e q he hq => cases hq; exact .ignore _ _ _ he hd
  | hors _ _ p q he => exact .hors _ _ _ _ he

theorem accord_client {s s' : Etat} {d : Disque} (h : s.Accord) (hput : SansPut s (.client d))
    (hs : step s (.client d) = some s') : s'.Accord := by
  obtain ⟨⟨cpc, tampon⟩, ⟨epc, ip, fn, nb⟩, vE, vC⟩ := s
  simp only [Etat.Accord] at h
  cases h with
  | accueil =>
    simp only [step, Client.step, Code.default, Code.clientCrashedDuringTransfert] at hs
    cases hs
    exact .calme _ _ [] [] .requete .invite
  | calme _ _ p q hp hq => simp [step] at hs
  | reponseLs b =>
    simp only [step] at hs
    split at hs
    · cases hs
    · rename_i hb
      obtain ⟨rfl, rfl⟩ := mem_ecrit hb
      cases hs
      exact .calme _ _ [] [] .requete .invite
  | reponsePwd b =>
    simp only [step] at hs
    split at hs
    · cases hs
    · rename_i hb
      obtain ⟨rfl, rfl⟩ := mem_ecrit hb
      cases hs
      exact .calme _ _ [] [] .requete .invite
  | okNom cmd arg harg hcmd =>
    have hg : cmd ≠ Code.get := by rintro rfl; revert hcmd; decide
    have hp : cmd ≠ Code.put := by rintro rfl; revert hcmd; decide
    simp only [step, Client.step, Client.envoieArgument, if_true, if_neg hg, if_neg hp] at hs
    cases hs
    simp only [Etat.Accord, apresClient, filterMap_esclave, ecrit_ne harg]
    exact .calme _ _ [.octets arg] [] (.nom _ _) .invite
  | okGet arg harg =>
    simp only [step, Client.step, Client.envoieArgument, if_true] at hs
    cases hs
    simp only [Etat.Accord, apresClient, filterMap_esclave, ecrit_ne harg]
    exact .nomGet _
  | nomGet arg => simp [step] at hs
  | taille nom e he =>
    simp only [step, Client.step, Client.recoitTaille] at hs
    split_ifs at hs with hpos
    · split at hs
      · cases hs
        have hr (f : Octets) : (Reception.debut f 0 e.nbOctets).Encore := hpos
        simp only [Etat.Accord, apresClient, if_pos (hr _)]
        exact .okTaille _ _ _ (hr _) he.symm rfl
      · cases hs
        exact .refus _ _ _ [] (by decide) .invite
    · cases hs
      refine .ignore _ _ [] ?_ .invite
      rwa [Envoi.Encore, he]
  | absent nom v hv =>
    simp only [step, Client.step, Client.recoitTaille, if_neg (not_lt.2 hv)] at hs
    cases hs
    exact .calme _ _ [] [] .requete .invite
  | muetGet nom => simp [step] at hs
  | okTaille nom r e hr hn ho => simp [step] at hs
  | morceau nom r e b hr hn ho =>
    simp only [step] at hs
    split at hs
    · cases hs
    · rename_i hb
      obtain ⟨rfl, rfl⟩ := mem_ecrit hb
      simp only [Client.step] at hs
      split_ifs at hs with hc hr'
      · cases hs
        exact .okMorceau _ _ _ hr' hn ho
      · cases hs
        have he : ¬e.Encore := by
          rw [Envoi.Encore, ← hn, ← ho]; exact hr'
        exact .calme _ _ [.ent Code.ok] [] (.dernierOk _ he) .invite
      · cases hs
  | okMorceau nom r e hr hn ho => simp [step] at hs
  | refus _ e v q hv hq => simp [step] at hs
  | ignore _ e q he hq => simp [step] at hs
  | bloque cmd arg => simp [step] at hs
  | okPut arg harg =>
    simp only [step, Client.step, Client.envoieArgument, if_true] at hs
    rw [if_neg (by decide)] at hs
    cases hs
    simp only [Etat.Accord, apresClient, filterMap_esclave, ecrit_ne harg]
    exact .nomPut _
  | nomPut arg => simp [step] at hs
  | okOuvert nom f =>
    simp only [step, Client.step, Client.annonceTaille, if_true] at hs
    split at hs
    · rename_i f' hf
      split_ifs at hs with hst
      · cases hs
        exact .taillePut _ _ _ (hput d nom f' rfl rfl rfl hf hst)
      · cases hs
        exact .calme _ _ [.ent (-1)] [] (.taille _ _ (by decide)) .invite
    · cases hs
      exact .calme _ _ [.ent (-1)] [] (.taille _ _ (by decide)) .invite
  | refusNom nom =>
    simp only [step, Client.step] at hs
    rw [if_neg (by decide)] at hs
    cases hs
    exact .calme _ _ [] [] .requete .invite
  | taillePut e f v hv => simp [step] at hs
  | muetPut e => simp [step] at hs
  | hors _ _ p q he =>
    simp only [step] at hs
    split at hs
    · cases hs
    · simp only [Option.map_eq_some_iff] at hs
      obtain ⟨p, -, rfl⟩ := hs
      exact .hors _ _ _ _ he

/-! ## The slave's steps -/

theorem ferme_hors {c : Client.Pc} {e : Esclave.Etat} {p q : List Msg} : Session.Accord c e.ferme.pc p q :=
  .hors _ _ _ _ (by simp [Esclave.Etat.ferme, Esclave.Pc.ecoute])

/-- the slave at its select reads what the client has asked -/
theorem accord_requete {c : Client.Pc} {e : Esclave.Etat} {d : Disque} {m : Msg} {q : List Msg}
    {p : Esclave.Etat × List Esclave.Sortie} (hpc : e.pc = .requete) (hq : Demande c (m :: q))
    (h : Esclave.step d e (some m) = some p) :
    Session.Accord c p.1.pc q (p.2.filterMap Esclave.Sortie.versClient) := by
  cases hq with
  | ls =>
    simp only [Esclave.step, hpc, Esclave.execute] at h
    rw [if_neg (by decide), if_pos trivial] at h
    split at h
    · cases h
      rw [hpc, filterMap_client]
      exact .reponseLs _
    · cases h
      exact .hors _ _ _ _ (by simp [Esclave.Pc.ecoute])
  | pwd =>
    simp only [Esclave.step, hpc, Esclave.execute] at h
    rw [if_neg (by decide), if_neg (by decide), if_pos trivial] at h
    cases h
    rw [hpc, filterMap_client]
    exact .reponsePwd _
  | exit =>
    simp only [Esclave.step, hpc, Esclave.execute, if_true] at h
    cases h
    exact ferme_hors
  | argument cmd arg harg hcmd =>
    simp only [Esclave.step, hpc] at h
    simp only [List.mem_cons, List.not_mem_nil, or_false] at hcmd
    rcases hcmd with rfl | rfl | rfl | rfl | rfl | rfl
    · cases h; exact .okNom _ _ harg (by decide)
    · cases h; exact .okNom _ _ harg (by decide)
    · cases h; exact .okNom _ _ harg (by decide)
    · cases h; exact .okNom _ _ harg (by decide)
    · cases h; exact .okPut _ harg
    · cases h; exact .okGet _ harg

/-- the slave that still waits for the OK of a size takes the next opcode for it -/
theorem accord_ignore {c : Client.Pc} {s : Esclave.Etat} {e : Envoi} {d : Disque} {m : Msg} {q : List Msg}
    {p : Esclave.Etat × List Esclave.Sortie} (hpc : s.pc = .okGet e) (he : ¬e.Encore) (hq : Demande c (m :: q))
    (h : Esclave.step d s (some m) = some p) :
    Session.Accord c p.1.pc q (p.2.filterMap Esclave.Sortie.versClient) := by
  cases hq with
  | ls | pwd | exit =>
    simp only [Esclave.step, hpc] at h
    rw [if_neg (by decide)] at h
    cases h
    exact ferme_hors
  | argument cmd arg harg hcmd =>
    simp only [Esclave.step, hpc, Esclave.envoiFichierAuClient, Esclave.boucleEnvoi, if_neg he] at h
    split_ifs at h
    · cases h; exact .bloque _ _
    · cases h; exact ferme_hors

theorem accord_taille (nom f : Octets) (n : ℤ) :
    Session.Accord (.attTaille nom) (.okGet (Envoi.debut f 0 n)) [] [.ent n] :=
  .taille nom (Envoi.debut f 0 n) rfl

/-- a loop that goes on writes its next chunk -/
theorem accord_boucle {nom : Octets} {r : Reception} {s : Esclave.Etat} {e : Envoi} {p : Esclave.Etat × List Esclave.Sortie}
    (hr : r.Encore) (hn : r.nb = e.nb) (ho : r.nbOctets = e.nbOctets) (h : Esclave.boucleEnvoi s e false = some p) :
    Session.Accord (.recoit nom r) p.1.pc [] (p.2.filterMap Esclave.Sortie.versClient) := by
  have he : e.Encore := by rwa [Envoi.Encore, ← hn, ← ho]
  simp only [Esclave.boucleEnvoi, if_pos he] at h
  split_ifs at h
  cases h
  rw [filterMap_client]
  exact .morceau _ _ _ _ hr (by rw [hn, Envoi.lit]) ho

theorem accord_esclave {s s' : Etat} {d : Disque} (h : s.Accord) (hs : step s (.esclave d) = some s') : s'.Accord := by
  obtain ⟨m, reste, p, hvE, hec, hp, rfl⟩ := step_esclave hs
  obtain ⟨⟨cpc, tampon⟩, ⟨epc, ip, fn, nb⟩, vE, vC⟩ := s
  dsimp only at hvE hec hp
  simp only [Etat.Accord] at h
  simp only [Etat.Accord, apresEsclave]
  cases h with
  | calme _ _ p' q hp' hq =>
    cases hp' with
    | requete =>
      rw [List.nil_append] at hvE
      subst hvE
      rw [List.nil_append]
      exact accord_requete rfl hq hp
    | nom cmd arg =>
      cases hvE
      simp only [Esclave.step] at hp
      split_ifs at hp
      cases hp
      exact .calme _ _ [] _ .requete hq
    | dernierOk e he =>
      cases hvE
      simp only [Esclave.step, Esclave.boucleEnvoi, if_neg he] at hp
      cases hp
      exact .calme _ _ [] _ .requete hq
    | taille f v hv =>
      cases hvE
      simp only [Esclave.step, if_neg (not_lt.2 hv)] at hp
      cases hp
      exact .calme _ _ [] _ .requete hq
  | nomGet arg =>
    cases hvE
    simp only [Esclave.step] at hp
    split_ifs at hp
    unfold Esclave.ouvreGet at hp
    split at hp
    · split_ifs at hp
      · cases hp; exact accord_taille _ _ _
      · cases hp; exact .muetGet _
    · cases hp; exact .absent _ _ (by decide)
  | okTaille nom r e hr hn ho =>
    cases hvE
    simp only [Esclave.step, if_true, Esclave.envoiFichierAuClient, Option.map_eq_some_iff] at hp
    obtain ⟨p', hb, rfl⟩ := hp
    have ha := @accord_boucle nom _ _ _ _ hr hn ho hb
    simpa [List.filterMap_cons, Esclave.Sortie.versClient] using ha
  | okMorceau nom r e hr hn ho =>
    cases hvE
    exact accord_boucle hr hn ho hp
  | refus _ e v q hv hq =>
    cases hvE
    simp only [Esclave.step, if_neg hv] at hp
    cases hp
    exact ferme_hors
  | ignore _ e q he hq =>
    subst hvE
    exact accord_ignore rfl he hq hp
  | nomPut arg =>
    cases hvE
    simp only [Esclave.step, Esclave.ouvrePut] at hp
    split_ifs at hp
    split at hp
    · cases hp; exact .okOuvert _ _
    · cases hp; exact .refusNom _
  | taillePut e f v hv =>
    cases hvE
    simp only [Esclave.step, if_neg (not_lt.2 hv)] at hp
    cases hp
    exact .muetPut _
  | hors _ _ p q he => exact absurd hec he
  | _ => cases hvE

/-- every step whose put announces no positive size keeps the agreement -/
theorem accord_step {s s' : Etat} {o : Op} (h : s.Accord) (hput : SansPut s o) (hs : step s o = some s') :
    s'.Accord := by
  cases o with
  | ligne d l => exact accord_ligne h hs
  | client d => exact accord_client h hput hs
  | esclave d => exact accord_esclave h hs

/-- **Both channels are empty between two commands.** In every interleaving of a session in which no put announces a
positive size, whenever the client is at its prompt and the slave at its select nothing is left in the channels. -/
theorem canaux_vides (tampon : Octets) (esclave : Esclave.Etat) (ops : List Op) (s : Etat)
    (h : runM step (debut tampon esclave) ops = some s) (hput : AlwaysM step SansPut (debut tampon esclave) ops)
    (hc : s.client.pc = .invite) (he : s.esclave.pc = .requete) : s.versEsclave = [] ∧ s.versClient = [] := by
  have h₀ : (debut tampon esclave).Accord := .accueil
  have ha : s.Accord := runM_inv_of_always (fun _ _ _ h hp hs => accord_step h hp hs) h₀ hput h
  rw [Etat.Accord, hc, he] at ha
  exact accord_repos ha

theorem sansPut_of_pc {s : Etat} {o : Op} (h : ∀ nom, s.client.pc ≠ .attOkNom nom) : SansPut s o :=
  fun _ nom _ _ hpc _ => absurd hpc (h nom)

/-- files that all open and hold one byte -/
def disqueUn : Disque where
  lecture _ := some [1]
  stat _ := true
  ecriture _ := some []
  existant _ := some []
  liste := some [octets "f"]
  cwd := octets "/"
  connexion := true

/-- a get of one byte, from the first message to the last OK -/
def unGet : List Op :=
  [.client disqueUn, .ligne disqueUn (octets "get f\n"), .esclave disqueUn, .client disqueUn, .esclave disqueUn,
    .client disqueUn, .esclave disqueUn, .client disqueUn, .esclave disqueUn]

theorem canaux_vides_un_get : ∃ s, runM step (debut [] Esclave.initial) unGet = some s ∧ s.client.pc = .invite ∧
    s.esclave.pc = .requete ∧ s.versEsclave = [] ∧ s.versClient = [] := by
  have hput : AlwaysM step SansPut (debut [] Esclave.initial) unGet := by
    unfold unGet
    iterate 9 refine (alwaysM_cons rfl).2 ⟨sansPut_of_pc (by intro nom h; cases h), ?_⟩
    trivial
  exact ⟨_, rfl, rfl, rfl, canaux_vides _ _ _ _ rfl hput rfl rfl⟩

/-- after a put of one byte both are at rest, and an OK is left: the slave answers the size twice -/
theorem put_laisse_ok : ∃ s, runM step (debut [] Esclave.initial)
      [.client disqueUn, .ligne disqueUn (octets "put f\n"), .esclave disqueUn, .client disqueUn, .esclave disqueUn,
        .client disqueUn, .esclave disqueUn, .client disqueUn, .client disqueUn, .esclave disqueUn] = some s ∧
    s.client.pc = .invite ∧ s.esclave.pc = .requete ∧ s.versClient = [.ent Code.ok] :=
  ⟨_, rfl, rfl, rfl, rfl⟩

end Semestre6.Ftp.Session
