/-
The relay of an unfinished transfer to a client that reconnects: `envoi_info_crash` (master), then
`reception_info_crash_from_master` and `envoi_info_crash_to_client` (slave) with `reception_donnees_crash` (client).
Each message is received whole. Each process waits for the message of the other, so the exchange is a sequence of
rounds: the client reads what the slave has just written and the slave reads the answer; when nothing was written the
wait runs out.

The name travels without its terminator into buffers that keep their old bytes. The slave ends it nowhere, the client
one byte too far.

- `relais_iff`: both sides open exactly the name of the record at its offset if and only if the name is not empty, the
  byte behind it in both buffers was a zero, and the two files open.
-/
import Semestre6.Ftp.Client
import Semestre6.Ftp.Esclave
import Semestre6.Ftp.StockIp

namespace Semestre6.Ftp.Relais

open Octets StockIp

/-! ## The exchange -/

/-- a file opened for a transfer: its name, the count it starts from, the offset of the first byte -/
abbrev Ouverture := Octets × ℤ × ℕ

def ouvertureEsclave : Esclave.Sortie → Option Ouverture
  | .debut nom e => some (nom, e.nb, e.pos)
  | _ => none

def ouvertureClient : Client.Sortie → Option Ouverture
  | .debut nom r => some (nom, r.nb, r.pos)
  | _ => none

structure Etat where
  esclave : Esclave.Etat
  /-- what the slave has just written -/
  ecrit : List Esclave.Sortie
  client : Client.Etat
  ouvertEsclave : List Ouverture
  ouvertClient : List Ouverture

/-- `envoi_info_crash` and `reception_info_crash_from_master`: the name, then the offset. Without a name the slave's wait
runs out, and so does the master's, which sends no offset. -/
def informe (liste : List Fiche) (ip : Octets) (d : Disque) (e : Esclave.Etat) :
    Option (Esclave.Etat × List Esclave.Sortie) :=
  (fileName liste ip).bind fun nom =>
    if nom = [] then Esclave.step d e none
    else
      (Esclave.step d e (some (.octets nom))).bind fun p =>
        (Esclave.step d p.1 (some (.ent (bytes liste ip)))).map fun q => (q.1, p.2 ++ q.2)

def lectureClient (o : List Esclave.Sortie) : Client.Entree :=
  match o.filterMap Esclave.Sortie.versClient with
  | m :: _ => .recu m
  | [] => .silence

/-- the client reads, answers, and the slave reads the answer -/
def tour (ds dc : Disque) (s : Etat) : Option Etat :=
  (Client.step dc s.client (lectureClient s.ecrit)).bind fun p =>
    (Esclave.step ds s.esclave (p.2.filterMap Client.Sortie.versEsclave).head?).map fun q =>
      ⟨q.1, q.2, p.1, s.ouvertEsclave ++ q.2.filterMap ouvertureEsclave, s.ouvertClient ++ p.2.filterMap ouvertureClient⟩

/-- the code of the crash, the name, the offset, the size -/
def tours (ds dc : Disque) (s : Etat) : Option Etat :=
  (tour ds dc s).bind fun s₁ => (tour ds dc s₁).bind fun s₂ => (tour ds dc s₂).bind fun s₃ => tour ds dc s₃

def relais (liste : List Fiche) (ip : Octets) (ds dc : Disque) (e : Esclave.Etat) (c : Client.Etat) : Option Etat :=
  (informe liste ip ds e).bind fun p => tours ds dc ⟨p.1, p.2, c, [], []⟩

/-- the first chunk of the loop takes `nb` past the range of int -/
def Deborde (e : Envoi) : Prop := e.Encore ∧ 2 ^ 31 ≤ e.lit.nb

/-! ## The rounds -/

@[simp] theorem ouvertureEsclave_client (m : Msg) : ouvertureEsclave (.client m) = none := rfl

section
variable {ds dc : Disque} {e : Esclave.Etat} {c : Client.Etat} {oe oc : List Ouverture}

/-- a round, from the step of the client and from that of the slave on the answer -/
theorem tour_eq {s : Etat} {p : Client.Etat × List Client.Sortie} {q : Esclave.Etat × List Esclave.Sortie}
    {m : Option Msg} (hc : Client.step dc s.client (lectureClient s.ecrit) = some p)
    (hm : (p.2.filterMap Client.Sortie.versEsclave).head? = m) (he : Esclave.step ds s.esclave m = some q) :
    tour ds dc s =
      some ⟨q.1, q.2, p.1, s.ouvertEsclave ++ q.2.filterMap ouvertureEsclave,
        s.ouvertClient ++ p.2.filterMap ouvertureClient⟩ := by
  rw [tour, hc, Option.bind_some, hm, he, Option.map_some]

/-- the messages of the slave open nothing -/
theorem ouvertures_map_client (l : List Msg) : (l.map Esclave.Sortie.client).filterMap ouvertureEsclave = [] := by
  induction l with
  | nil => rfl
  | cons m l ih => exact ih

theorem tour_code {o : List Esclave.Sortie} (he : e.pc = .repr1) (hc : c.pc = .accueil)
    (ho : o.filterMap Esclave.Sortie.versClient = [.ent Code.clientCrashedDuringTransfert]) :
    tour ds dc ⟨e, o, c, oe, oc⟩ =
      some ⟨{ e with pc := .repr2 }, (ecrit (cstr e.filename)).map .client, { c with pc := .nomCrash }, oe, oc⟩ := by
  have hlu : lectureClient o = .recu (.ent Code.clientCrashedDuringTransfert) := by rw [lectureClient, ho]
  have hcl : Client.step dc c (lectureClient o) = some ({ c with pc := .nomCrash }, [.esclave (.ent Code.ok)]) := by
    rw [hlu]
    simp only [Client.step, hc, if_true]
  have hes : Esclave.step ds e (some (.ent Code.ok)) =
      some ({ e with pc := .repr2 }, (ecrit (cstr e.filename)).map .client) := by
    simp only [Esclave.step, he, if_true]
  rw [tour_eq hcl rfl hes]
  simp only [ouvertures_map_client, List.append_nil]
  rw [show [Client.Sortie.esclave (.ent Code.ok)].filterMap ouvertureClient = [] from rfl, List.append_nil]

/-- the client's name is what it read and what its buffer held behind it -/
theorem tour_nom {nom : Octets} (hnom : nom ≠ []) (he : e.pc = .repr2) (hc : c.pc = .nomCrash) :
    tour ds dc ⟨e, (ecrit nom).map .client, c, oe, oc⟩ =
      if nom.length + 1 < maxline then
        some ⟨{ e with pc := .repr3 }, [.client (.ent e.nbCrash)],
          { c with pc := .offsetCrash (cstr (Client.lireNomCrash c.tampon nom)) }, oe, oc⟩
      else none := by
  have hlu : lectureClient ((ecrit nom).map .client) = .recu (.octets nom) := by
    rw [ecrit, if_neg hnom]
    rfl
  split_ifs with hl
  · have hcl : Client.step dc c (lectureClient ((ecrit nom).map .client)) =
        some ({ c with pc := .offsetCrash (cstr (Client.lireNomCrash c.tampon nom)) }, [.esclave (.ent Code.ok)]) := by
      rw [hlu]
      simp only [Client.step, hc, if_pos hl]
    have hes : Esclave.step ds e (some (.ent Code.ok)) =
        some ({ e with pc := .repr3 }, [.client (.ent e.nbCrash)]) := by
      simp only [Esclave.step, he, if_true]
    rw [tour_eq hcl rfl hes]
    simp [ouvertureEsclave, ouvertureClient]
  · have hcl : Client.step dc c (lectureClient ((ecrit nom).map .client)) = none := by
      rw [hlu]
      simp only [Client.step, hc, if_neg hl]
    rw [tour, hcl, Option.bind_none]

theorem tour_offset {nom : Octets} {nb : ℤ} (he : e.pc = .repr3) (hc : c.pc = .offsetCrash nom) :
    tour ds dc ⟨e, [.client (.ent nb)], c, oe, oc⟩ =
      (Esclave.ouvreReprise ds e).map fun q => ⟨q.1, q.2, { c with pc := .tailleCrash nom nb },
        oe ++ q.2.filterMap ouvertureEsclave, oc⟩ := by
  have hcl : Client.step dc c (lectureClient [.client (.ent nb)]) =
      some ({ c with pc := .tailleCrash nom nb }, [.esclave (.ent Code.ok)]) := by
    simp only [lectureClient, List.filterMap_cons, Esclave.Sortie.versClient, Client.step, hc]
  have hes : Esclave.step ds e (some (.ent Code.ok)) = Esclave.ouvreReprise ds e := by
    simp only [Esclave.step, he, if_true]
  rw [tour, hcl, Option.bind_some]
  simp only [List.filterMap_cons, Client.Sortie.versEsclave, List.filterMap_nil, List.head?_cons, hes, ouvertureClient,
    List.append_nil]

/-- the client opens its file, then the slave starts its loop -/
theorem tour_taille {nom : Octets} {nb n : ℤ} {v : Envoi} (he : e.pc = .repr4 v) (hc : c.pc = .tailleCrash nom nb) :
    tour ds dc ⟨e, [.client (.ent n)], c, oe, oc⟩ =
      match dc.existant nom with
      | some f => (Esclave.envoiFichierAuClient e v true).map fun q =>
          ⟨q.1, q.2,
            { c with pc := if (Reception.debut f nb n).Encore then .recoit nom (Reception.debut f nb n) else .invite },
            oe ++ q.2.filterMap ouvertureEsclave, oc ++ [(nom, nb, nb.toNat)]⟩
      | none => some ⟨e.ferme, [.avis Code.clientCrashed, .avis Code.clientCrashed], { c with pc := .parti }, oe, oc⟩ := by
  have hlu : lectureClient [.client (.ent n)] = .recu (.ent n) := rfl
  match hf : dc.existant nom with
  | some f =>
    have hcl : Client.step dc c (.recu (.ent n)) = Client.receptionFichier c nom (Reception.debut f nb n) := by
      simp only [Client.step, hc, hf]
    have hes : Esclave.step ds e (some (.ent Code.ok)) = Esclave.envoiFichierAuClient e v true := by
      simp only [Esclave.step, he, if_true]
    rw [tour, hlu, hcl, Client.receptionFichier, Option.bind_some]
    simp only [List.filterMap_cons, Client.Sortie.versEsclave, List.filterMap_nil, List.head?_cons, hes, ouvertureClient,
      Reception.debut]
  | none =>
    have hcl : Client.step dc c (.recu (.ent n)) = some ({ c with pc := .parti }, []) := by
      simp only [Client.step, hc, hf]
    have hes : Esclave.step ds e none = Esclave.repriseFermee e [.avis Code.clientCrashed] := by
      simp only [Esclave.step, he]
    rw [tour_eq (hlu ▸ hcl) rfl (hes.trans rfl)]
    simp [ouvertureEsclave]

end

/-- both sides have opened exactly the file `nom`, from `nb` -/
def Etat.Ouvre (s : Etat) (nom : Octets) (nb : ℤ) : Prop :=
  s.ouvertEsclave = [(nom, nb, nb.toNat)] ∧ s.ouvertClient = [(nom, nb, nb.toNat)]

/-- the file that the slave opens, and can start to send from `nb` -/
def Envoyable (d : Disque) (nom : Octets) (nb : ℤ) : Prop :=
  ∃ f, d.lecture nom = some f ∧ d.stat nom = true ∧ ¬Deborde (Envoi.debut f nb (versInt f.length))

/-- a loop that starts opens its file once -/
theorem envoi_ouverture {e : Esclave.Etat} {v : Envoi} {q : Esclave.Etat × List Esclave.Sortie}
    (h : Esclave.envoiFichierAuClient e v true = some q) :
    ¬Deborde v ∧ q.2.filterMap ouvertureEsclave = [(cstr e.filename, v.nb, v.pos)] := by
  simp only [Esclave.envoiFichierAuClient, Esclave.boucleEnvoi, Option.map_eq_some_iff] at h
  obtain ⟨p, hp, rfl⟩ := h
  split_ifs at hp with he hb
  · cases hp
    refine ⟨fun hd => absurd hd.2 (not_le.2 hb), ?_⟩
    simp [ouvertureEsclave]
  · cases hp
    exact ⟨fun hd => he hd.1, rfl⟩

theorem envoi_defini {e : Esclave.Etat} {v : Envoi} (h : ¬Deborde v) :
    ∃ q, Esclave.envoiFichierAuClient e v true = some q := by
  simp only [Esclave.envoiFichierAuClient, Esclave.boucleEnvoi]
  split_ifs with he hb
  · exact ⟨_, rfl⟩
  · exact absurd ⟨he, not_lt.1 hb⟩ h
  · exact ⟨_, rfl⟩

/-- what the rounds open, from the slave's name, its offset and the client's old bytes -/
theorem tours_iff {ds dc : Disque} {e : Esclave.Etat} {c : Client.Etat} {o : List Esclave.Sortie} {nom : Octets} {nb : ℤ}
    (he : e.pc = .repr1) (hc : c.pc = .accueil)
    (ho : o.filterMap Esclave.Sortie.versClient = [.ent Code.clientCrashedDuringTransfert]) :
    (∃ t, tours ds dc ⟨e, o, c, [], []⟩ = some t ∧ t.Ouvre nom nb) ↔
      cstr e.filename ≠ [] ∧ (cstr e.filename).length + 1 < maxline ∧ cstr e.filename = nom ∧
        cstr (Client.lireNomCrash c.tampon (cstr e.filename)) = nom ∧ e.nbCrash = nb ∧ Envoyable ds nom nb ∧
        (dc.existant nom).isSome := by
  unfold tours
  rw [tour_code he hc ho, Option.bind_some]
  by_cases hvide : cstr e.filename = []
  · -- nothing is written: the client leaves, and the next round has nobody to read
    have h₂ : tour ds dc ⟨{ e with pc := .repr2 }, [], { c with pc := .nomCrash }, [], []⟩ =
        some ⟨e.ferme, [.avis Code.clientCrashed, .avis Code.clientCrashed], { c with pc := .parti }, [], []⟩ := rfl
    have h₃ : tour ds dc ⟨e.ferme, [.avis Code.clientCrashed, .avis Code.clientCrashed], { c with pc := .parti }, [], []⟩ =
        none := rfl
    simp [hvide, ecrit, h₂, h₃]
  rw [tour_nom hvide rfl rfl]
  split_ifs with hlen
  swap
  · simp [hlen]
  rw [Option.bind_some, tour_offset rfl rfl]
  dsimp only
  by_cases hf : ∃ f, ds.lecture (cstr e.filename) = some f ∧ ds.stat (cstr e.filename) = true
  · obtain ⟨f, hl, hst⟩ := hf
    rw [Esclave.ouvreReprise_ok (s := { e with pc := .repr3 }) hl hst, Option.map_some, Option.bind_some]
    simp only [List.filterMap_cons, List.filterMap_nil, ouvertureEsclave_client, List.append_nil]
    rw [tour_taille rfl rfl]
    cases hx : dc.existant (cstr (Client.lireNomCrash c.tampon (cstr e.filename))) with
    | none =>
      simp only [Option.some.injEq, exists_eq_left', Etat.Ouvre]
      constructor
      · rintro ⟨h, -⟩; cases h
      · rintro ⟨-, -, -, hn, -, -, hx'⟩; rw [hn] at hx; simp [hx] at hx'
    | some g =>
      simp only [Option.map_eq_some_iff]
      constructor
      · rintro ⟨t, ⟨q, hq, rfl⟩, hE, hC⟩
        obtain ⟨hd, ho'⟩ := envoi_ouverture hq
        simp only [List.nil_append, ho', List.cons.injEq, Prod.mk.injEq, and_true] at hE hC
        obtain ⟨hn, hnb, -⟩ := hE
        obtain ⟨hn', -⟩ := hC
        have hnb' : e.nbCrash = nb := hnb
        subst hn hnb'
        exact ⟨hvide, hlen, rfl, hn', rfl, ⟨f, hl, hst, hd⟩, by rw [← hn', hx]; rfl⟩
      · rintro ⟨-, -, hn, hn', hnb, ⟨f', hl', -, hd⟩, -⟩
        subst hn hnb
        rw [hl] at hl'
        cases hl'
        obtain ⟨q, hq⟩ := envoi_defini (e := { e with pc := .repr4 _ }) hd
        refine ⟨_, ⟨q, hq, rfl⟩, ?_, ?_⟩
        · simp only [List.nil_append, (envoi_ouverture hq).2]; rfl
        · simp only [List.nil_append, hn']
  · -- nothing is written either: the last round is a silence on both sides
    rw [Esclave.ouvreReprise_echec (s := { e with pc := .repr3 }) hf, Option.map_some, Option.bind_some]
    have h₄ (nom' : Octets) (nb' : ℤ) : tour ds dc ⟨{ e with pc := .requete }, [],
        { c with pc := .tailleCrash nom' nb' }, [], []⟩ =
        some ⟨e.ferme, [.avis Code.clientCrashed], { c with pc := .parti }, [], []⟩ := rfl
    simp only [List.filterMap_nil, List.append_nil, h₄, Option.some.injEq, exists_eq_left', Etat.Ouvre]
    constructor
    · rintro ⟨h, -⟩; cases h
    · rintro ⟨-, -, hn, -, -, ⟨f, hl, hst, -⟩, -⟩
      exact absurd ⟨f, by rw [hn]; exact hl, by rw [hn]; exact hst⟩ hf

/-- **The relay.** For the record of an address that reconnects, whatever the two buffers held, the slave and the client
open exactly its name at its offset if and only if the name is not empty, a zero stood behind its place in both buffers,
and both files open. -/
theorem relais_iff (liste : List Fiche) (ip : Octets) (f : Fiche) (ds dc : Disque) (e : Esclave.Etat) (c : Client.Etat)
    (hf : liste.find? (·.ip = ip) = some f) (hnul : ∀ x ∈ f.filename, x ≠ 0) (hlen : f.filename.length + 1 < maxline)
    (he : e.pc = .nomCrash) (hel : e.filename.length = maxline) (hc : c.pc = .accueil)
    (hcl : c.tampon.length = maxline) :
    (∃ t, relais liste ip ds dc e c = some t ∧ t.Ouvre f.filename f.nbBytes) ↔
      f.filename ≠ [] ∧ e.filename[f.filename.length]? = some 0 ∧ c.tampon[f.filename.length]? = some 0 ∧
        Envoyable ds f.filename f.nbBytes ∧ (dc.existant f.filename).isSome := by
  have hl₁ : f.filename.length < e.filename.length := by omega
  have hl₂ : f.filename.length < c.tampon.length := by omega
  simp only [relais, informe, fileName_eq hf, bytes_eq hf, Option.bind_some]
  split_ifs with hvide
  · -- the name is not sent: whatever the slave opens is its old name
    simp only [Esclave.step, he, Option.bind_some]
    rw [tours_iff rfl hc rfl]
    simp only [hvide, ne_eq, not_true_eq_false, false_and, iff_false]
    rintro ⟨h₁, -, h₂, -⟩
    exact h₁ h₂
  · simp only [Esclave.step, he, if_pos (show f.filename.length ≤ maxline by omega), Option.bind_some, Option.map_some]
    rw [tours_iff rfl hc rfl]
    simp only [ne_eq, hvide, not_false_eq_true, true_and, List.getElem?_eq_getElem hl₁, List.getElem?_eq_getElem hl₂,
      Option.some.injEq, ← cstr_readInto_iff hnul hl₁, ← cstr_readInto_set_iff hnul hl₂]
    constructor
    · rintro ⟨-, -, hn, hn', h⟩
      rw [hn] at hn'
      exact ⟨hn, hn', h⟩
    · rintro ⟨hn, hn', h⟩
      rw [hn]
      exact ⟨hvide, hlen, rfl, hn', h⟩

/-- a file of one byte on the server, an empty one at the client -/
def disqueReprise : Disque where
  lecture _ := some [1]
  stat _ := true
  ecriture _ := some []
  existant _ := some []
  liste := some [octets "f"]
  cwd := octets "/"
  connexion := true

theorem f_sans_nul : ∀ x ∈ octets "f", x ≠ 0 := by
  intro x hx
  have hx' : x ∈ [(102 : UInt8)] := hx
  rw [List.mem_singleton.1 hx']
  decide

/-- buffers that no name has used yet -/
theorem relais_iff_neuf :
    (∃ t, relais [⟨octets "10.0.0.7", 0, octets "f"⟩] (octets "10.0.0.7") disqueReprise disqueReprise
        { Esclave.initial with pc := .nomCrash } ⟨.accueil, List.replicate maxline 0⟩ = some t ∧
      t.Ouvre (octets "f") 0) ↔
      octets "f" ≠ [] ∧ (List.replicate maxline (0 : UInt8))[(octets "f").length]? = some 0 ∧
        (List.replicate maxline (0 : UInt8))[(octets "f").length]? = some 0 ∧ Envoyable disqueReprise (octets "f") 0 ∧
        (disqueReprise.existant (octets "f")).isSome :=
  relais_iff _ _ ⟨octets "10.0.0.7", 0, octets "f"⟩ _ _ _ _ rfl f_sans_nul (by decide) rfl List.length_replicate rfl
    List.length_replicate

/-- the slave's buffer still holds the longer name of an earlier get: the slave opens `fbc` for `f` -/
theorem relais_nom_perime :
    ∃ t, relais [⟨octets "10.0.0.7", 0, octets "f"⟩] (octets "10.0.0.7") disqueReprise disqueReprise
        { Esclave.initial with
          pc := .nomCrash
          filename := Esclave.lireNom (List.replicate maxline 0) (octets "abc") }
        ⟨.accueil, List.replicate maxline 0⟩ = some t ∧
      t.ouvertEsclave = [(octets "fbc", 0, 0)] ∧ ¬t.Ouvre (octets "f") 0 :=
  ⟨_, rfl, rfl, fun h => absurd h.1 (by decide)⟩

end Semestre6.Ftp.Relais
