/-
What the master, one slave and the two channels between them can be together in a run whose steps are all `Bon`, and
what each step does to the transfer that a slave carries.

- `Accord`: the joint invariant, a place of the master's with a place of the slave's and what is on its way;
- `accord_lu`: the master reads a message; it moves at most one transfer between the list and the slave (`Bilan`);
- `accord_lit`, `accord_attente`, `accord_client`: the slave reads a message of the master, waits for one in vain, hears
  its client or nothing. The transfer that it resumes stays the one that it resumes, or is sent to its end.
-/
import Semestre6.Ftp.Systeme

namespace Semestre6.Ftp.Systeme

open Octets Transition Conservation StockIp Maitre

variable {N : ℕ}

/-! ## The joint invariant -/

/-- a session with a client that resumes nothing -/
def EnSession : Esclave.Pc → Prop
  | .requete | .nom _ | .nomPut | .taillePut _ | .recoit _ | .nomGet | .okGet _ | .envoie _ false => True
  | _ => False

/-- the exchange with the client of a resume; the size announced is the one of the file -/
def Reprend : Esclave.Pc → Prop
  | .repr1 | .repr2 | .repr3 => True
  | .repr4 e | .envoie e true => e.nbOctets = e.fichier.length
  | _ => False

/-- the OK of DEFAULT, which the master does not wait for -/
def Attarde (l : List Msg) : Prop := l = [] ∨ l = [.ent Code.ok]

/-- the second notification of a resumed session whose report has been read -/
def Avis (l : List Msg) : Prop := l = [] ∨ l = [.ent Code.clientCrashed]

/-- the phase of the master with a slave, its `busy` flag, and the slave with its channels and its last report -/
inductive Accord (l : List Fiche) : Phase → Bool → Voie → Prop
  | libre (a f : Octets) (n : ℤ) (de : List Msg) (ρ : ℤ × Bool) (hde : Avis de) :
      Accord l .libre false ⟨⟨.lireAdresse, a, f, n⟩, [], de, ρ⟩
  -- a slave that the master takes for busy and that waits for an address: a session that closed without a word, or a
  -- handshake that failed
  | perdu (a f : Octets) (n : ℤ) (de : List Msg) (ρ : ℤ × Bool) (hde : Attarde de) :
      Accord l .libre true ⟨⟨.lireAdresse, a, f, n⟩, [], de, ρ⟩
  | mal (a f : Octets) (n : ℤ) (b : Octets) (ρ : ℤ × Bool) (hb : b.length = inetAddrstrlen ∧ 0 ∈ b) :
      Accord l .libre true ⟨⟨.lireAdresse, a, f, n⟩, [.octets b], [], ρ⟩
  | malAttente (a f : Octets) (n : ℤ) (de : List Msg) (ρ : ℤ × Bool) (hde : Attarde de) :
      Accord l .libre true ⟨⟨.attReponse, a, f, n⟩, [], de, ρ⟩
  -- the handshake
  | adresse (a f : Octets) (n : ℤ) (b : Octets) (de : List Msg) (ρ : ℤ × Bool)
      (hb : b.length = inetAddrstrlen ∧ 0 ∈ b) (hde : Avis de) :
      Accord l (.adresse (cstr b)) true ⟨⟨.lireAdresse, a, f, n⟩, [.octets b], de, ρ⟩
  | okAdresse (a f : Octets) (n : ℤ) (de : List Msg) (ρ : ℤ × Bool) (hde : Avis de) :
      Accord l (.adresse (cstr a)) true ⟨⟨.attReponse, a, f, n⟩, [], de ++ [.ent Code.ok], ρ⟩
  | defaut (a f : Octets) (n : ℤ) (ρ : ℤ × Bool) :
      Accord l .libre true ⟨⟨.attReponse, a, f, n⟩, [.ent Code.default], [], ρ⟩
  | crash (a f : Octets) (n : ℤ) (ρ : ℤ × Bool) :
      Accord l (.crash (cstr a)) true ⟨⟨.attReponse, a, f, n⟩, [.ent Code.clientCrashed], [], ρ⟩
  | okCrash (a f : Octets) (n : ℤ) (ρ : ℤ × Bool) :
      Accord l (.crash (cstr a)) true ⟨⟨.nomCrash, a, f, n⟩, [], [.ent Code.ok], ρ⟩
  | nom (a f : Octets) (n : ℤ) (nom : Octets) (ρ : ℤ × Bool) (hnom : fileName l (cstr a) = some nom) :
      Accord l (.nom (cstr a) (bytes l (cstr a))) true ⟨⟨.nomCrash, a, f, n⟩, [.octets nom], [], ρ⟩
  | okNom (a f : Octets) (n : ℤ) (ρ : ℤ × Bool) (hnom : fileName l (cstr a) = some (cstr f)) :
      Accord l (.nom (cstr a) (bytes l (cstr a))) true ⟨⟨.offsetCrash, a, f, n⟩, [], [.ent Code.ok], ρ⟩
  | offset (a f : Octets) (n nb : ℤ) (ρ : ℤ × Bool) : Accord l .libre true ⟨⟨.offsetCrash, a, f, n⟩, [.ent nb], [], ρ⟩
  -- the session
  | reprise (pc : Esclave.Pc) (a f : Octets) (n : ℤ) (ρ : ℤ × Bool) (hpc : Reprend pc) :
      Accord l .libre true ⟨⟨pc, a, f, n⟩, [], [], ρ⟩
  | session (pc : Esclave.Pc) (a f : Octets) (n : ℤ) (de : List Msg) (ρ : ℤ × Bool) (hpc : EnSession pc)
      (hde : Attarde de) : Accord l .libre true ⟨⟨pc, a, f, n⟩, [], de, ρ⟩
  | fin (a f : Octets) (n : ℤ) (de : List Msg) (v : ℤ) (ρ : ℤ × Bool) (hde : Attarde de)
      (hv : v = Code.slaveFinished ∨ v = Code.clientCrashed) :
      Accord l .libre true ⟨⟨.lireAdresse, a, f, n⟩, [], de ++ [.ent v], ρ⟩
  -- the report
  | rapport (a f : Octets) (n nb : ℤ) (r : Bool) (de : List Msg) (hde : Attarde de) :
      Accord l .libre true
        ⟨⟨.rapport1 nb r, a, f, n⟩, [], de ++ [.ent Code.clientCrashedDuringTransfert], (nb, r)⟩
  | okRapport (a f : Octets) (n nb : ℤ) (r : Bool) :
      Accord l .rapIp false ⟨⟨.rapport1 nb r, a, f, n⟩, [.ent Code.ok], [], (nb, r)⟩
  | rapIp (a f : Octets) (n nb : ℤ) (r : Bool) :
      Accord l .rapIp false ⟨⟨.rapport2 nb r, a, f, n⟩, [], [.octets a], (nb, r)⟩
  | okIp (a f : Octets) (n nb : ℤ) (r : Bool) :
      Accord l (.rapNb (cstr a)) false ⟨⟨.rapport2 nb r, a, f, n⟩, [.ent Code.ok], [], (nb, r)⟩
  | rapNb (a f : Octets) (n nb : ℤ) (r : Bool) :
      Accord l (.rapNb (cstr a)) false ⟨⟨.rapport3 nb r, a, f, n⟩, [], [.ent nb], (nb, r)⟩
  | okNb (a f : Octets) (n nb : ℤ) (r : Bool) :
      Accord l (.rapNom (cstr a) nb) false ⟨⟨.rapport3 nb r, a, f, n⟩, [.ent Code.ok], [], (nb, r)⟩
  | rapNom (a f : Octets) (n nb : ℤ) (r : Bool) (de : List Msg) (hde : Avis de) :
      Accord l (.rapNom (cstr a) nb) false ⟨⟨.lireAdresse, a, f, n⟩, [], .octets f :: de, (nb, r)⟩

def Aligne (s : Etat N) : Prop := ∀ i, Accord s.maitre.unfinished (s.maitre.pc.phase i) (s.maitre.busy i) (s.voies i)

/-- a session that resumes nothing -/
theorem reprise_session {v : Voie} (ph : Phase) (h : EnSession v.esclave.pc) : v.reprise ph = none := by
  unfold Voie.reprise
  cases hpc : v.esclave.pc with
  | envoie e r =>
    cases r with
    | true => rw [hpc] at h; cases h
    | false => rfl
  | requete | nom | nomPut | taillePut | recoit | nomGet | okGet => rfl
  | _ => simp only [hpc, EnSession] at h

theorem reprise_reprend {v : Voie} (ph : Phase) (h : Reprend v.esclave.pc) :
    v.reprise ph = some (transfert v.esclave) := by
  unfold Voie.reprise
  cases hpc : v.esclave.pc with
  | envoie e r =>
    cases r with
    | true => rfl
    | false => rw [hpc] at h; cases h
  | repr1 | repr2 | repr3 | repr4 => rfl
  | _ => simp only [hpc, Reprend] at h

/-! ## The steps of the master -/

theorem fileName_some {l : List Fiche} {ip nom : Octets} (h : fileName l ip = some nom) :
    ∃ f, l.find? (·.ip = ip) = some f ∧ f.ip = ip ∧ f.filename = nom := by
  cases hf : l.find? (·.ip = ip) with
  | none =>
    have hc : contain l ip = false := by
      by_contra hc
      obtain ⟨f, hf', -⟩ := contain_find (by simpa using hc)
      rw [hf] at hf'; cases hf'
    rw [fileName_absent hc] at h
    cases h
  | some f =>
    rw [fileName_eq hf, Option.some.injEq] at h
    exact ⟨f, rfl, by simpa using List.find?_some hf, h⟩

/-- a message of a slave that the master does not wait for; what the slave resumes does not change -/
theorem accord_boucle {l : List Fiche} {busy : Bool} {v : Voie} {m : Msg} {reste : List Msg}
    (h : Accord l .libre busy v) (hv : v.de = m :: reste) :
    (m = .ent Code.ok ∧ Accord l .libre busy { v with de := reste }) ∨
      (∃ c, m = .ent c ∧ (c = Code.slaveFinished ∨ c = Code.clientCrashed) ∧
        Accord l .libre false { v with de := reste }) ∨
      (m = .ent Code.clientCrashedDuringTransfert ∧
        Accord l .rapIp false (Voie.recoit { v with de := reste } [.ent Code.ok]) ∧
        (Voie.recoit { v with de := reste } [.ent Code.ok]).reprise .rapIp = v.reprise .libre) := by
  cases h with
  | libre a f n de ρ hde =>
    rcases hde with rfl | rfl <;> cases hv
    exact Or.inr (Or.inl ⟨_, rfl, Or.inr rfl, .libre _ _ _ _ _ (Or.inl rfl)⟩)
  | perdu a f n de ρ hde =>
    rcases hde with rfl | rfl <;> cases hv
    exact Or.inl ⟨rfl, .perdu _ _ _ _ _ (Or.inl rfl)⟩
  | malAttente a f n de ρ hde =>
    rcases hde with rfl | rfl <;> cases hv
    exact Or.inl ⟨rfl, .malAttente _ _ _ _ _ (Or.inl rfl)⟩
  | session pc a f n de ρ hpc hde =>
    rcases hde with rfl | rfl <;> cases hv
    exact Or.inl ⟨rfl, .session _ _ _ _ _ _ hpc (Or.inl rfl)⟩
  | fin a f n de c ρ hde hc =>
    rcases hde with rfl | rfl <;> cases hv
    · exact Or.inr (Or.inl ⟨_, rfl, hc, .libre _ _ _ _ _ (Or.inl rfl)⟩)
    · exact Or.inl ⟨rfl, .fin _ _ _ [] _ _ (Or.inl rfl) hc⟩
  | rapport a f n nb r de hde =>
    rcases hde with rfl | rfl <;> cases hv
    · exact Or.inr (Or.inr ⟨rfl, .okRapport _ _ _ _ _, by cases r <;> rfl⟩)
    · exact Or.inl ⟨rfl, .rapport _ _ _ _ _ [] (Or.inl rfl)⟩
  | _ => cases hv

/-- the answer of a slave to an address: its OK, which leaves nothing behind, or the second notification of a resumed
session, read in its place -/
theorem accord_adresse {l : List Fiche} {ip : Octets} {busy : Bool} {v : Voie} {m : Msg} {reste : List Msg}
    (h : Accord l (.adresse ip) busy v) (hv : v.de = m :: reste) :
    (m = .ent Code.ok ∧ reste = [] ∧ ∃ a f n ρ, ip = cstr a ∧ busy = true ∧
        v = ⟨⟨.attReponse, a, f, n⟩, [], [.ent Code.ok], ρ⟩) ∨
      (m = .ent Code.clientCrashed ∧ Accord l .libre busy { v with de := reste } ∧
        ({ v with de := reste } : Voie).reprise .libre = v.reprise (.adresse ip)) := by
  cases h with
  | adresse a f n b de ρ hb hde =>
    rcases hde with rfl | rfl <;> cases hv
    exact Or.inr ⟨rfl, .mal _ _ _ _ _ hb, rfl⟩
  | okAdresse a f n de ρ hde =>
    rcases hde with rfl | rfl <;> cases hv
    · exact Or.inl ⟨rfl, rfl, a, f, n, ρ, rfl, rfl, rfl⟩
    · exact Or.inr ⟨rfl, .malAttente _ _ _ _ _ (Or.inr rfl), rfl⟩

/-- the relay takes out the record that it has sent -/
theorem retire_relais {s : Maitre.Etat N} {a f : Octets} {ub : List Fiche}
    (h : fileName s.unfinished (cstr a) = some (cstr f)) (hr : removeByIp s.unfinished (cstr a) ≠ none) :
    s.unfinished =
      ⟨cstr a, bytes s.unfinished (cstr a), cstr f⟩ :: (retire s (cstr a) ub).unfinished := by
  obtain ⟨g, hg, hip, hnom⟩ := fileName_some h
  obtain ⟨l', hl'⟩ := Option.ne_none_iff_exists'.1 hr
  have hliste := removeByIp_eq hg hl'
  have hfiche : (⟨cstr a, bytes s.unfinished (cstr a), cstr f⟩ : Fiche) = g := by
    rw [bytes_eq hg, ← hip, ← hnom]
  rw [hfiche]
  simpa [retire, hl'] using hliste

theorem accord_lu {ub : List Fiche} {s s' : Maitre.Etat N} {i : Fin N} {v : Voie} {m : Msg} {reste : List Msg} {k : ℕ}
    {o : List (Fin N × Msg)} (d : List Fiche) (h : Accord s.unfinished (s.pc.phase i) (s.busy i) v)
    (hv : v.de = m :: reste) (hs : Maitre.step ub s (.recu i (m.coupe k)) = some (s', o))
    (hbon : BonMaitre s (m.coupe k)) :
    Accord s'.unfinished (s'.pc.phase i) (s'.busy i) (Voie.recoit { v with de := reste } (ecrits o i)) ∧
      Bilan s.unfinished s'.unfinished (v.reprise (s.pc.phase i))
        ((Voie.recoit { v with de := reste } (ecrits o i)).reprise (s'.pc.phase i)) d
        (enregistre s.pc v (m.coupe k) d) := by
  have hr := step_recu hs
  generalize hm : m.coupe k = msg at hr hbon ⊢
  cases hr with
  | rien c hpc hfin hrap =>
    rw [hpc] at h
    rw [ecrits_nil, recoit_nil, hpc]
    rcases accord_boucle h hv with ⟨-, ha⟩ | ⟨c, rfl, hc, -⟩ | ⟨rfl, -⟩
    · exact ⟨ha, .rien _ _ _⟩
    · cases hm; exact absurd hc hfin
    · cases hm; exact absurd rfl hrap
  | fin c hpc hfin =>
    rw [hpc] at h ⊢
    rcases accord_boucle h hv with ⟨rfl, -⟩ | ⟨c, -, hc, ha⟩ | ⟨rfl, -⟩
    · cases hm; exact absurd hfin (by decide)
    · rw [ecrits_nil, recoit_nil]
      exact ⟨by simpa [Pc.phase] using ha, .rien _ _ _⟩
    · cases hm; exact absurd hfin (by decide)
  | rapport hpc =>
    rw [hpc] at h ⊢
    rcases accord_boucle h hv with ⟨rfl, -⟩ | ⟨c, rfl, hc, -⟩ | ⟨-, ha, hrep⟩
    · cases hm
    · cases hm; exact absurd hc (by decide)
    · simp only [Pc.phase, if_true, ecrits_self, hrep]
      exact ⟨by simpa using ha, .rien _ _ _⟩
  | crash ip hpc hc =>
    simp only [hpc, Pc.phase, if_true, ecrits_self] at h ⊢
    rcases accord_adresse h hv with ⟨-, rfl, a, f, n, ρ, rfl, hbusy, rfl⟩ | ⟨rfl, -⟩
    · rw [hbusy]
      exact ⟨.crash _ _ _ _, .rien _ _ _⟩
    · cases hm
  | defaut ip hpc =>
    simp only [hpc, Pc.phase, if_true, ecrits_self] at h ⊢
    rcases accord_adresse h hv with ⟨-, rfl, a, f, n, ρ, rfl, hbusy, rfl⟩ | ⟨rfl, -⟩
    · rw [hbusy]
      exact ⟨.defaut _ _ _ _, .rien _ _ _⟩
    · cases hm
  | adresseRefusee ip c hpc hc =>
    simp only [hpc, Pc.phase, if_true, ecrits_nil, recoit_nil] at h ⊢
    rcases accord_adresse h hv with ⟨rfl, -⟩ | ⟨-, ha, hrep⟩
    · cases hm; exact absurd rfl hc
    · rw [hrep]
      exact ⟨ha, .rien _ _ _⟩
  | nom ip nom hpc hnom =>
    have hne : nom ≠ [] := by
      intro he
      simp only [BonMaitre, hpc] at hbon
      exact hbon (he ▸ hnom)
    simp only [hpc, Pc.phase, if_true, ecrit, if_neg hne, List.map_cons, List.map_nil, ecrits_self] at h ⊢
    generalize s.busy i = busy at h ⊢
    cases h with
    | crash => cases hv
    | okCrash a f n ρ =>
      cases hv
      exact ⟨.nom _ _ _ _ _ hnom, .rien _ _ _⟩
  | crashRefuse ip c hpc hc =>
    simp only [hpc, Pc.phase, if_true] at h
    generalize s.busy i = busy at h
    cases h <;> cases hv
    cases hm
    exact absurd rfl hc
  | offset ip nb c hpc =>
    simp only [BonMaitre, hpc] at hbon
    simp only [hpc, Pc.phase, if_true] at h ⊢
    generalize hb : s.busy i = busy at h ⊢
    cases h with
    | nom => cases hv
    | okNom a f n ρ hf =>
      cases hv
      cases hm
      rw [if_pos rfl, ecrits_self]
      refine ⟨?_, ?_⟩
      · simp only [retire, hb]
        exact .offset _ _ _ _ _
      · have hprend := Bilan.prend ⟨cstr a, bytes s.unfinished (cstr a), cstr f⟩ (retire s (cstr a) ub).unfinished d
        rw [← retire_relais hf hbon] at hprend
        exact hprend
  | regIp b hpc hb =>
    simp only [hpc, Pc.phase, if_true, ecrits_self] at h ⊢
    generalize s.busy i = busy at h ⊢
    cases h with
    | okRapport => cases hv
    | rapIp a f n nb r =>
      cases hv
      cases hm
      rw [cstr_take_of_mem hb.2]
      exact ⟨.okIp _ _ _ _ _, by cases r <;> exact .rien _ _ _⟩
  | regNb ip nb hpc =>
    simp only [hpc, Pc.phase, if_true, ecrits_self] at h ⊢
    generalize s.busy i = busy at h ⊢
    cases h with
    | okIp => cases hv
    | rapNb a f n nb r =>
      cases hv
      cases hm
      exact ⟨.okNb _ _ _ _ _, by cases r <;> exact .rien _ _ _⟩
  | regNom ip nb b hpc hb =>
    simp only [hpc, Pc.phase, if_true, ecrits_nil, recoit_nil] at h ⊢
    generalize s.busy i = busy at h ⊢
    cases h with
    | okNb => cases hv
    | rapNom a f n nb r de hde =>
      cases hv
      cases hm
      rw [add, cstr_take_of_mem hb.2]
      refine ⟨.libre _ _ _ _ _ hde, ?_⟩
      cases r with
      | true => exact .echange _ _ _ _
      | false => exact .depose _ _ _

/-! ## The steps of a slave -/

/-- the slave reads a message of the master: what it resumes does not change -/
theorem accord_lit {l : List Fiche} {ph : Phase} {busy : Bool} {v : Voie} {m : Msg} {reste : List Msg} {d : Disque}
    {p : Esclave.Etat × List Esclave.Sortie} (h : Accord l ph busy v) (hv : v.vers = m :: reste)
    (hp : Esclave.step d v.esclave (some m) = some p) (hb : BonEsclave d v.esclave m) :
    Accord l ph busy (Voie.apres { v with vers := reste } p) ∧
      (Voie.apres { v with vers := reste } p).reprise ph = v.reprise ph := by
  cases h with
  | mal a f n b ρ hadr =>
    cases hv
    have hx : d.connexion = true := hb
    simp only [Esclave.step, if_pos (Nat.le_of_eq hadr.1), hx, if_true, Option.some.injEq] at hp
    subst hp
    exact ⟨.malAttente _ _ _ _ _ (Or.inr rfl), rfl⟩
  | adresse a f n b de ρ hadr hde =>
    cases hv
    have hx : d.connexion = true := hb
    simp only [Esclave.step, if_pos (Nat.le_of_eq hadr.1), hx, if_true, Option.some.injEq] at hp
    subst hp
    refine ⟨?_, rfl⟩
    rw [← cstr_readInto_of_mem a hadr.2]
    exact .okAdresse _ _ _ _ _ hde
  | defaut a f n ρ =>
    cases hv
    simp only [Esclave.step] at hp
    rw [if_neg (by decide), if_pos trivial, Option.some.injEq] at hp
    subst hp
    exact ⟨.session _ _ _ _ _ _ trivial (Or.inr rfl), rfl⟩
  | crash a f n ρ =>
    cases hv
    simp only [Esclave.step] at hp
    rw [if_pos trivial, Option.some.injEq] at hp
    subst hp
    exact ⟨.okCrash _ _ _ _, rfl⟩
  | nom a f n nom ρ hf =>
    cases hv
    have hcs : cstr (readInto f nom) = nom := hb
    simp only [Esclave.step] at hp
    split_ifs at hp
    cases hp
    exact ⟨.okNom _ _ _ _ (by rw [hf, hcs]), rfl⟩
  | offset a f n nb ρ =>
    cases hv
    cases hp
    exact ⟨.reprise _ _ _ _ _ trivial, rfl⟩
  | okRapport a f n nb r =>
    cases hv
    simp only [Esclave.step] at hp
    rw [if_pos trivial, Option.some.injEq] at hp
    subst hp
    exact ⟨.rapIp _ _ _ _ _, by cases r <;> rfl⟩
  | okIp a f n nb r =>
    cases hv
    simp only [Esclave.step] at hp
    rw [if_pos trivial, Option.some.injEq] at hp
    subst hp
    exact ⟨.rapNb _ _ _ _ _, by cases r <;> rfl⟩
  | okNb a f n nb r =>
    cases hv
    simp only [Esclave.step] at hp
    rw [if_pos trivial] at hp
    cases r with
    | true => cases hp; exact ⟨.rapNom _ _ _ _ _ _ (Or.inr rfl), rfl⟩
    | false => cases hp; exact ⟨.rapNom _ _ _ _ _ _ (Or.inl rfl), rfl⟩
  | _ => cases hv

theorem versMaitre_map_client (l : List Msg) :
    (l.map Esclave.Sortie.client).filterMap Esclave.Sortie.versMaitre = [] := by
  induction l with
  | nil => rfl
  | cons m l ih => exact ih

/-- what a step of a session that resumes nothing leaves, and what it writes to the master -/
inductive Suite : Esclave.Pc → List Msg → Prop
  | session (pc : Esclave.Pc) (hpc : EnSession pc) : Suite pc []
  -- the slave closes without a word
  | perdu : Suite .lireAdresse []
  | fin (v : ℤ) (hv : v = Code.slaveFinished ∨ v = Code.clientCrashed) : Suite .lireAdresse [.ent v]
  | rapport (nb : ℤ) : Suite (.rapport1 nb false) [.ent Code.clientCrashedDuringTransfert]

theorem boucleEnvoi_session {s : Esclave.Etat} {e : Envoi} {p : Esclave.Etat × List Esclave.Sortie}
    (h : Esclave.boucleEnvoi s e false = some p) : Suite p.1.pc (p.2.filterMap Esclave.Sortie.versMaitre) := by
  unfold Esclave.boucleEnvoi at h
  split_ifs at h <;> cases h
  · rw [versMaitre_map_client]
    exact .session (.envoie e.lit false) trivial
  · exact .session .requete trivial

theorem execute_session {d : Disque} {s : Esclave.Etat} {cmd : ℤ} {p : Esclave.Etat × List Esclave.Sortie}
    (hpc : s.pc = .requete) (hls : cmd = Code.ls → Esclave.listable d ≠ none)
    (h : Esclave.execute d s cmd = some p) : Suite p.1.pc (p.2.filterMap Esclave.Sortie.versMaitre) := by
  have hs : EnSession s.pc := by rw [hpc]; trivial
  unfold Esclave.execute at h
  split_ifs at h with he hl
  · cases h; exact .fin _ (Or.inl rfl)
  · split at h
    · cases h; rw [versMaitre_map_client]; exact .session _ hs
    · rename_i hn
      exact absurd hn (hls hl)
  · cases h; rw [versMaitre_map_client]; exact .session _ hs
  all_goals cases h; first | exact .session _ trivial | exact .session _ hs

/-- the client of a session that resumes nothing -/
theorem step_session {d : Disque} {e : Esclave.Etat} {m : Option Msg} {p : Esclave.Etat × List Esclave.Sortie}
    (hs : EnSession e.pc) (hb : BonClient d e m) (h : Esclave.step d e m = some p) :
    Suite p.1.pc (p.2.filterMap Esclave.Sortie.versMaitre) := by
  cases hpc : e.pc with
  | requete =>
    rcases m with _ | v | b <;> simp only [Esclave.step, hpc] at h
    · cases h; exact .fin _ (Or.inr rfl)
    · exact execute_session hpc (by simpa [BonClient, hpc] using hb) h
    · cases h
  | nom cmd =>
    rcases m with _ | v | b <;> simp only [Esclave.step, hpc] at h
    · cases h; exact .fin _ (Or.inr rfl)
    · cases h
    · split_ifs at h; cases h; exact .session _ trivial
  | nomPut =>
    rcases m with _ | v | b <;> simp only [Esclave.step, hpc] at h
    · cases h; exact .fin _ (Or.inr rfl)
    · cases h
    · split_ifs at h
      unfold Esclave.ouvrePut at h
      split at h <;> cases h <;> exact .session _ trivial
  | taillePut f =>
    rcases m with _ | v | b <;> simp only [Esclave.step, hpc] at h
    · cases h; exact .fin _ (Or.inr rfl)
    · split_ifs at h <;> cases h <;> exact .session _ trivial
    · cases h
  | recoit r =>
    rcases m with _ | v | b <;> simp only [Esclave.step, hpc] at h
    · simp [BonClient, hpc] at hb
    · cases h
    · split_ifs at h <;> cases h <;> exact .session _ trivial
  | nomGet =>
    rcases m with _ | v | b <;> simp only [Esclave.step, hpc] at h
    · cases h; exact .fin _ (Or.inr rfl)
    · cases h
    · split_ifs at h
      unfold Esclave.ouvreGet at h
      split at h
      · split_ifs at h <;> cases h <;> exact .session _ trivial
      · cases h; exact .session _ trivial
  | okGet v =>
    rcases m with _ | c | b <;> simp only [Esclave.step, hpc] at h
    · cases h; exact .fin _ (Or.inr rfl)
    · split_ifs at h
      · obtain ⟨q, hq, rfl⟩ := Option.map_eq_some_iff.1 h
        have hsuite := boucleEnvoi_session hq
        exact hsuite
      · cases h; exact .perdu
    · cases h
  | envoie v r =>
    obtain rfl : r = false := by
      cases r with
      | false => rfl
      | true => rw [hpc] at hs; cases hs
    rcases m with _ | c | b <;> simp only [Esclave.step, hpc] at h
    · simp only [Esclave.silenceEnvoi, Bool.false_eq_true, if_false] at h
      split_ifs at h <;> cases h
      · exact .fin _ (Or.inr rfl)
      · exact .rapport _
    · exact boucleEnvoi_session h
    · cases h
  | _ => rw [hpc] at hs; cases hs

/-- what a step of a slave in a resume of `t` leaves, what it writes to the master, and the transfers that it ends -/
inductive SuiteReprise (t : Fiche) : Esclave.Etat → List Msg → List Fiche → Prop
  | reprise (e : Esclave.Etat) (ht : transfert e = t) (hpc : Reprend e.pc) : SuiteReprise t e [] []
  | fin (e : Esclave.Etat) (hpc : e.pc = .requete) : SuiteReprise t e [] [t]
  | rapport (e : Esclave.Etat) (nb : ℤ) (ht : transfert e = t) (hpc : e.pc = .rapport1 nb true) :
      SuiteReprise t e [.ent Code.clientCrashedDuringTransfert] []

theorem reprend_debut {f : Octets} {nb n : ℤ} (h : n = f.length) : Reprend (.repr4 (Envoi.debut f nb n)) := h

theorem envoye_map_client (e : Esclave.Etat) (l : List Msg) :
    (l.map Esclave.Sortie.client).filterMap (envoye e) = [] := by
  induction l with
  | nil => rfl
  | cons m l ih => exact ih

theorem boucleEnvoi_reprise {s : Esclave.Etat} {e : Envoi} {p : Esclave.Etat × List Esclave.Sortie}
    (he : e.nbOctets = e.fichier.length) (h : Esclave.boucleEnvoi s e true = some p) :
    SuiteReprise (transfert s) p.1 (p.2.filterMap Esclave.Sortie.versMaitre) (p.2.filterMap (envoye s)) := by
  unfold Esclave.boucleEnvoi at h
  split_ifs at h with hen <;> cases h
  · rw [versMaitre_map_client, envoye_map_client]
    exact .reprise _ rfl he
  · -- the count has reached the size announced
    have hle : (e.fichier.length : ℤ) ≤ e.nb := by rw [← he]; exact Int.not_lt.1 hen
    have hfin : [Esclave.Sortie.fin (cstr s.filename) e].filterMap (envoye s) = [transfert s] := by
      simp [envoye, hle, transfert]
    rw [hfin]
    exact .fin _ rfl

/-- the client of a resume -/
theorem step_reprise {d : Disque} {e : Esclave.Etat} {m : Option Msg} {p : Esclave.Etat × List Esclave.Sortie}
    (hr : Reprend e.pc) (hb : BonClient d e m) (h : Esclave.step d e m = some p) :
    SuiteReprise (transfert e) p.1 (p.2.filterMap Esclave.Sortie.versMaitre) (acheve e p.2) := by
  cases hpc : e.pc with
  | repr1 =>
    obtain rfl : m = some (.ent Code.ok) := by simpa [BonClient, hpc] using hb
    simp only [Esclave.step, hpc] at h
    rw [if_pos trivial, Option.some.injEq] at h
    subst h
    simp only [acheve, hpc]
    rw [versMaitre_map_client]
    exact .reprise _ rfl trivial
  | repr2 =>
    obtain rfl : m = some (.ent Code.ok) := by simpa [BonClient, hpc] using hb
    simp only [Esclave.step, hpc] at h
    rw [if_pos trivial, Option.some.injEq] at h
    subst h
    simp only [acheve, hpc]
    exact .reprise _ rfl trivial
  | repr3 =>
    simp only [BonClient, hpc] at hb
    obtain ⟨rfl, f, hl, hst, hlen⟩ := hb
    simp only [Esclave.step, hpc] at h
    rw [if_pos trivial, Esclave.ouvreReprise_ok hl hst, Option.some.injEq] at h
    subst h
    simp only [acheve, hpc]
    exact .reprise _ rfl (reprend_debut (versInt_eq hlen))
  | repr4 v =>
    rw [hpc] at hr
    obtain rfl : m = some (.ent Code.ok) := by simpa [BonClient, hpc] using hb
    simp only [Esclave.step, hpc] at h
    rw [if_pos trivial] at h
    obtain ⟨q, hq, rfl⟩ := Option.map_eq_some_iff.1 h
    simp only [acheve, hpc]
    exact boucleEnvoi_reprise hr hq
  | envoie v r =>
    obtain rfl : r = true := by
      cases r with
      | false => rw [hpc] at hr; exact hr.elim
      | true => rfl
    rw [hpc] at hr
    rcases m with _ | c | b <;> simp only [Esclave.step, hpc] at h
    · have hv : (maxline : ℤ) ≤ v.nb := by simpa [BonClient, hpc] using hb
      have hlt : v.nbOctets + 1 < 2 ^ 31 := by
        by_contra hlt
        rw [Esclave.silenceEnvoi, if_neg hlt] at h
        cases h
      rw [Esclave.silenceEnvoi, if_pos hlt, if_neg (by omega), Option.some.injEq] at h
      subst h
      simp only [acheve, hpc]
      exact .rapport _ _ rfl rfl
    · simp only [acheve, hpc]
      exact boucleEnvoi_reprise hr h
    · cases h
  | _ => rw [hpc] at hr; exact hr.elim

theorem acheve_session {e : Esclave.Etat} (h : EnSession e.pc) (o : List Esclave.Sortie) : acheve e o = [] := by
  unfold acheve
  cases hpc : e.pc with
  | envoie v r =>
    cases r with
    | true => rw [hpc] at h; exact h.elim
    | false => rfl
  | requete | nom | nomPut | taillePut | recoit | nomGet | okGet => rfl
  | _ => simp only [hpc, EnSession] at h

/-- the slave hears its client, or nothing: what it resumes does not change, or is brought to its end -/
theorem accord_client {l : List Fiche} {ph : Phase} {busy : Bool} {v : Voie} {d : Disque} {m : Option Msg}
    {p : Esclave.Etat × List Esclave.Sortie} (dus : List Fiche) (h : Accord l ph busy v)
    (hec : v.esclave.pc.ecoute = some .client) (hb : BonClient d v.esclave m)
    (hp : Esclave.step d v.esclave m = some p) :
    Accord l ph busy (v.apres p) ∧
      Bilan l l (v.reprise ph) ((v.apres p).reprise ph) dus (dus.diff (acheve v.esclave p.2)) := by
  obtain ⟨e', o⟩ := p
  cases h with
  | session pc a f n de ρ hpc hde =>
    have hs := step_session (e := ⟨pc, a, f, n⟩) hpc hb hp
    rw [acheve_session (e := ⟨pc, a, f, n⟩) hpc, List.diff_nil, reprise_session _ hpc]
    obtain ⟨pc', a', f', n'⟩ := e'
    simp only [Voie.apres] at hs ⊢
    generalize o.filterMap Esclave.Sortie.versMaitre = o' at hs
    cases hs with
    | session _ hpc' =>
      rw [List.append_nil, reprise_session _ hpc']
      exact ⟨.session _ _ _ _ _ _ hpc' hde, .rien _ _ _⟩
    | perdu =>
      rw [List.append_nil]
      exact ⟨.perdu _ _ _ _ _ hde, .rien _ _ _⟩
    | fin c hc => exact ⟨.fin _ _ _ _ _ _ hde hc, .rien _ _ _⟩
    | rapport nb => exact ⟨.rapport _ _ _ _ _ _ hde, .rien _ _ _⟩
  | reprise pc a f n ρ hpc =>
    have hs := step_reprise (e := ⟨pc, a, f, n⟩) hpc hb hp
    rw [reprise_reprend _ hpc]
    obtain ⟨pc', a', f', n'⟩ := e'
    simp only [Voie.apres] at hs ⊢
    generalize o.filterMap Esclave.Sortie.versMaitre = o' at hs ⊢
    generalize acheve ⟨pc, a, f, n⟩ o = l' at hs ⊢
    cases hs with
    | reprise ht hpc' =>
      rw [List.diff_nil, reprise_reprend _ hpc', ht]
      exact ⟨.reprise _ _ _ _ _ hpc', .rien _ _ _⟩
    | fin hpc' =>
      cases hpc'
      rw [List.diff_cons, List.diff_nil]
      exact ⟨.session .requete _ _ _ _ _ trivial (Or.inl rfl), .acheve _ _ _⟩
    | rapport nb ht hpc' =>
      cases hpc'
      rw [List.diff_nil, ← ht]
      exact ⟨.rapport _ _ _ _ _ [] (Or.inl rfl), .rien _ _ _⟩
  | libre | perdu | mal | malAttente | adresse | okAdresse | defaut | crash | okCrash | nom | okNom | offset | fin
    | rapport | okRapport | rapIp | okIp | rapNb | okNb | rapNom => cases hec

end Semestre6.Ftp.Systeme
