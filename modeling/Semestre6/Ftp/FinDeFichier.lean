/-
A session of the slave whose client closes its socket (slave.c). From then on select reports the socket readable and
read returns 0, which leaves the variable of the read as it was; what the slave writes is lost.

- `quitte_iff`: the slave leaves the session having notified the master exactly when what the client did before the
  close already made it notify, or when a recovery session closes before any reply and `info` does not hold OK;
- `requete_sans_fin`, `recoit_sans_fin`: at end of file the command loop and the loop of `reception_fichier` come back
  to the state they were in.
Witness that the condition is needed: `ferme_au_repos`, a client that closes its socket between two commands.
-/
import Semestre6.Ftp.Esclave

namespace Semestre6.Ftp.FinDeFichier

open Octets Transition Esclave

/-! ## The reads -/

/-- what the environment has for the next wait: the files, and silence or what the read gives -/
structure Arrivee where
  disque : Disque
  silence : Bool
  ent : ℤ
  octets : Octets

/-- the waits that read a name or data; the others read an int -/
def litOctets : Pc → Bool
  | .lireAdresse | .nomCrash | .nom _ | .nomPut | .nomGet | .recoit _ => true
  | _ => false

def Arrivee.lu (a : Arrivee) (pc : Pc) : Option Msg :=
  if a.silence then none else if litOctets pc then some (.octets a.octets) else some (.ent a.ent)

/-- the process, and the variables that a read of 0 bytes leaves as they are -/
structure Memoire where
  etat : Etat
  /-- `info` of main -/
  info : ℤ
  /-- `nb_octets` of main -/
  nbOctets : ℤ
  /-- `info` of `envoi_info_crash_to_client`, which nothing initialises -/
  infoReprise : ℤ

/-- `nb_octets` after the open of a get -/
def tailleGet (d : Disque) (nom : Octets) (vieux : ℤ) : ℤ :=
  match d.lecture nom with
  | some f => if d.stat nom then versInt f.length else vieux
  | none => -1

/-- the variables after the read -/
def Memoire.retient (s : Memoire) (d : Disque) (m : Option Msg) : Memoire :=
  match s.etat.pc, m with
  | .okGet _, some (.ent v) => { s with info := v }
  | .taillePut _, some (.ent v) => { s with nbOctets := v }
  | .nomGet, some (.octets b) => { s with nbOctets := tailleGet d (cstr (lireNom s.etat.filename b)) s.nbOctets }
  | .repr1, some (.ent v) | .repr2, some (.ent v) | .repr3, some (.ent v) | .repr4 _, some (.ent v) =>
    { s with infoReprise := v }
  | _, _ => s

/-- what the variable of the read holds when nothing is read -/
def Memoire.reste (s : Memoire) : Msg :=
  match s.etat.pc with
  | .okGet _ => .ent s.info
  | .taillePut _ => .ent s.nbOctets
  | .repr1 | .repr2 | .repr3 | .repr4 _ => .ent s.infoReprise
  -- `info` of `envoi_fichier_au_client`, which is only compared to print
  | .envoie _ _ => .ent 0
  | _ => .octets []

def attend (s : Memoire) (d : Disque) (m : Option Msg) : Option (Memoire × List Sortie) :=
  (step d s.etat m).map fun p => ({ s.retient d m with etat := p.1 }, p.2)

/-- a read of 0 bytes; only the command loop looks at what read returns -/
def finDeFichier (s : Memoire) (d : Disque) : Option (Memoire × List Sortie) :=
  match s.etat.pc with
  | .requete => some (s, [])
  | _ => attend s d (some s.reste)

/-- a wait of the slave, before or after the client has closed its socket -/
inductive Evenement where
  | ouvert (a : Arrivee)
  | clos (a : Arrivee)

/-- one wait of the session; nothing is read once it is over -/
def pas (s : Memoire) (e : Evenement) : Option (Memoire × List Sortie) :=
  if s.etat.HorsSession then some (s, [])
  else match e with
    | .ouvert a => attend s a.disque (a.lu s.etat.pc)
    | .clos a =>
      if s.etat.pc.ecoute = some .client then finDeFichier s a.disque else attend s a.disque (a.lu s.etat.pc)

/-- the session starts with the command loop, or with the recovery exchange -/
def debutSession (reprise : Bool) (s : Memoire) : Memoire :=
  { s with etat := { s.etat with pc := if reprise then .repr1 else .requete } }

/-- the waits of a session: those of `l`, then `n` after the close -/
def cours (l : List Arrivee) (g : ℕ → Arrivee) (n : ℕ) : List Evenement :=
  l.map .ouvert ++ (List.range n).map fun i => .clos (g i)

/-- after finitely many waits the session is over and the master has been notified -/
def Quitte (s : Memoire) (l : List Arrivee) (g : ℕ → Arrivee) : Prop :=
  ∃ n t o, runO pas s (cours l g n) = some (t, o) ∧ t.etat.HorsSession ∧ 0 < nbAvis o

/-- the message or the silence makes the slave notify the master: EXIT read as a command, a reply other than OK in the
recovery exchange, a silence of the client except in the data of a put, and except where the `nb_octets+1` that ends the
loop of a get is past the range of int -/
def Avise (s : Etat) (m : Option Msg) : Prop :=
  match s.pc, m with
  | .requete, some (.ent v) => v = Code.exit
  | .repr1, some (.ent v) | .repr2, some (.ent v) | .repr3, some (.ent v) | .repr4 _, some (.ent v) => v ≠ Code.ok
  | .recoit _, none => False
  | .envoie e _, none => e.nbOctets + 1 < 2 ^ 31
  | pc, none => pc.ecoute = some .client
  | _, _ => False

/-- the wait makes the slave notify the master; at end of file, only the first of the recovery exchange, when the
variable that it reads does not hold OK -/
def Avertit (s : Memoire) : Evenement → Prop
  | .ouvert a => Avise s.etat (a.lu s.etat.pc)
  | .clos _ => s.etat.pc = .repr1 ∧ s.infoReprise ≠ Code.ok

/-! ## One wait -/

/-- the waits of the session loop -/
def Boucle (pc : Pc) : Prop :=
  match pc with
  | .requete | .nom _ | .nomPut | .taillePut _ | .recoit _ | .nomGet | .okGet _ | .envoie _ _ => True
  | _ => False

/-- the waits of the recovery exchange after its first reply -/
def EnReprise (pc : Pc) : Prop :=
  match pc with
  | .repr2 | .repr3 | .repr4 _ => True
  | _ => False

/-- where a wait that does not notify the master leads -/
def Suite (s : Etat) (m : Option Msg) (s' : Etat) : Prop :=
  s'.HorsSession ∨ Boucle s'.pc ∨
    EnReprise s'.pc ∧ (s.pc = .repr1 ∨ EnReprise s.pc) ∧ m = some (.ent Code.ok)

variable {s s' : Etat} {d : Disque} {m : Option Msg} {o : List Sortie} {r : Bool}

theorem boucleEnvoi_suite {e : Envoi} (h : boucleEnvoi s e r = some (s', o)) : nbAvis o = 0 ∧ Boucle s'.pc := by
  refine ⟨(boucleEnvoi_bilan h).1, ?_⟩
  unfold boucleEnvoi at h
  split_ifs at h <;> cases h <;> trivial

theorem envoiFichier_suite {e : Envoi} (h : envoiFichierAuClient s e r = some (s', o)) :
    nbAvis o = 0 ∧ Boucle s'.pc := by
  refine ⟨(envoiFichier_bilan h).1, ?_⟩
  simp only [envoiFichierAuClient, Option.map_eq_some_iff] at h
  obtain ⟨⟨t, o'⟩, hb, he⟩ := h
  obtain ⟨rfl, -⟩ := Prod.mk.inj he
  exact (boucleEnvoi_suite hb).2

theorem ouvrePut_suite (h : ouvrePut d s = some (s', o)) : nbAvis o = 0 ∧ Boucle s'.pc := by
  refine ⟨(ouvrePut_bilan h).1, ?_⟩
  unfold ouvrePut at h
  split at h <;> cases h <;> trivial

theorem ouvreGet_suite (h : ouvreGet d s = some (s', o)) : nbAvis o = 0 ∧ Boucle s'.pc := by
  refine ⟨(ouvreGet_bilan h).1, ?_⟩
  unfold ouvreGet at h
  split at h
  · split_ifs at h <;> cases h <;> trivial
  · cases h
    trivial

theorem ouvreReprise_suite (h : ouvreReprise d s = some (s', o)) :
    nbAvis o = 0 ∧ (Boucle s'.pc ∨ EnReprise s'.pc) := by
  refine ⟨(ouvreReprise_bilan h).1, ?_⟩
  unfold ouvreReprise at h
  split at h
  · split_ifs at h <;> cases h
    · exact .inr trivial
    · exact .inl trivial
  · cases h
    exact .inl trivial

/-- a command other than EXIT -/
theorem execute_suite {v : ℤ} (hpc : s.pc = .requete) (hv : v ≠ Code.exit) (h : execute d s v = some (s', o)) :
    nbAvis o = 0 ∧ (s'.HorsSession ∨ Boucle s'.pc) := by
  unfold execute at h
  rw [if_neg hv] at h
  split_ifs at h
  · split at h
    · cases h
      exact ⟨nbAvis_map_client _, .inr (by rw [hpc]; trivial)⟩
    · cases h
      exact ⟨rfl, .inl (.inr rfl)⟩
  · cases h
    exact ⟨nbAvis_map_client _, .inr (by rw [hpc]; trivial)⟩
  · cases h
    exact ⟨rfl, .inr trivial⟩
  · cases h
    exact ⟨rfl, .inr trivial⟩
  · cases h
    exact ⟨rfl, .inr trivial⟩
  · cases h
    exact ⟨rfl, .inr (by rw [hpc]; trivial)⟩

/-- a wait on the client is in the session -/
theorem enSession (h : s.pc.ecoute = some .client) : ¬s.HorsSession := by
  intro hh
  rcases hh with hh | hh
  · rw [hh] at h
    cases h
  · rw [hh] at h
    cases h

theorem Avise.client (h : Avise s m) : s.pc.ecoute = some .client := by
  unfold Avise at h
  split at h
  · rw [‹s.pc = _›]
    rfl
  · rw [‹s.pc = _›]
    rfl
  · rw [‹s.pc = _›]
    rfl
  · rw [‹s.pc = _›]
    rfl
  · rw [‹s.pc = _›]
    rfl
  · cases h
  · rw [‹s.pc = _›]
    rfl
  · exact h
  · cases h

/-- the silence of the client in the data of a get or of a resume -/
theorem silenceEnvoi_avis {e : Envoi} (he : e.nbOctets + 1 < 2 ^ 31) :
    ∃ s' o, silenceEnvoi s e r = some (s', o) ∧ Acheve s' ∧ 0 < nbAvis o := by
  unfold silenceEnvoi repriseFermee
  rw [if_pos he]
  split_ifs
  · exact ⟨_, _, rfl, trivial, Nat.zero_lt_two⟩
  · exact ⟨_, _, rfl, trivial, Nat.zero_lt_one⟩
  · exact ⟨_, _, rfl, trivial, Nat.zero_lt_one⟩

/-- the client crashes, and no put is under way -/
theorem silence_avise (h : Avise s none) :
    ∃ s' o, step d s none = some (s', o) ∧ Acheve s' ∧ 0 < nbAvis o := by
  unfold step
  match hpc : s.pc with
  | .requete | .nom _ | .nomPut | .taillePut _ | .nomGet | .okGet _ => exact ⟨_, _, rfl, trivial, Nat.zero_lt_one⟩
  | .repr1 | .repr2 | .repr3 | .repr4 _ => exact ⟨_, _, rfl, trivial, Nat.zero_lt_two⟩
  | .envoie e r => exact silenceEnvoi_avis (by simpa [Avise, hpc] using h)
  | .recoit r => simp [Avise, hpc] at h
  | .lireAdresse | .attReponse | .nomCrash | .offsetCrash | .rapport1 _ _ | .rapport2 _ _ | .rapport3 _ _ | .mort =>
    simp [Avise, hpc, Pc.ecoute] at h

/-- a reply other than OK in the recovery exchange -/
theorem refus_avise {v : ℤ} (hr : s.pc = .repr1 ∨ EnReprise s.pc) (hv : v ≠ Code.ok) :
    ∃ s' o, step d s (some (.ent v)) = some (s', o) ∧ Acheve s' ∧ 0 < nbAvis o := by
  unfold step
  match hpc : s.pc with
  | .repr1 | .repr2 | .repr3 | .repr4 _ =>
    simp only [if_neg hv]
    exact ⟨_, _, rfl, trivial, Nat.zero_lt_one⟩
  | .lireAdresse | .attReponse | .nomCrash | .offsetCrash | .rapport1 _ _ | .rapport2 _ _ | .rapport3 _ _ | .mort
  | .requete | .nom _ | .nomPut | .taillePut _ | .nomGet | .okGet _ | .recoit _ | .envoie _ _ =>
    simp [hpc, EnReprise] at hr

theorem step_avise (h : Avise s m) : ∃ s' o, step d s m = some (s', o) ∧ Acheve s' ∧ 0 < nbAvis o := by
  cases m with
  | none => exact silence_avise h
  | some m =>
    unfold Avise at h
    split at h
    · rename_i v hpc hm
      rw [hm]
      simp only [step, hpc, execute, if_pos h]
      exact ⟨_, _, rfl, trivial, Nat.zero_lt_one⟩
    · rename_i v hpc hm
      rw [hm]
      exact refus_avise (.inl hpc) h
    · rename_i v hpc hm
      rw [hm]
      exact refus_avise (.inr (by rw [hpc]; trivial)) h
    · rename_i v hpc hm
      rw [hm]
      exact refus_avise (.inr (by rw [hpc]; trivial)) h
    · rename_i v hpc hm
      rw [hm]
      exact refus_avise (.inr (by rw [hpc]; trivial)) h
    · exact absurd h id
    · cases ‹some m = none›
    · cases ‹some m = none›
    · exact absurd h id

/-- the reply of the recovery exchange that does not notify the master -/
theorem reponse_ok {v : ℤ} (hr : s.pc = .repr1 ∨ EnReprise s.pc) (h : ¬Avise s (some (.ent v))) : v = Code.ok := by
  by_contra hv
  match hpc : s.pc with
  | .repr1 | .repr2 | .repr3 | .repr4 _ => exact h (by simp [Avise, hpc, hv])
  | .lireAdresse | .attReponse | .nomCrash | .offsetCrash | .rapport1 _ _ | .rapport2 _ _ | .rapport3 _ _ | .mort
  | .requete | .nom _ | .nomPut | .taillePut _ | .nomGet | .okGet _ | .recoit _ | .envoie _ _ =>
    simp [hpc, EnReprise] at hr

/-- a wait on the client that does not notify the master -/
theorem step_suite (hc : s.pc.ecoute = some .client) (h : ¬Avise s m) (hs : step d s m = some (s', o)) :
    nbAvis o = 0 ∧ Suite s m s' := by
  unfold step at hs
  match hpc : s.pc, m with
  | .recoit _, none =>
    simp only [hpc] at hs
    cases hs
    exact ⟨rfl, .inl (.inr rfl)⟩
  | .requete, some (.ent v) =>
    simp only [hpc] at hs
    obtain ⟨ho, hsuite⟩ := execute_suite hpc (fun hv => h (by simp [Avise, hpc, hv])) hs
    exact ⟨ho, hsuite.imp_right .inl⟩
  | .repr1, some (.ent v) =>
    have hv : v = Code.ok := reponse_ok (by simp [hpc, EnReprise]) h
    simp only [hpc, if_pos hv] at hs
    cases hs
    exact ⟨nbAvis_map_client _, .inr (.inr ⟨trivial, .inl hpc, by rw [hv]⟩)⟩
  | .repr2, some (.ent v) =>
    have hv : v = Code.ok := reponse_ok (by simp [hpc, EnReprise]) h
    simp only [hpc, if_pos hv] at hs
    cases hs
    exact ⟨rfl, .inr (.inr ⟨trivial, .inr (by rw [hpc]; trivial), by rw [hv]⟩)⟩
  | .repr3, some (.ent v) =>
    have hv : v = Code.ok := reponse_ok (by simp [hpc, EnReprise]) h
    simp only [hpc, if_pos hv] at hs
    obtain ⟨ho, hsuite⟩ := ouvreReprise_suite hs
    exact ⟨ho, .inr (hsuite.imp_right fun hr => ⟨hr, .inr (by rw [hpc]; trivial), by rw [hv]⟩)⟩
  | .repr4 e, some (.ent v) =>
    have hv : v = Code.ok := reponse_ok (by simp [hpc, EnReprise]) h
    simp only [hpc, if_pos hv] at hs
    exact (envoiFichier_suite hs).imp_right fun hb => .inr (.inl hb)
  | .nom _, some (.octets b) =>
    simp only [hpc] at hs
    split_ifs at hs
    cases hs
    exact ⟨rfl, .inr (.inl trivial)⟩
  | .nomPut, some (.octets b) =>
    simp only [hpc] at hs
    split_ifs at hs
    exact (ouvrePut_suite hs).imp_right fun hb => .inr (.inl hb)
  | .nomGet, some (.octets b) =>
    simp only [hpc] at hs
    split_ifs at hs
    exact (ouvreGet_suite hs).imp_right fun hb => .inr (.inl hb)
  | .taillePut _, some (.ent v) =>
    simp only [hpc] at hs
    split_ifs at hs
    · cases hs
      exact ⟨rfl, .inr (.inl trivial)⟩
    · cases hs
      exact ⟨rfl, .inr (.inl trivial)⟩
  | .recoit r, some (.octets b) =>
    simp only [hpc] at hs
    split_ifs at hs
    · cases hs
      exact ⟨rfl, .inr (.inl trivial)⟩
    · cases hs
      exact ⟨rfl, .inr (.inl trivial)⟩
  | .okGet e, some (.ent v) =>
    simp only [hpc] at hs
    split_ifs at hs
    · exact (envoiFichier_suite hs).imp_right fun hb => .inr (.inl hb)
    · cases hs
      exact ⟨rfl, .inl (.inl rfl)⟩
  | .envoie e r, some (.ent v) =>
    simp only [hpc] at hs
    exact (boucleEnvoi_suite hs).imp_right fun hb => .inr (.inl hb)
  | .envoie e r, none =>
    have he : ¬e.nbOctets + 1 < 2 ^ 31 := by simpa [Avise, hpc] using h
    simp only [hpc, silenceEnvoi, if_neg he] at hs
    cases hs
  | .requete, none | .repr1, none | .repr2, none | .repr3, none | .repr4 _, none | .nom _, none | .nomPut, none
  | .taillePut _, none | .nomGet, none | .okGet _, none =>
    exact absurd (by simp [Avise, hpc, Pc.ecoute]) h
  | .requete, some (.octets _) | .repr1, some (.octets _) | .repr2, some (.octets _) | .repr3, some (.octets _)
  | .repr4 _, some (.octets _) | .taillePut _, some (.octets _) | .okGet _, some (.octets _)
  | .envoie _ _, some (.octets _) | .nom _, some (.ent _) | .nomPut, some (.ent _) | .nomGet, some (.ent _)
  | .recoit _, some (.ent _) =>
    simp [hpc] at hs
  | .lireAdresse, _ | .attReponse, _ | .nomCrash, _ | .offsetCrash, _ | .rapport1 _ _, _ | .rapport2 _ _, _
  | .rapport3 _ _, _ | .mort, _ =>
    rw [hpc] at hc
    cases hc

/-! ## The session -/

/-- a session after its first wait, the master not notified: `info` holds the last reply of the recovery exchange -/
def Avance (s : Memoire) : Prop :=
  s.etat.HorsSession ∨ Boucle s.etat.pc ∨ EnReprise s.etat.pc ∧ s.infoReprise = Code.ok

theorem Boucle.client {pc : Pc} (h : Boucle pc) : pc.ecoute = some .client := by
  match pc with
  | .requete | .nom _ | .nomPut | .taillePut _ | .recoit _ | .nomGet | .okGet _ | .envoie _ _ => rfl
  | .lireAdresse | .attReponse | .nomCrash | .offsetCrash | .rapport1 _ _ | .rapport2 _ _ | .rapport3 _ _ | .mort
  | .repr1 | .repr2 | .repr3 | .repr4 _ => exact absurd h id

theorem EnReprise.client {pc : Pc} (h : EnReprise pc) : pc.ecoute = some .client := by
  match pc with
  | .repr2 | .repr3 | .repr4 _ => rfl
  | .lireAdresse | .attReponse | .nomCrash | .offsetCrash | .rapport1 _ _ | .rapport2 _ _ | .rapport3 _ _ | .mort
  | .repr1 | .requete | .nom _ | .nomPut | .taillePut _ | .recoit _ | .nomGet | .okGet _ | .envoie _ _ =>
    exact absurd h id

section
variable {s s' : Memoire} {e : Evenement}

theorem Avance.ne_repr1 (h : Avance s) : s.etat.pc ≠ .repr1 := by
  intro hpc
  simp [Avance, Etat.HorsSession, hpc, Boucle, EnReprise] at h

theorem infoReprise_retient {v : ℤ} (h : s.etat.pc = .repr1 ∨ EnReprise s.etat.pc) :
    (s.retient d (some (.ent v))).infoReprise = v := by
  unfold Memoire.retient
  match hpc : s.etat.pc with
  | .repr1 | .repr2 | .repr3 | .repr4 _ => rfl
  | .lireAdresse | .attReponse | .nomCrash | .offsetCrash | .rapport1 _ _ | .rapport2 _ _ | .rapport3 _ _ | .mort
  | .requete | .nom _ | .nomPut | .taillePut _ | .nomGet | .okGet _ | .recoit _ | .envoie _ _ =>
    simp [hpc, EnReprise] at h

theorem attend_suite (hc : s.etat.pc.ecoute = some .client) (h : ¬Avise s.etat m)
    (hs : attend s d m = some (s', o)) : Avance s' ∧ nbAvis o = 0 := by
  unfold attend at hs
  rw [Option.map_eq_some_iff] at hs
  obtain ⟨p, hp, he⟩ := hs
  obtain ⟨rfl, rfl⟩ := Prod.mk.inj he
  obtain ⟨ho, hsuite⟩ := step_suite hc h hp
  refine ⟨?_, ho⟩
  rcases hsuite with hh | hb | ⟨hr, hr₀, rfl⟩
  · exact .inl hh
  · exact .inr (.inl hb)
  · exact .inr (.inr ⟨hr, infoReprise_retient hr₀⟩)

/-- a read of 0 bytes gives the variable back, and notifies nobody -/
theorem reste_sans_avis (h : Avance s ∨ s.etat.pc = .repr1 ∧ s.infoReprise = Code.ok) (hpc : s.etat.pc ≠ .requete) :
    ¬Avise s.etat (some s.reste) := by
  unfold Avance Etat.HorsSession at h
  match hp : s.etat.pc with
  | .repr1 | .repr2 | .repr3 | .repr4 _ =>
    have hok : s.infoReprise = Code.ok := by simpa [hp, Boucle, EnReprise] using h
    simp [Avise, Memoire.reste, hp, hok]
  | .requete => exact absurd hp hpc
  | .lireAdresse | .attReponse | .nomCrash | .offsetCrash | .rapport1 _ _ | .rapport2 _ _ | .rapport3 _ _ | .mort
  | .nom _ | .nomPut | .taillePut _ | .nomGet | .okGet _ | .recoit _ | .envoie _ _ =>
    simp [Avise, hp]

theorem pas_hors (h : s.etat.HorsSession) : pas s e = some (s, []) := if_pos h

theorem pas_ouvert (h : ¬s.etat.HorsSession) (a : Arrivee) :
    pas s (.ouvert a) = attend s a.disque (a.lu s.etat.pc) := if_neg h

theorem pas_clos (hc : s.etat.pc.ecoute = some .client) (a : Arrivee) : pas s (.clos a) = finDeFichier s a.disque :=
  (if_neg (enSession hc)).trans (if_pos hc)

/-- **One wait** that does not notify the master. -/
theorem pas_suite (h : Avance s ∨ s.etat.pc = .repr1) (he : ¬Avertit s e) (hs : pas s e = some (s', o)) :
    Avance s' ∧ nbAvis o = 0 := by
  by_cases hh : s.etat.HorsSession
  · rw [pas_hors hh] at hs
    cases hs
    exact ⟨.inl hh, rfl⟩
  · have hc : s.etat.pc.ecoute = some .client := by
      rcases h with (hh' | hb | hr) | hr
      · exact absurd hh' hh
      · exact hb.client
      · exact hr.1.client
      · rw [hr]
        rfl
    match e with
    | .ouvert a =>
      rw [pas_ouvert hh] at hs
      exact attend_suite hc he hs
    | .clos a =>
      rw [pas_clos hc] at hs
      unfold finDeFichier at hs
      split at hs
      · rename_i hpc
        cases hs
        exact ⟨.inr (.inl (by rw [hpc]; trivial)), rfl⟩
      · rename_i hpc
        refine attend_suite hc (reste_sans_avis ?_ hpc) hs
        refine h.imp_right fun hr => ⟨hr, ?_⟩
        by_contra hi
        exact he ⟨hr, hi⟩

theorem attend_avise (h : Avise s.etat m) :
    ∃ s' o, attend s d m = some (s', o) ∧ Acheve s'.etat ∧ 0 < nbAvis o := by
  obtain ⟨t, o, ht, ha, ho⟩ := step_avise (d := d) h
  exact ⟨{ s.retient d m with etat := t }, o, by rw [attend, ht, Option.map_some], ha, ho⟩

/-- **The wait that notifies the master**: the session is over, or in its report. -/
theorem pas_avise (he : Avertit s e) : ∃ s' o, pas s e = some (s', o) ∧ Acheve s'.etat ∧ 0 < nbAvis o := by
  match e with
  | .ouvert a =>
    rw [pas_ouvert (enSession (Avise.client he))]
    exact attend_avise he
  | .clos a =>
    rw [pas_clos (by rw [he.1]; rfl), finDeFichier, he.1]
    exact attend_avise (by simp [Avise, Memoire.reste, he.1, he.2])

end

/-- the answers of the master that the report still waits for -/
def aRepondre (s : Etat) : ℕ :=
  match s.pc with
  | .rapport1 _ _ => 3
  | .rapport2 _ _ => 2
  | .rapport3 _ _ => 1
  | _ => 0

theorem aRepondre_le (s : Etat) : aRepondre s ≤ 3 := by
  unfold aRepondre
  split <;> omega

theorem aRepondre_hors (h : s.HorsSession) : aRepondre s = 0 := by
  unfold aRepondre
  rcases h with h | h
  · rw [h]
  · rw [h]

theorem finRapport_acheve (s : Etat) (r : Bool) :
    ∃ s' o, finRapport s r = some (s', o) ∧ Acheve s' ∧ aRepondre s' < 1 := by
  unfold finRapport repriseFermee
  split_ifs
  · exact ⟨_, _, rfl, trivial, Nat.zero_lt_one⟩
  · exact ⟨_, _, rfl, trivial, Nat.zero_lt_one⟩

/-- the master answers, or is silent: the report goes on, or the process ends -/
theorem step_rapport (h : 0 < aRepondre s) (hm : m = none ∨ ∃ v, m = some (.ent v)) :
    ∃ s' o, step d s m = some (s', o) ∧ Acheve s' ∧ aRepondre s' < aRepondre s := by
  unfold step aRepondre
  match hpc : s.pc with
  | .rapport1 nb r =>
    rcases hm with rfl | ⟨v, rfl⟩
    · exact ⟨_, _, rfl, trivial, Nat.zero_lt_succ 2⟩
    · dsimp only
      split_ifs
      · exact ⟨_, _, rfl, trivial, Nat.lt_succ_self 2⟩
      · exact ⟨_, _, rfl, trivial, Nat.zero_lt_succ 2⟩
  | .rapport2 nb r =>
    rcases hm with rfl | ⟨v, rfl⟩
    · exact ⟨_, _, rfl, trivial, Nat.zero_lt_succ 1⟩
    · dsimp only
      split_ifs
      · exact ⟨_, _, rfl, trivial, Nat.lt_succ_self 1⟩
      · exact ⟨_, _, rfl, trivial, Nat.zero_lt_succ 1⟩
  | .rapport3 nb r =>
    rcases hm with rfl | ⟨v, rfl⟩
    · exact ⟨_, _, rfl, trivial, Nat.zero_lt_one⟩
    · dsimp only
      split_ifs
      · exact finRapport_acheve s r
      · exact ⟨_, _, rfl, trivial, Nat.zero_lt_one⟩
  | .requete | .repr1 | .repr2 | .repr3 | .repr4 _ | .lireAdresse | .attReponse | .nomCrash | .offsetCrash | .mort
  | .nom _ | .nomPut | .taillePut _ | .nomGet | .okGet _ | .recoit _ | .envoie _ _ =>
    simp [aRepondre, hpc] at h

theorem acheve_cases (h : Acheve s) :
    s.HorsSession ∨ 0 < aRepondre s ∧ s.pc.ecoute = some .maitre ∧ litOctets s.pc = false := by
  unfold Acheve at h
  split at h
  · exact .inl (.inl ‹_›)
  · exact .inl (.inr ‹_›)
  · rw [aRepondre, ‹s.pc = _›]
    exact .inr ⟨Nat.zero_lt_succ 2, rfl, rfl⟩
  · rw [aRepondre, ‹s.pc = _›]
    exact .inr ⟨Nat.zero_lt_succ 1, rfl, rfl⟩
  · rw [aRepondre, ‹s.pc = _›]
    exact .inr ⟨Nat.zero_lt_one, rfl, rfl⟩
  · cases h

section
variable {s s' t : Memoire} {e : Evenement}

/-- a wait of the report, before or after the close -/
theorem pas_rapport (h : 0 < aRepondre s.etat) (hc : s.etat.pc.ecoute = some .maitre)
    (hl : litOctets s.etat.pc = false) (e : Evenement) :
    ∃ s' o, pas s e = some (s', o) ∧ Acheve s'.etat ∧ aRepondre s'.etat < aRepondre s.etat := by
  obtain ⟨a, ha⟩ : ∃ a : Arrivee, pas s e = attend s a.disque (a.lu s.etat.pc) := by
    have hh : ¬s.etat.HorsSession := by
      intro hh
      rw [aRepondre_hors hh] at h
      exact lt_irrefl 0 h
    match e with
    | .ouvert a => exact ⟨a, pas_ouvert hh a⟩
    | .clos a => exact ⟨a, (if_neg hh).trans (if_neg (by rw [hc]; exact nofun))⟩
  have hm : a.lu s.etat.pc = none ∨ ∃ v, a.lu s.etat.pc = some (.ent v) := by
    unfold Arrivee.lu
    split_ifs with hs hb
    · exact .inl rfl
    · rw [hl] at hb
      cases hb
    · exact .inr ⟨_, rfl⟩
  obtain ⟨t, o, ht, hacheve, hlt⟩ := step_rapport (d := a.disque) h hm
  refine ⟨{ s.retient a.disque (a.lu s.etat.pc) with etat := t }, o, ?_, hacheve, hlt⟩
  rw [ha, attend, ht, Option.map_some]

/-! ## The whole session -/

/-- a session that is over or in its report is over once the master has had time to answer -/
theorem acheve_fin (h : Acheve s.etat) (l : List Evenement) (hl : aRepondre s.etat ≤ l.length) :
    ∃ t o, runO pas s l = some (t, o) ∧ t.etat.HorsSession := by
  induction l generalizing s with
  | nil =>
    refine ⟨s, [], rfl, ?_⟩
    rcases acheve_cases h with hh | hr
    · exact hh
    · exact absurd hl (Nat.not_le.2 hr.1)
  | cons e l ih =>
    rcases acheve_cases h with hh | ⟨hpos, hc, ho⟩
    · obtain ⟨t, o, ht, hfin⟩ := ih h (by rw [aRepondre_hors hh]; exact Nat.zero_le _)
      exact ⟨t, o, runO_cons_of (pas_hors hh) ht, hfin⟩
    · obtain ⟨s', o, hs, ha, hlt⟩ := pas_rapport hpos hc ho e
      rw [List.length_cons] at hl
      obtain ⟨t, o', ht, hfin⟩ := ih ha (by omega)
      exact ⟨t, o ++ o', runO_cons_of hs ht, hfin⟩

/-- a run without a wait that notifies the master -/
theorem run_sans_avis (h : Avance s ∨ s.etat.pc = .repr1) {l : List Evenement} (hl : ¬SometimeO pas Avertit s l)
    (hrun : runO pas s l = some (t, o)) : nbAvis o = 0 := by
  have hstep : ∀ s e s' o, (Avance s ∨ s.etat.pc = .repr1) → ¬Avertit s e → pas s e = some (s', o) →
      (Avance s' ∨ s'.etat.pc = .repr1) ∧ o.countP estAvis = 0 := by
    intro s e s' o h he hs
    exact (pas_suite h he hs).imp_left .inl
  exact (runO_inv_of_never hstep h hl hrun).2

theorem run_avance (h : Avance s) {l : List Evenement} (hl : ¬SometimeO pas Avertit s l)
    (hrun : runO pas s l = some (t, o)) : Avance t :=
  (runO_inv_of_never (P := estAvis) (fun _ _ _ _ h he hs => pas_suite (.inl h) he hs) h hl hrun).1

/-- once the master is notified, three more waits end the session -/
theorem quitte_of_avertit (h : Avance s ∨ s.etat.pc = .repr1) {l : List Evenement} (hl : SometimeO pas Avertit s l)
    (fin : List Evenement) (hfin : 3 ≤ fin.length) :
    ∃ t o, runO pas s (l ++ fin) = some (t, o) ∧ t.etat.HorsSession ∧ 0 < nbAvis o := by
  induction l generalizing s with
  | nil => cases hl
  | cons e l ih =>
    by_cases he : Avertit s e
    · obtain ⟨s', o, hs, ha, ho⟩ := pas_avise he
      have hle : aRepondre s'.etat ≤ (l ++ fin).length := by
        have h3 := aRepondre_le s'.etat
        rw [List.length_append]
        omega
      obtain ⟨t, o', ht, hh⟩ := acheve_fin ha (l ++ fin) hle
      exact ⟨t, o ++ o', runO_cons_of hs ht, hh, by rw [nbAvis_append]; omega⟩
    · rcases hl with hl | ⟨⟨s', o⟩, hs, hl⟩
      · exact absurd hl he
      · obtain ⟨t, o', ht, hh, hpos⟩ := ih (.inl (pas_suite h he hs).1) hl
        exact ⟨t, o ++ o', runO_cons_of hs ht, hh, by rw [nbAvis_append]; omega⟩

/-- at end of file nothing notifies the master after the first reply of the recovery exchange -/
theorem clos_sans_avis (h : Avance s) (l : List Arrivee) : ¬SometimeO pas Avertit s (l.map .clos) := by
  induction l generalizing s with
  | nil => exact id
  | cons a l ih =>
    intro hl
    have he : ¬Avertit s (.clos a) := fun he => h.ne_repr1 he.1
    rcases hl with hl | ⟨p, hp, hl⟩
    · exact he hl
    · exact ih (pas_suite (.inl h) he hp).1 hl

/-- the first wait after the close can notify the master -/
theorem clos_avertit (h : Avance s ∨ s.etat.pc = .repr1) {l : List Arrivee}
    (hl : SometimeO pas Avertit s (l.map .clos)) : s.etat.pc = .repr1 ∧ s.infoReprise ≠ Code.ok := by
  match l with
  | [] => cases hl
  | a :: l =>
    by_cases he : Avertit s (.clos a)
    · exact he
    · rcases hl with hl | ⟨p, hp, hl⟩
      · exact hl
      · exact absurd hl (clos_sans_avis (pas_suite h he hp).1 l)

theorem depart (reprise : Bool) (s : Memoire) :
    Avance (debutSession reprise s) ∨ (debutSession reprise s).etat.pc = .repr1 := by
  match reprise with
  | true => exact .inr rfl
  | false => exact .inl (.inr (.inl trivial))

/-- what notifies the master in a session that closes after `l` -/
def Condition (reprise : Bool) (s : Memoire) (l : List Arrivee) : Prop :=
  SometimeO pas Avertit (debutSession reprise s) (l.map .ouvert) ∨
    l = [] ∧ reprise = true ∧ s.infoReprise ≠ Code.ok

theorem condition_of_avertit {reprise : Bool} {l : List Arrivee} {g : ℕ → Arrivee} {n : ℕ}
    (h : SometimeO pas Avertit (debutSession reprise s) (cours l g n)) : Condition reprise s l := by
  unfold cours at h
  rw [sometimeO_append] at h
  by_contra hC
  rcases h with h | ⟨t, o, ht, h⟩
  · exact hC (.inl h)
  · have hclos : SometimeO pas Avertit t (((List.range n).map g).map .clos) := by
      rw [List.map_map]
      exact h
    match l with
    | [] =>
      -- nothing was read before the close
      cases ht
      obtain ⟨hpc, hi⟩ := clos_avertit (depart reprise s) hclos
      match reprise with
      | true => exact hC (.inr ⟨rfl, rfl, hi⟩)
      | false => cases hpc
    | a :: l =>
      obtain ⟨p, ⟨t', o'⟩, hp, hq, he⟩ := runO_cons ht
      obtain ⟨rfl, -⟩ := Prod.mk.inj he
      have havance : Avance p.1 := (pas_suite (depart reprise s) (fun he => hC (.inl (.inl he))) hp).1
      have ht' : Avance t := run_avance havance (fun hl => hC (.inl (.inr ⟨p, hp, hl⟩))) hq
      exact clos_sans_avis ht' _ hclos

theorem avertit_of_condition {reprise : Bool} {l : List Arrivee} (h : Condition reprise s l) (g : ℕ → Arrivee) :
    SometimeO pas Avertit (debutSession reprise s) (cours l g 1) := by
  rcases h with h | ⟨rfl, rfl, hi⟩
  · exact sometimeO_append.2 (.inl h)
  · exact .inl ⟨rfl, hi⟩

/-- **The close.** Whatever the client did before it closed its socket, the slave leaves the session having notified
the master exactly when one of these notified it, or when a recovery session closes before any reply and `info` does
not hold OK. -/
theorem quitte_iff (reprise : Bool) (s : Memoire) (l : List Arrivee) (g : ℕ → Arrivee) :
    Quitte (debutSession reprise s) l g ↔ Condition reprise s l := by
  apply Iff.intro
  · intro h
    obtain ⟨n, t, o, hrun, -, hpos⟩ := h
    by_contra hC
    have hnul : nbAvis o = 0 := run_sans_avis (depart reprise s) (fun hs => hC (condition_of_avertit hs)) hrun
    exact absurd hnul (Nat.ne_of_gt hpos)
  · intro h
    obtain ⟨t, o, hrun, hh, hpos⟩ := quitte_of_avertit (depart reprise s) (avertit_of_condition h g)
      [.clos (g 1), .clos (g 2), .clos (g 3)] le_rfl
    refine ⟨4, t, o, ?_, hh, hpos⟩
    rw [← hrun]
    simp [cours, List.range_succ]

/-- **The command loop at end of file** comes back to its wait, with nothing read and nothing written. -/
theorem requete_sans_fin (h : s.etat.pc = .requete) (l : List Arrivee) : runO pas s (l.map .clos) = some (s, []) := by
  induction l with
  | nil => rfl
  | cons a l ih =>
    have hpas : pas s (.clos a) = some (s, []) := by
      rw [pas_clos (by rw [h]; rfl), finDeFichier, h]
    exact runO_cons_of hpas ih

/-- **The loop of `reception_fichier` at end of file**: each round counts 0 bytes and sends another OK. -/
theorem recoit_sans_fin {r : Reception} (h : s.etat.pc = .recoit r) (hr : r.Encore) (hn : r.nbOctets < 2 ^ 31)
    (l : List Arrivee) :
    runO pas s (l.map .clos) = some (s, l.map fun _ => .client (.ent Code.ok)) := by
  have hvide : r.recoit [] = r := by simp [Reception.recoit]
  have hlt : r.nb + ([] : Octets).length < 2 ^ 31 := by
    unfold Reception.Encore at hr
    rw [List.length_nil]
    omega
  induction l with
  | nil => rfl
  | cons a l ih =>
    have hstep : step a.disque s.etat (some (.octets [])) = some (s.etat, [.client (.ent Code.ok)]) := by
      simp only [step, h, hvide, if_pos hr]
      rw [← h]
      exact if_pos ⟨Nat.zero_le _, hlt⟩
    have hpas : pas s (.clos a) = some (s, [.client (.ent Code.ok)]) := by
      rw [pas_clos (by rw [h]; rfl), finDeFichier, h]
      simp only [attend, Memoire.reste, h, hstep, Option.map_some, Memoire.retient]
    exact runO_cons_of hpas ih

def memoireInitiale : Memoire := ⟨initial, 0, 0, 0⟩

def rien : Arrivee := ⟨disqueVide, false, 0, []⟩

/-- **A client that closes its socket between two commands**: the slave never leaves its loop. -/
theorem ferme_au_repos :
    ¬∀ (reprise : Bool) (s : Memoire) (l : List Arrivee) (g : ℕ → Arrivee), Quitte (debutSession reprise s) l g := by
  intro h
  obtain ⟨n, t, o, hrun, hh, -⟩ := h false memoireInitiale [] fun _ => rien
  have hboucle : runO pas (debutSession false memoireInitiale) (cours [] (fun _ => rien) n) =
      some (debutSession false memoireInitiale, []) := by
    simpa [cours] using requete_sans_fin (s := debutSession false memoireInitiale) rfl (List.replicate n rien)
  rw [hboucle] at hrun
  cases hrun
  rcases hh with hh | hh
  · cases hh
  · cases hh

end

end Semestre6.Ftp.FinDeFichier
