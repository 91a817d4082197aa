/-
TP5, shm_server.c and shm_client.c: the alphabet through a shared segment of 27 bytes.

The server writes the letters, then a zero, and waits until the first byte is a star; the client prints the segment up
to a zero and writes the star. Nothing keeps the client from starting before the server has written. The reads and
writes are made one at a time, in the order of the programs. The segment is never removed, so the server may find the
one of an earlier run (`ancien`).

- `segment_laisse`: in every state of every run, and so at its end, the segment is one that a next run may find;
- `client_sortie`: what the client prints, in every state of every run, and that it reads inside the segment;
- `serveur_fini_iff`: under a fair schedule the server ends exactly when the client writes its star after the first
  letter.
-/
import Semestre6.Lib.Equite
import Semestre6.Ftp.Define

namespace Semestre6.Shm

open Equite
open Semestre6.Ftp (Octets)

def shmsz : ℕ := 27

inductive Proc where
  | serveur
  | client
deriving DecidableEq, Repr

inductive Serveur where
  /-- before `shmget` -/
  | debut
  /-- before the write of `shm[i]` -/
  | ecrit (i : ℕ)
  /-- at the test of the `while` -/
  | scrute
  | fini
deriving DecidableEq, Repr

inductive Client where
  /-- before `shmget` -/
  | debut
  /-- before the test of `shm[i]` -/
  | lit (i : ℕ)
  /-- before the `putchar` of `shm[i]`, which reads it again -/
  | affiche (i : ℕ)
  | retour
  | marque
  | fini
  /-- `shmget` finds no segment -/
  | echec
  /-- a read after the end of the segment -/
  | hors
deriving DecidableEq, Repr

structure Etat where
  segment : Option Octets
  serveur : Serveur
  client : Client
  sortie : Octets
deriving DecidableEq, Repr

def lettre (i : ℕ) : UInt8 := UInt8.ofNat (97 + i)

def etoile : UInt8 := 42

def stepServeur (s : Etat) : Option Etat :=
  match s.serveur with
  | .debut => some { s with segment := some (s.segment.getD (List.replicate shmsz 0)), serveur := .ecrit 0 }
  | .ecrit i =>
    if i < 26 then some { s with segment := s.segment.map (·.set i (lettre i)), serveur := .ecrit (i + 1) }
    else some { s with segment := s.segment.map (·.set i 0), serveur := .scrute }
  | .scrute =>
    some { s with serveur := if (s.segment.bind (·[0]?)) = some etoile then .fini else .scrute }
  | .fini => none

def stepClient (s : Etat) : Option Etat :=
  match s.client with
  | .debut => some { s with client := if s.segment = none then .echec else .lit 0 }
  | .lit i =>
    match s.segment.bind (·[i]?) with
    | none => some { s with client := .hors }
    | some c => some { s with client := if c = 0 then .retour else .affiche i }
  | .affiche i =>
    match s.segment.bind (·[i]?) with
    | none => some { s with client := .hors }
    | some c => some { s with client := .lit (i + 1), sortie := s.sortie ++ [c] }
  | .retour => some { s with client := .marque, sortie := s.sortie ++ [10] }
  | .marque => some { s with client := .fini, segment := s.segment.map (·.set 0 etoile) }
  | .fini | .echec | .hors => none

/-- a process that has ended stays where it is -/
def avance (s : Etat) : Proc → Etat
  | .serveur => (stepServeur s).getD s
  | .client => (stepClient s).getD s

def init (ancien : Option Octets) : Etat := ⟨ancien, .debut, .debut, []⟩

/-- a segment that these programs have left (`segment_laisse`) -/
def Laisse (m : Octets) : Prop := m.length = shmsz ∧ m[26]? = some 0

/-! ## The segment -/

/-- what the segment holds when the server starts -/
def base (ancien : Option Octets) : Octets := ancien.getD (List.replicate shmsz 0)

/-- the letters that the server has written -/
def Serveur.ecrites : Serveur → ℕ
  | debut => 0
  | ecrit i => i
  | _ => 26

def alphabet : Octets := (List.range 26).map lettre

/-- the segment after `j` letters -/
def texte (m : Octets) (j : ℕ) : Octets := alphabet.take j ++ m.drop j

variable {ancien : Option Octets} {m : Octets} {i j : ℕ} {s : Etat}

theorem length_alphabet : alphabet.length = 26 := by simp [alphabet]

theorem alphabet_getElem? (h : i < 26) : alphabet[i]? = some (lettre i) := by simp [alphabet, h]

theorem lettre_ne_zero (h : i < 26) : lettre i ≠ 0 := by
  interval_cases i <;> decide

theorem lettre_ne_etoile (h : i < 26) : lettre i ≠ etoile := by
  interval_cases i <;> decide

theorem texte_getElem? (hj : j ≤ 26) : (texte m j)[i]? = if i < j then some (lettre i) else m[i]? := by
  have hlen : (alphabet.take j).length = j := by rw [List.length_take, length_alphabet, Nat.min_eq_left hj]
  rw [texte]
  split_ifs with hi
  · rw [List.getElem?_append_left (by omega), List.getElem?_take_of_lt hi, alphabet_getElem? (by omega)]
  · rw [List.getElem?_append_right (by omega), hlen, List.getElem?_drop, Nat.add_sub_cancel' (by omega)]

theorem length_texte (h : m.length = shmsz) (hj : j ≤ 26) : (texte m j).length = shmsz := by
  rw [texte, List.length_append, List.length_take, List.length_drop, length_alphabet, h, shmsz]
  omega

/-- the server writes the next letter -/
theorem texte_set (h : m.length = shmsz) (hj : j < 26) : (texte m j).set j (lettre j) = texte m (j + 1) := by
  have hlen := length_texte h hj.le
  refine List.ext_getElem? fun i => ?_
  rw [List.getElem?_set, texte_getElem? hj.le, texte_getElem? (show j + 1 ≤ 26 by omega), hlen, shmsz]
  rcases lt_trichotomy i j with hlt | rfl | hgt
  · rw [if_neg (by omega), if_pos hlt, if_pos (by omega)]
  · rw [if_pos rfl, if_pos (by omega), if_pos (by omega)]
  · rw [if_neg (by omega), if_neg (by omega), if_neg (by omega)]

/-- and the zero after the last one, where there is one already -/
theorem texte_set_fin (h : Laisse m) : (texte m 26).set 26 0 = texte m 26 := by
  refine List.ext_getElem? fun i => ?_
  rw [List.getElem?_set, length_texte h.1 le_rfl, shmsz]
  by_cases hi : 26 = i
  · subst hi
    rw [if_pos rfl, if_pos (by decide), texte_getElem? le_rfl, if_neg (lt_irrefl 26), h.2]
  · rw [if_neg hi]

/-! ## What the client prints -/

/-- letters at their places, or bytes that were there before -/
def Affiche (m l : Octets) : Prop :=
  l.length ≤ 26 ∧ ∀ k c, l[k]? = some c → c ≠ 0 ∧ (c = lettre k ∨ m[k]? = some c)

/-- what the client has printed, when the server has written `j` letters over `m` -/
def Client.Imprime (m : Octets) (j : ℕ) (sortie : Octets) : Client → Prop
  | debut | echec => sortie = []
  | lit i => i ≤ 26 ∧ sortie.length = i ∧ Affiche m sortie
  | affiche i => i < 26 ∧ sortie.length = i ∧ Affiche m sortie ∧ (texte m j)[i]? ≠ some 0
  | retour => Affiche m sortie
  | marque | fini => ∃ l, sortie = l ++ [10] ∧ Affiche m l
  | hors => False

/-- the segment, when it exists: the star is on it after the client has ended, unless the first letter came later -/
inductive Segment (m : Octets) (j : ℕ) (client : Client) : Octets → Prop
  | texte : Segment m j client (texte m j)
  | marque (h : client = .fini) : Segment m j client ((texte m j).set 0 etoile)

theorem Segment.lettre {client : Client} {t : Octets} (h : Segment m j client t) (hm : m.length = shmsz)
    (hj : j < 26) : Segment m (j + 1) client (t.set j (lettre j)) := by
  cases h with
  | texte =>
    rw [texte_set hm hj]
    exact .texte
  | marque hfini =>
    rcases Nat.eq_zero_or_pos j with rfl | hpos
    · -- the letter goes over the star
      rw [List.set_set, texte_set hm hj]
      exact .texte
    · rw [List.set_comm _ _ hpos.ne, texte_set hm hj]
      exact .marque hfini

theorem Segment.zero {client : Client} {t : Octets} (h : Segment m 26 client t) (hm : Laisse m) :
    Segment m 26 client (t.set 26 0) := by
  cases h with
  | texte =>
    rw [texte_set_fin hm]
    exact .texte
  | marque hfini =>
    rw [List.set_comm _ _ (by decide), texte_set_fin hm]
    exact .marque hfini

structure Inv (ancien : Option Octets) (s : Etat) : Prop where
  ecrit : ∀ i, s.serveur = .ecrit i → i ≤ 26
  segment : (s.serveur = .debut ∧ ancien = none ∧ s.segment = none ∧ (s.client = .debut ∨ s.client = .echec)) ∨
    ∃ t, s.segment = some t ∧ Segment (base ancien) s.serveur.ecrites s.client t
  client : s.client.Imprime (base ancien) s.serveur.ecrites s.sortie

theorem laisse_base (h : ∀ m, ancien = some m → Laisse m) : Laisse (base ancien) := by
  cases ancien with
  | none => exact ⟨by simp [base], by decide⟩
  | some m => exact h m rfl

theorem inv_init (ancien : Option Octets) : Inv ancien (init ancien) where
  ecrit _ := nofun
  segment := by
    cases ancien with
    | none => exact .inl ⟨rfl, rfl, rfl, .inl rfl⟩
    | some m => exact .inr ⟨m, rfl, .texte⟩
  client := rfl

theorem Inv.ecrites_le (h : Inv ancien s) : s.serveur.ecrites ≤ 26 := by
  have hecrit := h.ecrit
  cases hs : s.serveur with
  | debut => exact Nat.zero_le _
  | ecrit i => exact hecrit i hs
  | _ => exact le_rfl

/-- one letter more changes nothing of what is printed -/
theorem Client.Imprime.suivant {c : Client} {l : Octets} (h : c.Imprime m j l) (hj : j < 26) :
    c.Imprime m (j + 1) l := by
  cases c with
  | affiche i =>
    obtain ⟨hi, hlen, hl, hc⟩ := h
    refine ⟨hi, hlen, hl, ?_⟩
    rw [texte_getElem? hj.le] at hc
    rw [texte_getElem? (by omega)]
    by_cases hij : i < j + 1
    · rw [if_pos hij]
      simpa using lettre_ne_zero hi
    · rw [if_neg (by omega)] at hc
      rwa [if_neg hij]
  | _ => exact h

theorem stepServeur_inv (hm : Laisse (base ancien)) (h : Inv ancien s) {s' : Etat} (hs : stepServeur s = some s') :
    Inv ancien s' := by
  obtain ⟨hecrit, hseg, hclient⟩ := h
  cases hx : s.serveur with
  | debut =>
    simp only [stepServeur, hx, Option.some.injEq] at hs
    subst hs
    rw [hx] at hseg hclient
    refine ⟨fun i hi => by injection hi with hi; omega, .inr ?_, hclient⟩
    obtain ⟨-, hn, hnone, -⟩ | ⟨t, ht, hseg⟩ := hseg
    · exact ⟨_, by rw [hnone, Option.getD_none], by rw [base, hn]; exact .texte⟩
    · exact ⟨t, by rw [ht]; rfl, hseg⟩
  | ecrit i =>
    have hi := hecrit i hx
    rw [hx] at hseg hclient
    obtain ⟨hd, -⟩ | ⟨t, ht, hseg⟩ := hseg
    · exact nomatch hd
    simp only [stepServeur, hx] at hs
    split_ifs at hs with hlt
    · simp only [Option.some.injEq] at hs
      subst hs
      exact ⟨fun k hk => by injection hk with hk; omega, .inr ⟨_, by rw [ht]; rfl, hseg.lettre hm.1 hlt⟩,
        hclient.suivant hlt⟩
    · simp only [Option.some.injEq] at hs
      obtain rfl : i = 26 := by omega
      subst hs
      exact ⟨nofun, .inr ⟨_, by rw [ht]; rfl, hseg.zero hm⟩, hclient⟩
  | scrute =>
    simp only [stepServeur, hx, Option.some.injEq] at hs
    subst hs
    rw [hx] at hseg hclient
    obtain ⟨hd, -⟩ | hseg := hseg
    · exact nomatch hd
    split_ifs
    · exact ⟨nofun, .inr hseg, hclient⟩
    · exact ⟨nofun, .inr hseg, hclient⟩
  | fini => simp [stepServeur, hx] at hs

/-- the byte that the client reads -/
theorem Inv.lit (h : Inv ancien s) (hm : Laisse (base ancien)) (hc : s.client = .lit i ∨ s.client = .affiche i) :
    ∃ c, s.segment.bind (·[i]?) = some c ∧ (texte (base ancien) s.serveur.ecrites)[i]? = some c := by
  have hi : i ≤ 26 := by
    have hclient := h.client
    rcases hc with hc | hc <;> rw [hc] at hclient
    · exact hclient.1
    · exact hclient.1.le
  obtain ⟨-, -, -, hc' | hc'⟩ | ⟨t, ht, hseg⟩ := h.segment
  · rcases hc with hc | hc <;> rw [hc] at hc' <;> exact nomatch hc'
  · rcases hc with hc | hc <;> rw [hc] at hc' <;> exact nomatch hc'
  · cases hseg with
    | texte =>
      have hlen : (texte (base ancien) s.serveur.ecrites).length = shmsz := length_texte hm.1 h.ecrites_le
      have hlt : i < (texte (base ancien) s.serveur.ecrites).length := by
        rw [hlen, shmsz]
        omega
      exact ⟨_, by rw [ht, Option.bind_some, List.getElem?_eq_getElem hlt], List.getElem?_eq_getElem hlt⟩
    | marque hfini => rcases hc with hc | hc <;> rw [hc] at hfini <;> exact nomatch hfini

theorem affiche_nil (m : Octets) : Affiche m [] := ⟨Nat.zero_le _, fun _ _ hk => nomatch hk⟩

theorem affiche_concat {l : Octets} {c : UInt8} (hl : Affiche m l) (hlen : l.length < 26) (hj : j ≤ 26) (hc : c ≠ 0)
    (h : (texte m j)[l.length]? = some c) : Affiche m (l ++ [c]) := by
  refine ⟨by rw [List.length_append, List.length_singleton]; omega, fun k x hk => ?_⟩
  rcases lt_trichotomy k l.length with hlt | rfl | hgt
  · rw [List.getElem?_append_left hlt] at hk
    exact hl.2 k x hk
  · rw [List.getElem?_concat_length, Option.some.injEq] at hk
    subst hk
    refine ⟨hc, ?_⟩
    rw [texte_getElem? hj] at h
    split_ifs at h
    · exact .inl (Option.some.inj h).symm
    · exact .inr h
  · rw [List.getElem?_eq_none (by simp; omega)] at hk
    exact nomatch hk

/-- what the client does with the segment before its star -/
theorem Inv.client_suite (h : Inv ancien s) {c : Client} {sortie : Octets} (hfini : s.client ≠ .fini)
    (hecran : c.Imprime (base ancien) s.serveur.ecrites sortie) (hseg : s.client ≠ .debut) (hechec : s.client ≠ .echec) :
    Inv ancien { s with client := c, sortie := sortie } where
  ecrit := h.ecrit
  segment := by
    obtain ⟨-, -, -, hc | hc⟩ | ⟨t, ht, hseg'⟩ := h.segment
    · exact absurd hc hseg
    · exact absurd hc hechec
    · cases hseg' with
      | texte => exact .inr ⟨_, ht, .texte⟩
      | marque hf => exact absurd hf hfini
  client := hecran

theorem stepClient_inv (hm : Laisse (base ancien)) (h : Inv ancien s) {s' : Etat} (hs : stepClient s = some s') :
    Inv ancien s' := by
  have hclient := h.client
  have hle := h.ecrites_le
  cases hx : s.client with
  | debut =>
    simp only [stepClient, hx, Option.some.injEq] at hs
    subst hs
    rw [hx] at hclient
    obtain ⟨hserv, hn, hnone, -⟩ | ⟨t, ht, hseg⟩ := h.segment
    · rw [if_pos hnone]
      exact ⟨h.ecrit, .inl ⟨hserv, hn, hnone, .inr rfl⟩, hclient⟩
    · rw [if_neg (by rw [ht]; nofun)]
      have hvide : s.sortie = [] := hclient
      refine ⟨h.ecrit, .inr ⟨t, ht, ?_⟩, Nat.zero_le _, by rw [hvide]; rfl, by rw [hvide]; exact affiche_nil _⟩
      cases hseg with
      | texte => exact .texte
      | marque hf => rw [hx] at hf; exact nomatch hf
  | lit i =>
    obtain ⟨c, hlu, htexte⟩ := h.lit hm (.inl hx)
    simp only [stepClient, hx, hlu, Option.some.injEq] at hs
    subst hs
    rw [hx] at hclient
    obtain ⟨hi, hlen, hl⟩ := hclient
    refine h.client_suite (by rw [hx]; nofun) ?_ (by rw [hx]; nofun) (by rw [hx]; nofun)
    split_ifs with hc
    · exact hl
    · refine ⟨?_, hlen, hl, by rw [htexte]; simpa using hc⟩
      -- the last byte is a zero
      rcases Nat.lt_or_ge i 26 with hlt | hge
      · exact hlt
      · obtain rfl : i = 26 := le_antisymm hi hge
        rw [texte_getElem? hle, if_neg (by omega), hm.2] at htexte
        exact absurd (Option.some.inj htexte).symm hc
  | affiche i =>
    obtain ⟨c, hlu, htexte⟩ := h.lit hm (.inr hx)
    simp only [stepClient, hx, hlu, Option.some.injEq] at hs
    subst hs
    rw [hx] at hclient
    obtain ⟨hi, hlen, hl, hc⟩ := hclient
    refine h.client_suite (by rw [hx]; nofun) ?_ (by rw [hx]; nofun) (by rw [hx]; nofun)
    have hc0 : c ≠ 0 := by
      rintro rfl
      exact hc htexte
    exact ⟨hi, by rw [List.length_append, hlen]; rfl, affiche_concat hl (hlen ▸ hi) hle hc0 (by rw [hlen, htexte])⟩
  | retour =>
    simp only [stepClient, hx, Option.some.injEq] at hs
    subst hs
    rw [hx] at hclient
    exact h.client_suite (by rw [hx]; nofun) ⟨_, rfl, hclient⟩ (by rw [hx]; nofun) (by rw [hx]; nofun)
  | marque =>
    simp only [stepClient, hx, Option.some.injEq] at hs
    subst hs
    rw [hx] at hclient
    refine ⟨h.ecrit, ?_, hclient⟩
    obtain ⟨-, -, -, hc | hc⟩ | ⟨t, ht, hseg⟩ := h.segment
    · rw [hx] at hc; exact nomatch hc
    · rw [hx] at hc; exact nomatch hc
    · cases hseg with
      | texte => exact .inr ⟨_, by rw [ht]; rfl, .marque rfl⟩
      | marque hf => rw [hx] at hf; exact nomatch hf
  | fini => simp [stepClient, hx] at hs
  | echec => simp [stepClient, hx] at hs
  | hors => simp [stepClient, hx] at hs

theorem avance_inv (hm : Laisse (base ancien)) (s : Etat) (p : Proc) (h : Inv ancien s) : Inv ancien (avance s p) := by
  cases p with
  | serveur =>
    rw [avance]
    cases hs : stepServeur s with
    | none => exact h
    | some s' => exact stepServeur_inv hm h hs
  | client =>
    rw [avance]
    cases hs : stepClient s with
    | none => exact h
    | some s' => exact stepClient_inv hm h hs

theorem Segment.laisse {client : Client} {t : Octets} (h : Segment m j client t) (hm : Laisse m) (hj : j ≤ 26) :
    Laisse t := by
  have hzero : (Shm.texte m j)[26]? = some 0 := by rw [texte_getElem? hj, if_neg (by omega), hm.2]
  cases h with
  | texte => exact ⟨length_texte hm.1 hj, hzero⟩
  | marque hfini =>
    refine ⟨by rw [List.length_set, length_texte hm.1 hj], ?_⟩
    rw [List.getElem?_set_ne (by decide), hzero]

/-- **What a run leaves**, wherever it is stopped, is a segment of the kind it may find. -/
theorem segment_laisse (hlaisse : ∀ m, ancien = some m → Laisse m) (ordre : ℕ → Proc) (n : ℕ) :
    ∀ t, (execution avance (init ancien) ordre n).segment = some t → Laisse t := by
  intro t ht
  have hm := laisse_base hlaisse
  have hinv : Inv ancien (execution avance (init ancien) ordre n) := execution_inv (avance_inv hm) (inv_init ancien) n
  obtain ⟨-, -, hnone, -⟩ | ⟨t', ht', hseg⟩ := hinv.segment
  · rw [hnone] at ht
    cases ht
  · rw [ht'] at ht
    obtain rfl := Option.some.inj ht
    exact hseg.laisse hm hinv.ecrites_le

/-- what the invariant says of the output -/
theorem Inv.imprime {s : Etat} (h : Inv ancien s) :
    s.client ≠ .hors ∧ ∃ l, Affiche (base ancien) l ∧ (s.sortie = l ∨ s.sortie = l ++ [10]) := by
  have hclient := h.client
  cases hx : s.client with
  | hors => rw [hx] at hclient; exact hclient.elim
  | debut | echec =>
    rw [hx] at hclient
    exact ⟨nofun, [], affiche_nil _, .inl hclient⟩
  | lit i => rw [hx] at hclient; exact ⟨nofun, _, hclient.2.2, .inl rfl⟩
  | affiche i => rw [hx] at hclient; exact ⟨nofun, _, hclient.2.2.1, .inl rfl⟩
  | retour => rw [hx] at hclient; exact ⟨nofun, _, hclient, .inl rfl⟩
  | marque | fini =>
    rw [hx] at hclient
    obtain ⟨l, hs, hl⟩ := hclient
    exact ⟨nofun, l, hl, .inr hs⟩

/-- **What the client prints**: letters at their places, or what an earlier run had left there, never a zero, and the
newline last; it reads nothing outside the segment. -/
theorem client_sortie (hlaisse : ∀ m, ancien = some m → Laisse m) (ordre : ℕ → Proc) (n : ℕ) :
    (execution avance (init ancien) ordre n).client ≠ .hors ∧
      ∃ l, Affiche (base ancien) l ∧ ((execution avance (init ancien) ordre n).sortie = l ∨
        (execution avance (init ancien) ordre n).sortie = l ++ [10]) := by
  have hinv : Inv ancien (execution avance (init ancien) ordre n) :=
    execution_inv (avance_inv (laisse_base hlaisse)) (inv_init ancien) n
  exact hinv.imprime

/-- after a run that has ended well, with the client first -/
theorem client_sortie_reste :
    ∃ l, Affiche (base (some (etoile :: alphabet.tail ++ [0]))) l ∧
      ((execution avance (init (some (etoile :: alphabet.tail ++ [0]))) (fun k => if k < 3 then .client else .serveur)
        5).sortie = l ∨
      (execution avance (init (some (etoile :: alphabet.tail ++ [0]))) (fun k => if k < 3 then .client else .serveur)
        5).sortie = l ++ [10]) := by
  refine (client_sortie ?_ _ 5).2
  intro m hm
  obtain rfl := Option.some.inj hm
  exact ⟨by decide, by decide⟩

/-- on a new segment, it prints a beginning of the alphabet -/
theorem affiche_nouveau {l : Octets} (h : Affiche (base none) l) : l <+: alphabet := by
  obtain ⟨hlen, hl⟩ := h
  rw [List.prefix_iff_eq_take]
  refine List.ext_getElem? fun k => ?_
  rcases Nat.lt_or_ge k l.length with hk | hk
  · obtain ⟨hne, hlettre | hbase⟩ := hl k _ (List.getElem?_eq_getElem hk)
    · rw [List.getElem?_take_of_lt hk, alphabet_getElem? (by omega), List.getElem?_eq_getElem hk, hlettre]
    · -- a new segment holds zeros
      have hzero := List.eq_of_mem_replicate (List.mem_of_getElem? hbase)
      exact absurd hzero hne
  · rw [List.getElem?_eq_none hk, List.getElem?_eq_none (by rw [List.length_take]; omega)]

theorem client_sortie_nouveau (ordre : ℕ → Proc) (n : ℕ) :
    ∃ l, l <+: alphabet ∧ ((execution avance (init none) ordre n).sortie = l ∨
      (execution avance (init none) ordre n).sortie = l ++ [10]) := by
  have hlaisse : ∀ m, none = some m → Laisse m := by simp
  have hinv : Inv none (execution avance (init none) ordre n) :=
    execution_inv (avance_inv (laisse_base hlaisse)) (inv_init none) n
  obtain ⟨-, l, hl, hs⟩ := hinv.imprime
  exact ⟨l, affiche_nouveau hl, hs⟩

/-! ## The star -/

/-- the client writes its star at the step `k`, after the first letter -/
def Marque (ancien : Option Octets) (ordre : ℕ → Proc) (k : ℕ) : Prop :=
  ordre k = .client ∧ (execution avance (init ancien) ordre k).client = .marque ∧
    0 < (execution avance (init ancien) ordre k).serveur.ecrites

/-- the star is on the first letter -/
def Etat.Etoile (s : Etat) : Prop := 0 < s.serveur.ecrites ∧ s.segment.bind (·[0]?) = some etoile

theorem premier_set {segment : Option Octets} {x : UInt8} (hi : 0 < i) :
    (segment.map (·.set i x)).bind (·[0]?) = segment.bind (·[0]?) := by
  cases segment with
  | none => rfl
  | some t => simp [hi.ne']

/-- a step that puts the star there, or ends the server -/
theorem avance_etoile {p : Proc} (h : (avance s p).Etoile ∨ (avance s p).serveur = .fini) :
    (s.Etoile ∨ s.serveur = .fini) ∨ p = .client ∧ s.client = .marque ∧ 0 < s.serveur.ecrites := by
  cases p with
  | serveur =>
    refine .inl ?_
    cases hx : s.serveur with
    | debut => simp [avance, stepServeur, hx, Etat.Etoile, Serveur.ecrites] at h
    | ecrit i =>
      rcases Nat.eq_zero_or_pos i with rfl | hi
      · -- the letter is not a star
        have hne := lettre_ne_etoile (show 0 < 26 by decide)
        cases hseg : s.segment with
        | none => simp [avance, stepServeur, hx, Etat.Etoile, hseg] at h
        | some t => cases t <;> simp [avance, stepServeur, hx, Etat.Etoile, hseg, hne] at h
      · refine .inl ⟨by rw [hx]; exact hi, ?_⟩
        simp only [avance, stepServeur, hx] at h
        split_ifs at h
        · simpa [Etat.Etoile, premier_set hi, Serveur.ecrites] using h
        · simpa [Etat.Etoile, premier_set hi, Serveur.ecrites] using h
    | scrute =>
      refine .inl ⟨by rw [hx]; decide, ?_⟩
      by_contra hne
      simp [avance, stepServeur, hx, Etat.Etoile, hne] at h
    | fini => exact .inr rfl
  | client =>
    cases hx : s.client with
    | marque =>
      rcases Nat.eq_zero_or_pos s.serveur.ecrites with hzero | hpos
      · refine .inl (.inr ?_)
        simpa [avance, stepClient, hx, Etat.Etoile, hzero] using h
      · exact .inr ⟨rfl, rfl, hpos⟩
    | lit i =>
      refine .inl ?_
      cases hlu : s.segment.bind (·[i]?) <;> simpa [avance, stepClient, hx, hlu, Etat.Etoile] using h
    | affiche i =>
      refine .inl ?_
      cases hlu : s.segment.bind (·[i]?) <;> simpa [avance, stepClient, hx, hlu, Etat.Etoile] using h
    | _ => exact .inl (by simpa [avance, stepClient, hx, Etat.Etoile] using h)

/-- the star stays on the first letter, since the client has ended -/
structure Attendue (s : Etat) : Prop where
  client : s.client = .fini
  etoile : s.Etoile
  ecrit : ∀ i, s.serveur = .ecrit i → i ≤ 26

/-- the writes left to the server, and its last test -/
def Serveur.rang : Serveur → ℕ
  | ecrit i => 28 - i
  | scrute => 1
  | _ => 0

theorem avance_attendue {p : Proc} (h : Attendue s) : Attendue (avance s p) := by
  obtain ⟨hc, ⟨hpos, het⟩, hecrit⟩ := h
  cases p with
  | client => simpa [avance, stepClient, hc] using Attendue.mk hc ⟨hpos, het⟩ hecrit
  | serveur =>
    cases hx : s.serveur with
    | debut => rw [hx] at hpos; exact absurd hpos (lt_irrefl 0)
    | ecrit i =>
      rw [hx] at hpos
      have hi := hecrit i hx
      simp only [avance, stepServeur, hx]
      split_ifs with hlt
      · exact ⟨hc, ⟨Nat.succ_pos i, (premier_set hpos).trans het⟩, fun k hk => by injection hk with hk; omega⟩
      · exact ⟨hc, ⟨Nat.succ_pos 25, (premier_set hpos).trans het⟩, nofun⟩
    | scrute =>
      simp only [avance, stepServeur, hx, het, if_true]
      exact ⟨hc, ⟨Nat.succ_pos 25, het⟩, nofun⟩
    | fini =>
      simpa [avance, stepServeur, hx] using Attendue.mk hc ⟨hpos, het⟩ hecrit

theorem avance_rang (h : Attendue s) (hf : s.serveur ≠ .fini) :
    Avance avance (fun s => s.serveur.rang) (fun _ => .serveur) s := by
  obtain ⟨hc, ⟨hpos, het⟩, hecrit⟩ := h
  have hbaisse : (avance s .serveur).serveur.rang < s.serveur.rang := by
    cases hx : s.serveur with
    | debut => rw [hx] at hpos; exact absurd hpos (lt_irrefl 0)
    | ecrit i =>
      have hi := hecrit i hx
      simp only [avance, stepServeur, hx]
      split_ifs with hlt
      · simp only [Option.getD_some, Serveur.rang]
        omega
      · simp only [Option.getD_some, Serveur.rang]
        omega
    | scrute => simp [avance, stepServeur, hx, het, Serveur.rang]
    | fini => exact absurd hx hf
  refine ⟨hbaisse, fun p => ?_⟩
  cases p with
  | serveur => exact .inl hbaisse
  | client => exact .inr ⟨by simp [avance, stepClient, hc], rfl⟩

/-- **When the server ends**: under a fair schedule, exactly when the client writes its star after the first letter.
When it comes before, the letter goes over it and the server waits for ever. -/
theorem serveur_fini_iff (hlaisse : ∀ m, ancien = some m → Laisse m) {ordre : ℕ → Proc} (ho : Equitable ordre) :
    (∃ n, (execution avance (init ancien) ordre n).serveur = .fini) ↔ ∃ k, Marque ancien ordre k := by
  have hm := laisse_base hlaisse
  apply Iff.intro
  · intro h
    obtain ⟨n, hn⟩ := h
    -- the star was put before the server saw it
    have havant : ∀ n, ((execution avance (init ancien) ordre n).Etoile ∨
        (execution avance (init ancien) ordre n).serveur = .fini) → ∃ k, Marque ancien ordre k := by
      intro n
      induction n with
      | zero => exact fun h => h.elim (fun h => absurd h.1 (lt_irrefl 0)) (by simp [execution, init])
      | succ n ih =>
        intro h
        rcases avance_etoile h with h | ⟨hp, hc, hpos⟩
        · exact ih h
        · exact ⟨n, hp, hc, hpos⟩
    exact havant n (.inr hn)
  · intro h
    obtain ⟨k, hp, hc, hpos⟩ := h
    have hinv : Inv ancien (execution avance (init ancien) ordre k) :=
      execution_inv (avance_inv hm) (inv_init ancien) k
    have hattendue : Attendue (execution avance (init ancien) ordre (k + 1)) := by
      rw [execution, hp]
      generalize execution avance (init ancien) ordre k = s at hc hpos hinv
      simp only [avance, stepClient, hc, Option.getD_some]
      refine ⟨rfl, ⟨hpos, ?_⟩, hinv.ecrit⟩
      obtain ⟨hd, -⟩ | ⟨t, ht, hseg⟩ := hinv.segment
      · rw [hd] at hpos
        exact absurd hpos (lt_irrefl 0)
      · have hlen : 0 < t.length := by
          cases hseg with
          | texte => rw [length_texte hm.1 hinv.ecrites_le]; decide
          | marque hf => rw [hc] at hf; cases hf
        simp [ht, hlen]
    obtain ⟨n, hn⟩ := exists_fini (fun s p h => avance_attendue h) (fun s h hf => avance_rang h hf) hattendue
      (ho.suite (k + 1))
    exact ⟨k + 1 + n, by rw [execution_add]; exact hn⟩

theorem serveur_fini_iff_alterne :
    (∃ n, (execution avance (init none) (fun k => if k % 2 = 0 then .serveur else .client) n).serveur = .fini) ↔
      ∃ k, Marque none (fun k => if k % 2 = 0 then .serveur else .client) k := by
  have hlaisse : ∀ m, none = some m → Laisse m := nofun
  refine serveur_fini_iff hlaisse fun p n => ?_
  cases p with
  | serveur => exact ⟨2 * n, by omega, if_pos (by omega)⟩
  | client => exact ⟨2 * n + 1, by omega, if_neg (by omega)⟩

end Semestre6.Shm
