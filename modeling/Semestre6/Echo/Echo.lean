/-
TP7: a session of echoclient.c with the function `echo` of the server, over a connection that gives the bytes in
pieces of any size and holds at most `cap` bytes each way.

The client sends a line, the server takes it for the name of a file and sends the file back, and the client prints what
it receives line by line. A machine step is one `read` or `write` of either process, with what it does up to the next
one. `indefini`: the server opens a name that it never received. `tourne`: the `read` of what it opened fails, and so
does the `write` of that -1 as a length, which `Rio_writen` takes for all the bytes written; the loop goes on.

- `session_bornee`: every run ends, unless the file that is named cannot be read;
- `session_issue`: how it ends, for each input of the client. The two processes wait for each other for ever when the
  line has no newline and does not fill the buffer of the server;
- `session_rend`: on the name of a file without NUL bytes, it prints the file;
- `sortie_prefixe`: until then, what is printed is right so far.
-/
import Semestre6.Echo.Rio
import Semestre6.Shell.Readline
import Semestre6.Lib.Transition

namespace Semestre6.Echo

open Semestre6.Ftp (Octets maxline)
open Semestre6.Shell (lus length_lus_le)
open Octets (cstr)
open Rio Morceaux Transition

/-- what `open` finds; a directory can be opened but not read -/
inductive Fichier where
  | absent
  | lisible (contenu : Octets)
  | illisible
deriving DecidableEq, Repr

inductive Client where
  /-- in `Rio_writen` -/
  | ecrit (reste : Octets) (rp : RioT)
  /-- at the test of the loop -/
  | appelle (rp : RioT)
  /-- in the `read` of `Rio_readlineb` -/
  | attend (e : ℕ × Octets × RioT)
  | fini
deriving DecidableEq, Repr

inductive Serveur where
  /-- in the `read` of `Rio_readlineb` -/
  | nom (e : ℕ × Octets × RioT)
  | lit (fichier : Octets)
  | ecrit (buf fichier : Octets)
  | ferme
  /-- in the loop, with a `read` that fails each time -/
  | tourne
  | indefini
deriving DecidableEq, Repr

structure Etat where
  client : Client
  serveur : Serveur
  versServeur : Octets
  versClient : Octets
  sortie : Octets
deriving DecidableEq, Repr

/-- `k` bytes more of the connection; at end of file, none -/
def recoit (canal : Octets) (ferme : Bool) (k : ℕ) : Option (Octets × Octets) :=
  if canal = [] then if ferme ∧ k = 0 then some ([], []) else none
  else if 0 < k ∧ k ≤ canal.length ∧ k ≤ rioBufsize then some (canal.take k, canal.drop k) else none

def envoie (cap : ℕ) (canal reste : Octets) (k : ℕ) : Option (Octets × Octets) :=
  if 0 < k ∧ k ≤ reste.length ∧ canal.length + k ≤ cap then some (canal ++ reste.take k, reste.drop k) else none

/-! ## The client -/

/-- the bytes of `Rio_writen(clientfd, buf, strlen(buf))` -/
def envoi (stdin : Octets) : Octets := cstr (lus (maxline - 1) stdin ++ [0])

def Client.suite (reste : Octets) (rp : RioT) : Client := if reste = [] then .appelle rp else .ecrit reste rp

/-- `Fputs(buf, stdout)` -/
def imprime (w : Octets) : Octets := cstr (w ++ [0])

/-- the end of a call of `Rio_readlineb`, which exits on an error -/
def tour (s : Etat) : Appel (ℕ × Octets × RioT) (ℤ × Octets) → Etat
  | .attend e => { s with client := .attend e }
  | .rendu (rc, w) rp _ =>
    if 0 < rc then { s with client := .appelle rp, sortie := s.sortie ++ imprime w }
    else { s with client := .fini, sortie := if rc = 0 then s.sortie ++ [10] else s.sortie }

/-! ## The server -/

/-- the string `fich`, once its newline is taken off -/
def nomFichier (nb : ℤ) (w : Octets) : Octets :=
  let fich := w ++ [0]
  cstr (if 1 < nb ∧ fich[nb.toNat - 1]? = some 10 then fich.set (nb.toNat - 1) 0 else fich)

def ouvre : Fichier → Serveur
  | .absent => .ferme
  | .lisible contenu => .lit contenu
  | .illisible => .tourne

/-- the end of a call of `Rio_readlineb`: nothing is in `fich` when it returns 0 -/
def nomme (fichiers : Octets → Fichier) : Appel (ℕ × Octets × RioT) (ℤ × Octets) → Serveur
  | .attend e => .nom e
  | .rendu (nb, w) _ _ => if nb = 0 then .indefini else ouvre (fichiers (nomFichier nb w))

def Serveur.suite (buf fichier : Octets) : Serveur := if buf = [] then .lit fichier else .ecrit buf fichier

/-! ## The session -/

inductive Evenement where
  | clientEcrit (k : ℕ)
  | clientAppelle
  | clientLit (k : ℕ)
  | serveurNom (k : ℕ)
  | serveurLit (k : ℕ)
  | serveurEcrit (k : ℕ)
deriving DecidableEq, Repr

def step (cap : ℕ) (fichiers : Octets → Fichier) (s : Etat) : Evenement → Option Etat
  | .clientEcrit k =>
    match s.client with
    | .ecrit reste rp =>
      (envoie cap s.versServeur reste k).map fun p => { s with versServeur := p.1, client := .suite p.2 rp }
    | _ => none
  | .clientAppelle =>
    match s.client with
    | .appelle rp => some (tour s (rioReadlineb maxline rp []))
    | _ => none
  | .clientLit k =>
    match s.client with
    | .attend e =>
      (recoit s.versClient (s.serveur = .ferme) k).map fun p =>
        tour { s with versClient := p.2 } (reprend maxline e [.octets p.1])
    | _ => none
  | .serveurNom k =>
    match s.serveur with
    | .nom e =>
      (recoit s.versServeur (s.client = .fini) k).map fun p =>
        { s with versServeur := p.2, serveur := nomme fichiers (reprend maxline e [.octets p.1]) }
    | _ => none
  | .serveurLit k =>
    match s.serveur with
    | .lit fichier =>
      if fichier = [] then if k = 0 then some { s with serveur := .ferme } else none
      else if 0 < k ∧ k ≤ fichier.length ∧ k ≤ maxline then
        some { s with serveur := .ecrit (fichier.take k) (fichier.drop k) }
      else none
    | .tourne => if k = 0 then some s else none
    | _ => none
  | .serveurEcrit k =>
    match s.serveur with
    | .ecrit buf fichier =>
      (envoie cap s.versClient buf k).map fun p => { s with versClient := p.1, serveur := .suite p.2 fichier }
    | _ => none

/-- buffers that nobody wrote -/
abbrev Tampon := { buf : Octets // buf.length = rioBufsize }

/-- the connection is accepted and the client has had its line -/
def init (stdin : Octets) (bufc bufs : Tampon) : Etat where
  client := if stdin = [] then .fini else .suite (envoi stdin) (rioReadinitb bufc)
  serveur := .nom (1, [], rioReadinitb bufs)
  versServeur := []
  versClient := []
  sortie := if stdin = [] then [10] else []

/-! ## What a session is to do -/

inductive Issue where
  | rendu (sortie : Octets)
  | bloque
  | sansFin
  | indefini
deriving DecidableEq, Repr

/-- the bytes of the file that the server opens for a name -/
def Fichier.contenu : Fichier → Octets
  | .lisible contenu => contenu
  | _ => []

/-- what the client prints of a file -/
def imprimes (contenu : Octets) : Octets := (coupe (maxline - 1) 10 [] contenu).flatMap imprime

/-- the file that the client asks for -/
def demande (fichiers : Octets → Fichier) (stdin : Octets) : Fichier :=
  fichiers (nomFichier (compte (envoi stdin)) (envoi stdin))

def issue (fichiers : Octets → Fichier) (stdin : Octets) : Issue :=
  if stdin = [] then .indefini
  else if Ouvert (maxline - 1) 10 (envoi stdin) then .bloque
  else
    match demande fichiers stdin with
    | .illisible => .sansFin
    | fichier => .rendu (imprimes fichier.contenu ++ [10])

/-- what a state has come to -/
def Etat.Est (s : Etat) : Issue → Prop
  | .rendu sortie => s.client = .fini ∧ s.serveur = .ferme ∧ s.sortie = sortie
  | .bloque => (∃ e, s.client = .attend e) ∧ (∃ e, s.serveur = .nom e) ∧ s.versServeur = [] ∧ s.versClient = [] ∧
    s.sortie = []
  | .sansFin => s.serveur = .tourne
  | .indefini => s.serveur = .indefini

/-! ## The lines that are printed -/

variable {contenu sortie w w' d t e : Octets} {a : Appel (ℕ × Octets × RioT) (ℤ × Octets)} {s s' : Etat}

theorem imprime_de_sans_nul (h : 0 ∉ w) : imprime w = w :=
  Octets.cstr_append_zero w [] fun _ hx he => h (he ▸ hx)

/-- a file without NUL bytes is printed as it is -/
theorem imprimes_de_sans_nul (h : 0 ∉ contenu) : imprimes contenu = contenu := by
  have hplat : (coupe (maxline - 1) 10 [] contenu).flatten = contenu := coupe_flatten
  have hligne : ∀ w ∈ coupe (maxline - 1) 10 [] contenu, imprime w = w := by
    intro w hw
    refine imprime_de_sans_nul fun h0 => h ?_
    rw [← hplat]
    exact List.mem_flatten.2 ⟨w, hw, h0⟩
  rw [imprimes, List.flatMap_congr hligne, List.flatMap_id', hplat]

/-- of the lines of `contenu` some are printed, the others are cut in `t` behind `w` -/
def Imprime (contenu sortie w t : Octets) : Prop :=
  ∃ lignes, sortie = lignes.flatMap imprime ∧
    lignes ++ coupe (maxline - 1) 10 w t = coupe (maxline - 1) 10 [] contenu

theorem Imprime.suite (h : Imprime contenu sortie w t) {t' : Octets}
    (hc : coupe (maxline - 1) 10 w t = coupe (maxline - 1) 10 w' t') : Imprime contenu sortie w' t' := by
  obtain ⟨lignes, hs, hl⟩ := h
  exact ⟨lignes, hs, hc ▸ hl⟩

theorem Imprime.ligne (h : Imprime contenu sortie w t) {t' : Octets}
    (hc : coupe (maxline - 1) 10 w t = w' :: coupe (maxline - 1) 10 [] t') :
    Imprime contenu (sortie ++ imprime w') [] t' := by
  obtain ⟨lignes, hs, hl⟩ := h
  refine ⟨lignes ++ [w'], ?_, ?_⟩
  · rw [hs, List.flatMap_append, List.flatMap_singleton]
  · rw [← hl, hc, List.append_assoc, List.singleton_append]

theorem Imprime.fin (h : Imprime contenu sortie [] []) : sortie = imprimes contenu := by
  obtain ⟨lignes, hs, hl⟩ := h
  rw [coupe_nil_nil, List.append_nil] at hl
  rw [hs, imprimes, hl]

theorem Imprime.prefixe (h : Imprime contenu sortie w t) : sortie <+: imprimes contenu := by
  obtain ⟨lignes, hs, hl⟩ := h
  rw [hs, imprimes, ← hl, List.flatMap_append]
  exact List.prefix_append _ _

/-- nothing is printed while all is to come -/
theorem Imprime.debut (h : Imprime contenu sortie w contenu) : sortie = [] := by
  obtain ⟨lignes, hs, hl⟩ := h
  have hplat := congrArg List.flatten hl
  rw [List.flatten_append, coupe_flatten, coupe_flatten, List.nil_append] at hplat
  have hvide : lignes.flatten = [] := by
    have hlen := congrArg List.length hplat
    simp only [List.length_append] at hlen
    exact List.length_eq_zero_iff.1 (by omega)
  rw [hs, List.flatMap_eq_nil_iff]
  intro ligne hligne
  rw [List.flatten_eq_nil_iff.1 hvide ligne hligne]
  rfl

/-! ## The name that the client sends -/

theorem lus_ouvert {n : ℕ} {flux r : Octets} (h : lus n flux = w ++ r) (hr : r ≠ []) : Ouvert n 10 w := by
  induction n generalizing flux w with
  | zero => exact absurd (List.append_eq_nil_iff.1 h.symm).2 hr
  | succ n ih =>
    match flux, w with
    | [], _ => exact absurd (List.append_eq_nil_iff.1 h.symm).2 hr
    | _ :: _, [] => exact ⟨List.not_mem_nil, Nat.succ_pos n⟩
    | c :: flux, x :: w =>
      rw [lus] at h
      split_ifs at h with hc
      · have hnil : w ++ r = [] := (List.cons.inj h).2.symm
        exact absurd (List.append_eq_nil_iff.1 hnil).2 hr
      · obtain ⟨rfl, hl⟩ := List.cons.inj h
        obtain ⟨hw, hlen⟩ := ih hl
        exact ⟨by simpa using ⟨Ne.symm hc, hw⟩, Nat.succ_lt_succ hlen⟩

/-- the line is complete at its last byte only -/
theorem envoi_ouvert {stdin r : Octets} (h : envoi stdin = w ++ r) (hr : r ≠ []) : Ouvert (maxline - 1) 10 w := by
  rw [envoi, Octets.cstr_concat_zero] at h
  obtain ⟨reste, hreste⟩ := List.takeWhile_prefix (l := lus (maxline - 1) stdin) (· ≠ 0)
  have hlus : lus (maxline - 1) stdin = w ++ (r ++ reste) := by
    rw [← List.append_assoc, ← h]
    exact hreste.symm
  exact lus_ouvert hlus (by simp [hr])

theorem compte_pos (h : w ≠ []) : 0 < compte w := by
  have hlen := List.length_pos_of_ne_nil h
  rw [compte, if_neg h]
  split_ifs <;> omega

/-! ## The invariant -/

namespace Client

/-- the line that it is reading -/
def partiel : Client → Octets
  | attend e => e.2.1
  | _ => []

def nonLus : Client → Octets
  | ecrit _ rp => rp.nonLus
  | appelle rp => rp.nonLus
  | _ => []

def reste : Client → Octets
  | ecrit reste _ => reste
  | _ => []

def Sain : Client → Prop
  | ecrit reste rp => reste ≠ [] ∧ rp.Sain ∧ rp.nonLus = []
  | appelle rp => rp.Sain
  | attend (n, w, rp) => n = w.length + 1 ∧ rp.Sain ∧ rp.nonLus = [] ∧ Ouvert (maxline - 1) 10 w
  | fini => True

/-- a bound of what it still does -/
def mesure : Client → ℕ
  | ecrit reste _ => 2 * reste.length + 3
  | appelle rp => 2 * rp.nonLus.length + 2
  | attend e => 2 * e.2.1.length + 1
  | fini => 0

end Client

namespace Serveur

/-- the bytes that it has still to write, when `f` is the file that the client asks for -/
def aEcrire (f : Fichier) : Serveur → Octets
  | nom _ => f.contenu
  | lit fichier => fichier
  | ecrit buf fichier => buf ++ fichier
  | _ => []

def Sain : Serveur → Prop
  | nom (n, w, rp) => n = w.length + 1 ∧ rp.Sain ∧ rp.nonLus = [] ∧ Ouvert (maxline - 1) 10 w
  | ecrit buf _ => buf ≠ []
  | _ => True

def mesure (f : Fichier) : Serveur → ℕ
  | nom _ => 5 * f.contenu.length + 2
  | lit fichier => 5 * fichier.length + 1
  | ecrit buf fichier => 4 * buf.length + 5 * fichier.length + 1
  | _ => 0

/-- what is left of the name `e`, when `t` is still to reach the server -/
def Recu (f : Fichier) (e t : Octets) : Serveur → Prop
  | nom x => x.2.1 ++ t = e
  | tourne => t = [] ∧ ¬Ouvert (maxline - 1) 10 e ∧ f = .illisible
  | indefini => False
  | _ => t = [] ∧ ¬Ouvert (maxline - 1) 10 e ∧ f ≠ .illisible

end Serveur

structure Inv (f : Fichier) (e : Octets) (s : Etat) : Prop where
  client : s.client.Sain
  serveur : s.serveur.Sain
  recu : s.serveur.Recu f e (s.versServeur ++ s.client.reste)
  lignes : s.client ≠ .fini →
    Imprime f.contenu s.sortie s.client.partiel (s.client.nonLus ++ s.versClient ++ s.serveur.aEcrire f)
  fini : s.client = .fini → s.serveur = .ferme ∧ s.sortie = imprimes f.contenu ++ [10]

def Etat.mesure (f : Fichier) (s : Etat) : ℕ :=
  s.client.mesure + s.versServeur.length + 3 * s.versClient.length + s.serveur.mesure f

variable {f : Fichier} {k cap : ℕ} {rp : RioT} {reste canal canal' : Octets}

/-! ## The turns of the client -/

/-- what a call that takes `d` leaves to the client, when `t` is still to come -/
structure Tour (f : Fichier) (w d t : Octets) (s s' : Etat) : Prop where
  serveur : s'.serveur = s.serveur
  versServeur : s'.versServeur = s.versServeur
  versClient : s'.versClient = s.versClient
  sain : s'.client.Sain
  reste : s'.client.reste = []
  suite : s'.client ≠ .fini
  lignes : Imprime f.contenu s'.sortie s'.client.partiel (s'.client.nonLus ++ t)
  mesure : s'.client.mesure ≤ 2 * (w.length + d.length) + 1

theorem tour_lignes (ho : Ouvert (maxline - 1) 10 w) (ha : LigneLue maxline w d 0 a)
    (hs : ∀ r rp lus, a = .rendu r rp lus → lus = []) (hi : Imprime f.contenu s.sortie w (d ++ t)) :
    Tour f w d t s (tour s a) := by
  match a with
  | .attend (n, w', rp) =>
    obtain ⟨hrp, hvide, hn, rfl, hw, -⟩ := ha
    refine ⟨rfl, rfl, rfl, ⟨hn, hrp, hvide, hw⟩, rfl, nofun, ?_, ?_⟩
    · exact hi.suite (coupe_append hw)
    · show 2 * (w ++ d).length + 1 ≤ _
      rw [List.length_append]
  | .rendu (rc, w') rp lus =>
    obtain rfl := hs _ _ _ rfl
    obtain ⟨hrp, -, rfl, hwd, hc, ⟨-, hw⟩ | ⟨hf, -⟩⟩ := ha
    · have hw' : w' ≠ [] := by
        rintro rfl
        exact hw ⟨List.not_mem_nil, (Nat.zero_le _).trans_lt ho.2⟩
      rw [if_neg hw'] at hc
      have hflux : flux rp [] = rp.nonLus := List.append_nil _
      rw [hflux] at hwd
      rw [tour, if_pos (compte_pos hw')]
      refine ⟨rfl, rfl, rfl, hrp, rfl, nofun, hi.ligne (coupe_append_complet ho hwd hc hw), ?_⟩
      have hlen := congrArg List.length hwd
      have hpos := List.length_pos_of_ne_nil hw'
      simp only [List.length_append] at hlen
      show 2 * rp.nonLus.length + 2 ≤ _
      omega
    · simp [fins] at hf

/-- the end of file ends the last line, then the client -/
theorem tour_fin (ha : LigneLue maxline w [] 1 a) (hs : ∀ r rp lus, a = .rendu r rp lus → lus = []) :
    ∃ rp : RioT, rp.Sain ∧ rp.nonLus = [] ∧
      tour s a = if w = [] then { s with client := .fini, sortie := s.sortie ++ [10] }
        else { s with client := .appelle rp, sortie := s.sortie ++ imprime w } := by
  match a with
  | .attend (n, w', rp) =>
    obtain ⟨-, -, -, -, -, hf⟩ := ha
    exact absurd hf one_ne_zero
  | .rendu (rc, w') rp lus =>
    obtain rfl := hs _ _ _ rfl
    obtain ⟨hrp, -, rfl, hwd, -, ⟨hf, -⟩ | ⟨-, -, hvide⟩⟩ := ha
    · simp [fins] at hf
    · obtain rfl : w = w' := by simpa [hvide] using hwd
      refine ⟨rp, hrp, by simpa [flux, donnees] using hvide, ?_⟩
      by_cases hw : w = []
      · subst hw
        rfl
      · rw [if_neg hw, tour, if_pos (compte_pos hw)]

/-! ## The steps -/

theorem recoit_spec {ferme : Bool} (h : recoit canal ferme k = some (d, canal')) :
    (ferme = true ∧ canal = [] ∧ d = [] ∧ canal' = []) ∨ (d ≠ [] ∧ d.length ≤ rioBufsize ∧ canal = d ++ canal') := by
  rw [recoit] at h
  split_ifs at h with hc hf hk
  · simp only [Option.some.injEq, Prod.mk.injEq] at h
    obtain ⟨rfl, rfl⟩ := h
    exact .inl ⟨hf.1, hc, rfl, rfl⟩
  · simp only [Option.some.injEq, Prod.mk.injEq] at h
    obtain ⟨rfl, rfl⟩ := h
    refine .inr ⟨?_, ?_, (List.take_append_drop k canal).symm⟩
    · rw [Ne, List.take_eq_nil_iff]
      rintro (rfl | rfl)
      · exact absurd hk.1 (lt_irrefl 0)
      · exact hc rfl
    · rw [List.length_take]
      omega

theorem envoie_spec {reste' : Octets} (h : envoie cap canal reste k = some (canal', reste')) :
    ∃ d, d ≠ [] ∧ canal' = canal ++ d ∧ reste = d ++ reste' := by
  rw [envoie] at h
  split_ifs at h with hk
  simp only [Option.some.injEq, Prod.mk.injEq] at h
  obtain ⟨rfl, rfl⟩ := h
  refine ⟨reste.take k, ?_, rfl, (List.take_append_drop k reste).symm⟩
  rw [Ne, List.take_eq_nil_iff]
  rintro (rfl | rfl)
  · exact absurd hk.1 (lt_irrefl 0)
  · exact absurd hk.2.1 (by simpa using hk.1.ne')

/-- a connection that is not empty has a byte to read -/
theorem recoit_un (ferme : Bool) (h : canal ≠ []) : ∃ p, recoit canal ferme 1 = some p := by
  have hpos := List.length_pos_of_ne_nil h
  have hun : 1 ≤ rioBufsize := by decide
  exact ⟨_, by rw [recoit, if_neg h, if_pos ⟨one_pos, hpos, hun⟩]⟩

/-- an empty connection takes a byte -/
theorem envoie_un (hcap : 0 < cap) (h : reste ≠ []) : ∃ p, envoie cap [] reste 1 = some p := by
  have hpos := List.length_pos_of_ne_nil h
  exact ⟨_, by rw [envoie, if_pos ⟨one_pos, hpos, by rwa [List.length_nil, zero_add]⟩]⟩

theorem reprend_octets (ho : Ouvert (maxline - 1) 10 w) (h : rp.Sain) (hvide : rp.nonLus = []) (hd : d ≠ [])
    (hlen : d.length ≤ rioBufsize) : LigneLue maxline w d 0 (reprend maxline (w.length + 1, w, rp) [.octets d]) := by
  have hspec := reprend_spec ho h (.octets hd hlen .nil)
  have hflux : flux rp [.octets d] = d := by simp [flux, hvide, donnees, hd]
  have hfins : fins [.octets d] = 0 := by simp [fins, hd]
  rwa [hflux, hfins] at hspec

theorem reprend_fin (ho : Ouvert (maxline - 1) 10 w) (h : rp.Sain) (hvide : rp.nonLus = []) :
    LigneLue maxline w [] 1 (reprend maxline (w.length + 1, w, rp) [.octets []]) := by
  have hspec := reprend_spec ho h (.fin rfl .nil)
  have hflux : flux rp [.octets []] = [] := by simp [flux, hvide, donnees]
  rwa [hflux] at hspec

/-- what a step does to the invariant and to the measure -/
def Avance (f : Fichier) (e : Octets) (s s' : Etat) : Prop := Inv f e s' ∧ s'.mesure f < s.mesure f

theorem avance_clientEcrit (h : Inv f e s) (hc : s.client = .ecrit reste rp) {reste' : Octets}
    (hp : envoie cap s.versServeur reste k = some (canal, reste')) :
    Avance f e s { s with versServeur := canal, client := .suite reste' rp } := by
  obtain ⟨d, hd, rfl, rfl⟩ := envoie_spec hp
  obtain ⟨hclient, hserveur, hrecu, hlignes, -⟩ := h
  rw [hc] at hclient hrecu hlignes
  obtain ⟨-, hrp, hvide⟩ := hclient
  have hpos := List.length_pos_of_ne_nil hd
  by_cases hr : reste' = []
  · subst hr
    refine ⟨⟨hrp, hserveur, ?_, fun _ => hlignes nofun, nofun⟩, ?_⟩
    · simpa [Client.suite, Client.reste] using hrecu
    · simp only [Etat.mesure, hc, Client.suite, if_true, Client.mesure, hvide, List.length_append, List.length_nil]
      omega
  · refine ⟨⟨?_, hserveur, ?_, ?_, ?_⟩, ?_⟩
    · simpa [Client.suite, hr] using ⟨hr, hrp, hvide⟩
    · simpa [Client.suite, hr, Client.reste] using hrecu
    · simpa [Client.suite, hr, Client.partiel, Client.nonLus] using hlignes nofun
    · simp [Client.suite, hr]
    · simp only [Etat.mesure, hc, Client.suite, if_neg hr, Client.mesure, List.length_append]
      omega

theorem avance_clientAppelle (h : Inv f e s) (hc : s.client = .appelle rp) :
    Avance f e s (tour s (rioReadlineb maxline rp [])) := by
  obtain ⟨hclient, hserveur, hrecu, hlignes, -⟩ := h
  rw [hc] at hclient hrecu hlignes
  have hflux : flux rp [] = rp.nonLus := List.append_nil _
  have ha : LigneLue maxline [] (flux rp []) 0 (rioReadlineb maxline rp []) :=
    rioReadlineb_spec (by decide) hclient .nil
  rw [hflux] at ha
  have hs : ∀ r rp' lus, rioReadlineb maxline rp [] = .rendu r rp' lus → lus = [] := by
    intro r rp' lus hx
    exact List.length_eq_zero_iff.1 (Nat.le_zero.1 (boucleLigne_suite hx).1)
  have hi : Imprime f.contenu s.sortie [] (rp.nonLus ++ (s.versClient ++ s.serveur.aEcrire f)) := by
    simpa [Client.partiel, Client.nonLus] using hlignes nofun
  have ht := tour_lignes ⟨List.not_mem_nil, by decide⟩ ha hs hi
  refine ⟨⟨ht.sain, ht.serveur ▸ hserveur, ?_, fun _ => ?_, fun hfini => absurd hfini ht.suite⟩, ?_⟩
  · rw [ht.serveur, ht.versServeur, ht.reste]
    exact hrecu
  · rw [ht.versClient, ht.serveur, List.append_assoc]
    exact ht.lignes
  · have hm := ht.mesure
    rw [Etat.mesure, Etat.mesure, ht.serveur, ht.versServeur, ht.versClient, hc, Client.mesure]
    simp only [List.length_nil] at hm
    omega

theorem avance_clientLit (h : Inv f e s) {x : ℕ × Octets × RioT} (hc : s.client = .attend x)
    (hp : recoit s.versClient (s.serveur = .ferme) k = some (d, canal)) :
    Avance f e s (tour { s with versClient := canal } (reprend maxline x [.octets d])) := by
  obtain ⟨n, w, rp⟩ := x
  obtain ⟨hclient, hserveur, hrecu, hlignes, -⟩ := h
  rw [hc] at hclient hrecu hlignes
  obtain ⟨rfl, hrp, hvide, ho⟩ := hclient
  have hs : ∀ r rp' lus, reprend maxline (w.length + 1, w, rp) [.octets d] = .rendu r rp' lus → lus = [] :=
    fun r rp' lus hx => reprend_suite ho hrp hvide hx
  have hi : Imprime f.contenu s.sortie w (s.versClient ++ s.serveur.aEcrire f) := by
    simpa [Client.partiel, Client.nonLus] using hlignes nofun
  obtain ⟨hferme, hcanal, rfl, rfl⟩ | ⟨hd, hlen, hcanal⟩ := recoit_spec hp
  · -- the server has closed and nothing is left
    have hferme : s.serveur = .ferme := by simpa using hferme
    obtain ⟨rp', hrp', hvide', htour⟩ := tour_fin (s := { s with versClient := [] }) (reprend_fin ho hrp hvide) hs
    rw [hcanal, hferme] at hi
    rw [htour]
    by_cases hw : w = []
    · subst hw
      rw [if_pos rfl]
      refine ⟨⟨trivial, hserveur, hrecu, fun hne => absurd rfl hne, fun _ => ⟨hferme, ?_⟩⟩, ?_⟩
      · show s.sortie ++ [10] = _
        rw [hi.fin]
      · simp [Etat.mesure, hc, hcanal, Client.mesure]
    · rw [if_neg hw]
      refine ⟨⟨hrp', hserveur, hrecu, fun _ => ?_, nofun⟩, ?_⟩
      · show Imprime f.contenu (s.sortie ++ imprime w) [] (rp'.nonLus ++ [] ++ s.serveur.aEcrire f)
        rw [hferme, hvide']
        exact hi.ligne (coupe_nil hw)
      · have hpos := List.length_pos_of_ne_nil hw
        simp only [Etat.mesure, hc, hcanal, Client.mesure, hvide', List.length_nil]
        omega
  · rw [hcanal, List.append_assoc] at hi
    have ht := tour_lignes (s := { s with versClient := canal }) ho (reprend_octets ho hrp hvide hd hlen) hs hi
    generalize tour { s with versClient := canal } (reprend maxline (w.length + 1, w, rp) [.octets d]) = s' at ht ⊢
    obtain ⟨hserv, hvs, hvc, hsain, hreste, hsuite, hlignes', hm⟩ := ht
    refine ⟨⟨hsain, ?_, ?_, fun _ => ?_, fun hfini => absurd hfini hsuite⟩, ?_⟩
    · rw [hserv]
      exact hserveur
    · rw [hserv, hvs, hreste]
      exact hrecu
    · rw [hvc, hserv, List.append_assoc]
      exact hlignes'
    · have hpos := List.length_pos_of_ne_nil hd
      rw [Etat.mesure, Etat.mesure, hserv, hvs, hvc, hc, hcanal, Client.mesure]
      simp only [List.length_append]
      omega

/-- the name that the server completes is the one that the client sends -/
theorem avance_serveurNom {stdin : Octets} {fichiers : Octets → Fichier}
    (h : Inv (demande fichiers stdin) (envoi stdin) s) {x : ℕ × Octets × RioT} (hx : s.serveur = .nom x)
    (hp : recoit s.versServeur (s.client = .fini) k = some (d, canal)) :
    Avance (demande fichiers stdin) (envoi stdin) s
      { s with versServeur := canal, serveur := nomme fichiers (reprend maxline x [.octets d]) } := by
  obtain ⟨n, w, rp⟩ := x
  obtain ⟨hclient, hserveur, hrecu, hlignes, hfini⟩ := h
  rw [hx] at hserveur hrecu hlignes hfini
  have hnf : s.client ≠ .fini := fun hf => nomatch (hfini hf).1
  obtain ⟨rfl, hrp, hvide, ho⟩ := hserveur
  obtain ⟨hferme, -⟩ | ⟨hd, hlen, hcanal⟩ := recoit_spec hp
  · exact absurd (by simpa using hferme) hnf
  have hpos := List.length_pos_of_ne_nil hd
  have hrecu : w ++ (s.versServeur ++ s.client.reste) = envoi stdin := hrecu
  have ha := reprend_octets ho hrp hvide hd hlen
  rw [hcanal] at hrecu
  cases hy : reprend maxline (w.length + 1, w, rp) [.octets d] with
  | attend y =>
    obtain ⟨n, w', rp'⟩ := y
    rw [hy] at ha
    obtain ⟨hrp', hvide', rfl, rfl, ho', -⟩ := ha
    refine ⟨⟨hclient, ⟨rfl, hrp', hvide', ho'⟩, ?_, fun _ => hlignes hnf, fun hf => absurd hf hnf⟩, ?_⟩
    · simpa [nomme, Serveur.Recu] using hrecu
    · simp only [Etat.mesure, hx, hcanal, nomme, Serveur.mesure, List.length_append]
      omega
  | rendu r rp' lus =>
    obtain ⟨nb, w'⟩ := r
    obtain rfl := reprend_suite ho hrp hvide hy
    rw [hy] at ha
    obtain ⟨-, -, rfl, hwd, -, ⟨-, hw'⟩ | ⟨hf, -⟩⟩ := ha
    · -- the line is complete, so it is the whole of what the client sends
      have henvoi : envoi stdin = w' ++ (flux rp' [] ++ (canal ++ s.client.reste)) := by
        rw [← hrecu, ← List.append_assoc w', ← hwd]
        simp
      have hsuite : flux rp' [] ++ (canal ++ s.client.reste) = [] := by
        by_contra hne
        exact hw' (envoi_ouvert henvoi hne)
      rw [hsuite, List.append_nil] at henvoi
      obtain ⟨-, hsuite⟩ := List.append_eq_nil_iff.1 hsuite
      have hw0 : w' ≠ [] := by
        rintro rfl
        exact hw' ⟨List.not_mem_nil, by decide⟩
      have hnomme : nomme fichiers (.rendu (compte w', w') rp' []) = ouvre (demande fichiers stdin) := by
        rw [nomme, if_neg (compte_pos hw0).ne', ← henvoi, demande]
      have ho' : ¬Ouvert (maxline - 1) 10 (envoi stdin) := henvoi ▸ hw'
      rw [hnomme]
      cases hf : demande fichiers stdin with
      | absent =>
        rw [hf] at hlignes
        refine ⟨⟨hclient, trivial, ⟨hsuite, ho', nofun⟩, fun _ => hlignes hnf, fun h => absurd h hnf⟩, ?_⟩
        simp only [Etat.mesure, hx, hcanal, ouvre, Serveur.mesure, List.length_append]
        omega
      | lisible contenu =>
        rw [hf] at hlignes
        refine ⟨⟨hclient, trivial, ⟨hsuite, ho', nofun⟩, fun _ => hlignes hnf, fun h => absurd h hnf⟩, ?_⟩
        simp only [Etat.mesure, hx, hcanal, ouvre, Serveur.mesure, Fichier.contenu, List.length_append]
        omega
      | illisible =>
        rw [hf] at hlignes
        refine ⟨⟨hclient, trivial, ⟨hsuite, ho', rfl⟩, fun _ => hlignes hnf, fun h => absurd h hnf⟩, ?_⟩
        simp only [Etat.mesure, hx, hcanal, ouvre, Serveur.mesure, List.length_append]
        omega
    · simp [fins] at hf

theorem avance_serveurLit (h : Inv f e s) {fichier : Octets} (hx : s.serveur = .lit fichier) :
    (fichier = [] → Avance f e s { s with serveur := .ferme }) ∧
      (0 < k → k ≤ fichier.length →
        Avance f e s { s with serveur := .ecrit (fichier.take k) (fichier.drop k) }) := by
  obtain ⟨hclient, hserveur, hrecu, hlignes, hfini⟩ := h
  rw [hx] at hrecu hlignes hfini
  have hnf : s.client ≠ .fini := fun hf => nomatch (hfini hf).1
  apply And.intro
  · rintro rfl
    refine ⟨⟨hclient, trivial, hrecu, fun _ => hlignes hnf, fun hf => absurd hf hnf⟩, ?_⟩
    simp [Etat.mesure, hx, Serveur.mesure]
  · intro hk hkl
    have hne : fichier.take k ≠ [] := by
      rw [Ne, List.take_eq_nil_iff]
      rintro (rfl | rfl)
      · exact absurd hk (lt_irrefl 0)
      · simp at hkl
        omega
    refine ⟨⟨hclient, hne, hrecu, fun _ => ?_, fun hf => absurd hf hnf⟩, ?_⟩
    · simpa [Serveur.aEcrire] using hlignes hnf
    · simp only [Etat.mesure, hx, Serveur.mesure, List.length_take, List.length_drop]
      omega

theorem avance_serveurEcrit (h : Inv f e s) {buf buf' fichier : Octets} (hx : s.serveur = .ecrit buf fichier)
    (hp : envoie cap s.versClient buf k = some (canal, buf')) :
    Avance f e s { s with versClient := canal, serveur := .suite buf' fichier } := by
  obtain ⟨d, hd, rfl, rfl⟩ := envoie_spec hp
  obtain ⟨hclient, hserveur, hrecu, hlignes, hfini⟩ := h
  rw [hx] at hrecu hlignes hfini
  have hnf : s.client ≠ .fini := fun hf => nomatch (hfini hf).1
  have hpos := List.length_pos_of_ne_nil hd
  by_cases hb : buf' = []
  · subst hb
    refine ⟨⟨hclient, trivial, hrecu, fun _ => ?_, fun hf => absurd hf hnf⟩, ?_⟩
    · simpa [Serveur.suite, Serveur.aEcrire] using hlignes hnf
    · simp only [Etat.mesure, hx, Serveur.suite, if_true, Serveur.mesure, List.length_append, List.length_nil]
      omega
  · refine ⟨⟨hclient, ?_, ?_, fun _ => ?_, fun hf => absurd hf hnf⟩, ?_⟩
    · simp only [Serveur.suite, if_neg hb]
      exact hb
    · simp only [Serveur.suite, if_neg hb]
      exact hrecu
    · simpa [Serveur.suite, hb, Serveur.aEcrire] using hlignes hnf
    · simp only [Etat.mesure, hx, Serveur.suite, if_neg hb, Serveur.mesure, List.length_append]
      omega

/-- a step advances, or is one more turn of the loop whose `read` fails -/
theorem step_avance {stdin : Octets} {fichiers : Octets → Fichier} {ev : Evenement}
    (h : Inv (demande fichiers stdin) (envoi stdin) s) (hs : step cap fichiers s ev = some s') :
    Avance (demande fichiers stdin) (envoi stdin) s s' ∨ (s.serveur = .tourne ∧ s' = s) := by
  cases ev with
  | clientEcrit k =>
    cases hc : s.client <;> simp only [step, hc, Option.map_eq_some_iff, reduceCtorEq] at hs
    obtain ⟨p, hp, rfl⟩ := hs
    exact .inl (avance_clientEcrit h hc hp)
  | clientAppelle =>
    cases hc : s.client <;> simp only [step, hc, Option.some.injEq, reduceCtorEq] at hs
    exact .inl (hs ▸ avance_clientAppelle h hc)
  | clientLit k =>
    cases hc : s.client <;> simp only [step, hc, Option.map_eq_some_iff, reduceCtorEq] at hs
    obtain ⟨p, hp, rfl⟩ := hs
    exact .inl (avance_clientLit h hc hp)
  | serveurNom k =>
    cases hx : s.serveur <;> simp only [step, hx, Option.map_eq_some_iff, reduceCtorEq] at hs
    obtain ⟨p, hp, rfl⟩ := hs
    exact .inl (avance_serveurNom h hx hp)
  | serveurLit k =>
    cases hx : s.serveur <;> simp only [step, hx, reduceCtorEq] at hs
    · split_ifs at hs with hf hk hk
      · exact .inl (Option.some.inj hs ▸ (avance_serveurLit (k := k) h hx).1 hf)
      · exact .inl (Option.some.inj hs ▸ (avance_serveurLit h hx).2 hk.1 hk.2.1)
    · split_ifs at hs
      exact .inr ⟨rfl, (Option.some.inj hs).symm⟩
  | serveurEcrit k =>
    cases hx : s.serveur <;> simp only [step, hx, Option.map_eq_some_iff, reduceCtorEq] at hs
    obtain ⟨p, hp, rfl⟩ := hs
    exact .inl (avance_serveurEcrit h hx hp)

theorem Inv.suivant {stdin : Octets} {fichiers : Octets → Fichier} {ev : Evenement}
    (h : Inv (demande fichiers stdin) (envoi stdin) s) (hs : step cap fichiers s ev = some s') :
    Inv (demande fichiers stdin) (envoi stdin) s' := by
  rcases step_avance h hs with h' | ⟨-, rfl⟩
  · exact h'.1
  · exact h

/-- a file that can be read is read to its end -/
theorem Inv.avance {stdin : Octets} {fichiers : Octets → Fichier} {ev : Evenement}
    (h : Inv (demande fichiers stdin) (envoi stdin) s) (hlu : demande fichiers stdin ≠ .illisible)
    (hs : step cap fichiers s ev = some s') : Avance (demande fichiers stdin) (envoi stdin) s s' := by
  rcases step_avance h hs with h' | ⟨hx, -⟩
  · exact h'
  · have hrecu := h.recu
    rw [hx] at hrecu
    exact absurd hrecu.2.2 hlu

theorem sain_init (buf : Tampon) : (rioReadinitb buf).Sain ∧ (rioReadinitb buf).nonLus = [] :=
  ⟨⟨buf.2, Nat.zero_le _⟩, rfl⟩

theorem inv_init (fichiers : Octets → Fichier) {stdin : Octets} (hstdin : stdin ≠ []) (bufc bufs : Tampon) :
    Inv (demande fichiers stdin) (envoi stdin) (init stdin bufc bufs) := by
  obtain ⟨hc, hvc⟩ := sain_init bufc
  obtain ⟨hs, hvs⟩ := sain_init bufs
  have hserveur : (init stdin bufc bufs).serveur.Sain := ⟨rfl, hs, hvs, List.not_mem_nil, by decide⟩
  have hlignes : Imprime (demande fichiers stdin).contenu [] [] (demande fichiers stdin).contenu := ⟨[], rfl, rfl⟩
  by_cases he : envoi stdin = []
  · refine ⟨?_, hserveur, ?_, ?_, ?_⟩ <;>
      simp [init, hstdin, Client.suite, he, Client.Sain, hc, hvc, Serveur.Recu, Client.reste, Client.partiel,
        Client.nonLus, Serveur.aEcrire, hlignes]
  · refine ⟨?_, hserveur, ?_, ?_, ?_⟩ <;>
      simp [init, hstdin, Client.suite, he, Client.Sain, hc, hvc, Serveur.Recu, Client.reste, Client.partiel,
        Client.nonLus, Serveur.aEcrire, hlignes]

/-! ## A client that has no line -/

/-- it has closed, and the server does not know it yet or opens a name that it never received -/
structure Muet (s : Etat) : Prop where
  client : s.client = .fini
  serveur : s.serveur = .indefini ∨ ∃ rp : RioT, rp.Sain ∧ rp.nonLus = [] ∧ s.serveur = .nom (1, [], rp)
  versServeur : s.versServeur = []

theorem step_muet {fichiers : Octets → Fichier} {ev : Evenement} (f : Fichier) (h : Muet s)
    (hs : step cap fichiers s ev = some s') : Muet s' ∧ s'.mesure f < s.mesure f := by
  obtain ⟨hc, hserveur, hvide⟩ := h
  obtain hx | ⟨rp, hrp, hrp', hx⟩ := hserveur
  · cases ev <;> simp only [step, hc, hx, reduceCtorEq] at hs
  · cases ev <;> simp only [step, hc, hx, reduceCtorEq, Option.map_eq_some_iff] at hs
    obtain ⟨⟨d, canal⟩, hp, rfl⟩ := hs
    obtain ⟨-, -, rfl, rfl⟩ | ⟨hd, -, hcanal⟩ := recoit_spec hp
    · have ha := reprend_fin (w := []) ⟨List.not_mem_nil, by decide⟩ hrp hrp'
      have hnomme : nomme fichiers (reprend maxline (1, [], rp) [.octets []]) = .indefini := by
        cases hy : reprend maxline (1, [], rp) [.octets []] with
        | attend y =>
          rw [List.length_nil, zero_add, hy] at ha
          obtain ⟨-, -, -, -, -, hf⟩ := ha
          exact absurd hf one_ne_zero
        | rendu r rp' lus =>
          rw [List.length_nil, zero_add, hy] at ha
          obtain ⟨-, -, hnb, hwd, -⟩ := ha
          obtain ⟨hw, -⟩ := List.append_eq_nil_iff.1 hwd.symm
          rw [nomme, hnb, hw, if_pos (by rfl)]
      refine ⟨⟨rfl, .inl hnomme, rfl⟩, ?_⟩
      simp only [Etat.mesure, hc, hx, hvide, hnomme, Serveur.mesure]
      omega
    · rw [hvide] at hcanal
      exact absurd (List.append_eq_nil_iff.1 hcanal.symm).1 hd

theorem muet_init (bufc bufs : Tampon) : Muet (init [] bufc bufs) :=
  ⟨rfl, .inr ⟨_, (sain_init bufs).1, (sain_init bufs).2, rfl⟩, rfl⟩

/-! ## A session -/

theorem mesure_init (f : Fichier) (stdin : Octets) (bufc bufs : Tampon) :
    (init stdin bufc bufs).mesure f ≤ 2 * (envoi stdin).length + 5 * f.contenu.length + 5 := by
  have hnl : (rioReadinitb (bufc : Octets)).nonLus = [] := (sain_init bufc).2
  by_cases hs : stdin = []
  · simp only [init, Etat.mesure, hs, if_true, Client.mesure, Serveur.mesure, List.length_nil]
    omega
  · by_cases he : envoi stdin = []
    · simp only [init, Etat.mesure, if_neg hs, Client.suite, he, if_true, Client.mesure, Serveur.mesure, hnl,
        List.length_nil]
      omega
    · simp only [init, Etat.mesure, if_neg hs, Client.suite, if_neg he, Client.mesure, Serveur.mesure,
        List.length_nil]
      omega

/-- outside of the endless loop, no step leads back to its own state -/
theorem Inv.arrete {stdin : Octets} {fichiers : Octets → Fichier} (h : Inv (demande fichiers stdin) (envoi stdin) s)
    (hx : s.serveur ≠ .tourne) (hfin : ∀ ev s', step cap fichiers s ev = some s' → s' = s) (ev : Evenement) :
    step cap fichiers s ev = none := by
  cases hs : step cap fichiers s ev with
  | none => rfl
  | some s' =>
    rcases step_avance h hs with h' | ⟨hx', -⟩
    · have hlt := h'.2
      rw [hfin ev s' hs] at hlt
      exact absurd hlt (lt_irrefl _)
    · exact absurd hx' hx

/-- a state that no step leaves -/
theorem est_issue {stdin : Octets} {fichiers : Octets → Fichier} (hcap : 0 < cap) (hstdin : stdin ≠ [])
    (h : Inv (demande fichiers stdin) (envoi stdin) s) (hfin : ∀ ev s', step cap fichiers s ev = some s' → s' = s) :
    s.Est (issue fichiers stdin) := by
  by_cases htourne : s.serveur = .tourne
  · have hrecu := h.recu
    rw [htourne] at hrecu
    obtain ⟨-, ho, hf⟩ := hrecu
    rw [issue, if_neg hstdin, if_neg ho, hf]
    exact htourne
  have hfin := h.arrete htourne hfin
  obtain ⟨hclient, hserveur, hrecu, hlignes, hfini⟩ := h
  -- the name arrives, whatever the client does next
  have hnom : ∀ x, s.serveur = .nom x → s.versServeur = [] := by
    intro x hx
    by_contra hne
    obtain ⟨p, hp⟩ := recoit_un (s.client = .fini) hne
    have hstep := hfin (.serveurNom 1)
    simp [step, hx, hp] at hstep
  cases hc : s.client with
  | ecrit reste rp =>
    rw [hc] at hclient hrecu
    have hstep := hfin (.clientEcrit 1)
    have hvide : s.versServeur = [] := by
      cases hx : s.serveur with
      | nom x => exact hnom x hx
      | indefini =>
        rw [hx] at hrecu
        exact hrecu.elim
      | _ =>
        rw [hx] at hrecu
        exact (List.append_eq_nil_iff.1 hrecu.1).1
    obtain ⟨p, hp⟩ := envoie_un hcap hclient.1
    simp [step, hc, hvide, hp] at hstep
  | appelle rp =>
    have hstep := hfin .clientAppelle
    simp [step, hc] at hstep
  | fini =>
    obtain ⟨hx, hsortie⟩ := hfini hc
    rw [hx] at hrecu
    obtain ⟨-, ho, hill⟩ := hrecu
    rw [issue, if_neg hstdin, if_neg ho]
    cases hf : demande fichiers stdin with
    | illisible => exact absurd hf hill
    | absent => exact ⟨hc, hx, hf ▸ hsortie⟩
    | lisible contenu => exact ⟨hc, hx, hf ▸ hsortie⟩
  | attend e =>
    have hvide : s.versClient = [] := by
      by_contra hne
      obtain ⟨p, hp⟩ := recoit_un (s.serveur = .ferme) hne
      have hstep := hfin (.clientLit 1)
      simp [step, hc, hp] at hstep
    have hlignes := hlignes (by rw [hc]; nofun)
    rw [hc] at hrecu hclient hlignes
    cases hx : s.serveur with
    | nom x =>
      rw [hx] at hrecu hserveur hlignes
      have hvs := hnom x hx
      have hnom : x.2.1 ++ (s.versServeur ++ []) = envoi stdin := hrecu
      rw [hvs, List.append_nil, List.append_nil] at hnom
      obtain ⟨-, -, -, ho⟩ := hserveur
      rw [hnom] at ho
      rw [issue, if_neg hstdin, if_pos ho]
      have hdebut : Imprime (demande fichiers stdin).contenu s.sortie e.2.1 (demande fichiers stdin).contenu := by
        simpa [Client.partiel, Client.nonLus, hvide, Serveur.aEcrire] using hlignes
      exact ⟨⟨e, hc⟩, ⟨x, hx⟩, hvs, hvide, hdebut.debut⟩
    | lit fichier =>
      by_cases hf : fichier = []
      · have hstep := hfin (.serveurLit 0)
        simp [step, hx, hf] at hstep
      · have hpos := List.length_pos_of_ne_nil hf
        have hmax : 1 ≤ maxline := by decide
        have hstep := hfin (.serveurLit 1)
        simp only [step, hx, if_neg hf] at hstep
        rw [if_pos ⟨one_pos, hpos, hmax⟩] at hstep
        exact nomatch hstep
    | ecrit buf fichier =>
      rw [hx] at hserveur
      obtain ⟨p, hp⟩ := envoie_un hcap hserveur
      have hstep := hfin (.serveurEcrit 1)
      simp [step, hx, hvide, hp] at hstep
    | ferme =>
      have hstep := hfin (.clientLit 0)
      simp [step, hc, hx, recoit, hvide] at hstep
    | tourne => exact absurd hx htourne
    | indefini =>
      rw [hx] at hrecu
      exact hrecu.elim

variable {stdin : Octets} {fichiers : Octets → Fichier} {bufc bufs : Tampon} {l : List Evenement}

section Exemple

def unFichier (nom : Octets) : Fichier := if nom = [102] then .lisible [97, 10, 98] else .absent

def tamponVide : Tampon := ⟨List.replicate rioBufsize 0, List.length_replicate⟩

/-- a session that ends, over a connection of two bytes -/
def lesPas : List Evenement :=
  [.clientEcrit 1, .serveurNom 1, .clientEcrit 1, .clientAppelle, .serveurNom 1, .serveurLit 3, .serveurEcrit 2,
    .clientLit 1, .clientLit 1, .clientAppelle, .serveurEcrit 1, .serveurLit 0, .clientLit 1, .clientLit 0,
    .clientAppelle, .clientLit 0]

theorem runM_lesPas : ∃ s, runM (step 2 unFichier) (init [102, 10] tamponVide tamponVide) lesPas = some s ∧
    (s.client, s.serveur, s.sortie) = (.fini, .ferme, [97, 10, 98, 10]) :=
  Option.map_eq_some_iff.1 (by decide +kernel)

end Exemple

/-- **A session ends**, unless the file cannot be read: whatever the sizes of the reads and of the writes, no run is
longer than the bytes to carry allow. -/
theorem session_bornee (hlu : demande fichiers stdin ≠ .illisible)
    (h : runM (step cap fichiers) (init stdin bufc bufs) l = some s) :
    l.length ≤ 2 * (envoi stdin).length + 5 * (demande fichiers stdin).contenu.length + 5 := by
  have hle := mesure_init (demande fichiers stdin) stdin bufc bufs
  rcases eq_or_ne stdin [] with rfl | hs
  · obtain ⟨-, hm⟩ := runM_mesure (fun _ _ _ hi hst => step_muet (demande fichiers []) hi hst) (muet_init bufc bufs) h
    omega
  · obtain ⟨-, hm⟩ := runM_mesure (fun _ _ _ hi hst => hi.avance hlu hst) (inv_init fichiers hs bufc bufs) h
    omega

theorem session_bornee_lesPas :
    lesPas.length ≤ 2 * (envoi [102, 10]).length + 5 * (demande unFichier [102, 10]).contenu.length + 5 := by
  obtain ⟨s, hs, -⟩ := runM_lesPas
  exact session_bornee (by decide +kernel) hs

/-- a directory is read for ever -/
theorem tourne_sans_fin (cap : ℕ) (fichiers : Octets → Fichier) (hx : s.serveur = .tourne) (n : ℕ) :
    runM (step cap fichiers) s (List.replicate n (.serveurLit 0)) = some s := by
  induction n with
  | zero => rfl
  | succ n ih =>
    have hstep : step cap fichiers s (.serveurLit 0) = some s := by simp [step, hx]
    rw [List.replicate_succ, runM, hstep, Option.bind_some, ih]

/-- with a line sent, the invariant holds to the end -/
theorem session_est (hcap : 0 < cap) (hs : stdin ≠ []) (h : runM (step cap fichiers) (init stdin bufc bufs) l = some s)
    (hfin : ∀ ev s', step cap fichiers s ev = some s' → s' = s) : s.Est (issue fichiers stdin) := by
  have hinv := runM_inv (fun _ _ _ hi hst => hi.suivant hst) (inv_init fichiers hs bufc bufs) h
  exact est_issue hcap hs hinv hfin

/-- **How it ends**: a run that cannot get further has printed the file, or waits for ever, or goes round the loop of the
server, or has left what C defines, as the line of the client says. -/
theorem session_issue (hcap : 0 < cap) (h : runM (step cap fichiers) (init stdin bufc bufs) l = some s)
    (hfin : ∀ ev s', step cap fichiers s ev = some s' → s' = s) : s.Est (issue fichiers stdin) := by
  rcases eq_or_ne stdin [] with rfl | hs
  · obtain ⟨⟨hc, hx, hvide⟩, -⟩ :=
      runM_mesure (fun _ _ _ hi hst => step_muet (demande fichiers []) hi hst) (muet_init bufc bufs) h
    rcases hx with hx | ⟨rp, hrp, hvide', hx⟩
    · exact hx
    · -- the end of file is still to be read
      cases hst : step cap fichiers s (.serveurNom 0) with
      | none => simp [step, hc, hx, recoit, hvide] at hst
      | some s' =>
        have hmuet : Muet s := ⟨hc, .inr ⟨rp, hrp, hvide', hx⟩, hvide⟩
        have hlt := (step_muet (demande fichiers []) hmuet hst).2
        rw [hfin _ _ hst] at hlt
        exact absurd hlt (lt_irrefl _)
  · exact session_est hcap hs h hfin

theorem session_issue_lesPas :
    ∃ s, runM (step 2 unFichier) (init [102, 10] tamponVide tamponVide) lesPas = some s ∧
      s.Est (issue unFichier [102, 10]) := by
  obtain ⟨s, hs, hfin⟩ := runM_lesPas
  simp only [Prod.mk.injEq] at hfin
  obtain ⟨hc, hx, -⟩ := hfin
  refine ⟨s, hs, session_issue two_pos hs ?_⟩
  intro ev s' hstep
  cases ev <;> simp [step, hc, hx] at hstep

/-- **What is printed is right so far**, in every state of a session -/
theorem sortie_prefixe (hs : stdin ≠ []) (h : runM (step cap fichiers) (init stdin bufc bufs) l = some s) :
    s.sortie <+: imprimes (demande fichiers stdin).contenu ++ [10] := by
  have hinv := runM_inv (fun _ _ _ hi hst => hi.suivant hst) (inv_init fichiers hs bufc bufs) h
  by_cases hf : s.client = .fini
  · rw [(hinv.fini hf).2]
  · exact (hinv.lignes hf).prefixe.trans (List.prefix_append _ _)

theorem sortie_prefixe_lesPas :
    ∃ s, runM (step 2 unFichier) (init [102, 10] tamponVide tamponVide) lesPas = some s ∧
      s.sortie <+: imprimes (demande unFichier [102, 10]).contenu ++ [10] := by
  obtain ⟨s, hs, -⟩ := runM_lesPas
  exact ⟨s, hs, sortie_prefixe (List.cons_ne_nil _ _) hs⟩

/-- a name typed on a line is the name that the server opens -/
theorem demande_ligne (fichiers : Octets → Fichier) {nom suite : Octets} (h0 : nom ≠ []) (h10 : 10 ∉ nom)
    (hnul : 0 ∉ nom) (hlen : nom.length < maxline - 1) :
    demande fichiers (nom ++ 10 :: suite) = fichiers nom ∧ ¬Ouvert (maxline - 1) 10 (envoi (nom ++ 10 :: suite)) := by
  have henvoi : envoi (nom ++ 10 :: suite) = nom ++ [10] := by
    rw [envoi, Shell.lus_ligne h10 hlen]
    exact imprime_de_sans_nul (by simpa using hnul)
  have hpos := List.length_pos_of_ne_nil h0
  have hcompte : compte (nom ++ [10]) = (nom.length : ℤ) + 1 := by simp [compte]
  have hnb : ((nom.length : ℤ) + 1).toNat - 1 = nom.length := by omega
  have hfich : nom ++ [10] ++ [0] = nom ++ 10 :: [0] := by simp
  refine ⟨?_, ?_⟩
  · rw [demande, henvoi, hcompte, nomFichier]
    simp only [hnb, hfich, List.getElem?_append_right le_rfl, Nat.sub_self, List.getElem?_cons_zero, and_true,
      List.set_append_right _ _ le_rfl, List.set_cons_zero]
    rw [if_pos (by omega), Octets.cstr_append_zero _ _ fun _ hx he => hnul (he ▸ hx)]
  · rw [henvoi]
    exact fun ho => ho.1 (by simp)

/-- a session on the name of a file without NUL bytes prints the file and a newline -/
theorem session_rend {nom suite contenu : Octets} (hcap : 0 < cap) (h0 : nom ≠ []) (h10 : 10 ∉ nom) (hnul : 0 ∉ nom)
    (hlen : nom.length < maxline - 1) (hf : fichiers nom = .lisible contenu) (hcontenu : 0 ∉ contenu)
    (h : runM (step cap fichiers) (init (nom ++ 10 :: suite) bufc bufs) l = some s)
    (hfin : ∀ ev s', step cap fichiers s ev = some s' → s' = s) :
    s.client = .fini ∧ s.serveur = .ferme ∧ s.sortie = contenu ++ [10] := by
  obtain ⟨hdemande, ho⟩ := @demande_ligne fichiers nom suite h0 h10 hnul hlen
  have hissue := session_est hcap (by simp) h hfin
  rw [issue, if_neg (by simp), if_neg ho, hdemande, hf] at hissue
  obtain ⟨hc, hx, hs⟩ := hissue
  exact ⟨hc, hx, by rw [hs, Fichier.contenu, imprimes_de_sans_nul hcontenu]⟩

end Semestre6.Echo
