/-
EnumP.java on the graph that `lire` stored, whose arcs hold any ints: the enumeration with the accesses to its arrays.
Its tests are those of `Couplage`, and `lire` is the function of Graphe.java, word for word.

- `enum_eq`: with the destinations in range, no call throws, and the calls are those of `EnumP`;
- `mem_lire`: the arcs stored are those of the words of the text;
- `bornes_iff`: what was read is in range, and nothing throws on it, exactly when every arc of the text names a
  destination from 1 to n.
Witness that the condition is needed: `destination_absente`.
-/
import Semestre6.Graphe.Couplage

namespace Semestre6.Graphe.EnumPTableaux

open Boucle Couplage Lecture Scanner
open LireGraphe (Arc Graphe JException EstNombre arcDe lireArc lire)
open EnumP (Reference)

/-! ## The enumeration -/

def couplageVide (n : ℕ) : Tableau := List.replicate n []

def ajouteArc (num_sommet : ℕ) (arc : Arc) (graphe : Tableau) : Except JException Tableau :=
  ecrit graphe num_sommet [arc]

/-- the array that a call has returned -/
def designe (g couplage : Tableau) : Reference → Tableau
  | .sommetsGraphe => g
  | .couplage => couplage
  | .vide => couplageVide g.length

/-- `choix`, called after both its arguments: `couplage` is the array as they leave it -/
def choix (g couplage : Tableau) (G1 G2 : Reference) : Except JException Reference := do
  let d ← degre (designe g couplage G1)
  return if d = 0 then G2 else G1

/-- the chain from `arc` on, or the whole chain of the vertex when `arc` is null -/
def depuis (chaine arc : List Arc) : List Arc := if arc = [] then chaine else arc

/-- `Enum`, on the chain that `arc` points into: what it returns, and what it leaves in `couplage` -/
def enum (g : Tableau) (num_sommet : ℕ) (couplage : Tableau) (arc : List Arc) :
    Except JException (Reference × Tableau) := do
  let dejaCouplage ← estCouplage g
  if dejaCouplage then return (.sommetsGraphe, couplage)
  else if _hfin : g.length / 2 ≤ num_sommet then
    let trouve ← estCouplage couplage
    return (if trouve then .couplage else .vide, couplage)
  else
    let chaine ← lit g num_sommet
    if chaine = [] then enum g (num_sommet + 1) couplage arc
    else
      match _hdepuis : depuis chaine arc with
      | [] => return (.vide, couplage)
      | a :: suivant =>
        let couplage ← ajouteArc num_sommet a couplage
        let apres ← lit g (num_sommet + 1)
        let r1 ← enum g (num_sommet + 1) couplage apres
        let r2 ←
          if _hsuivant : suivant = [] then do
            let apres ← lit g (num_sommet + 1)
            enum g (num_sommet + 1) r1.2 apres
          else enum g num_sommet r1.2 suivant
        let r ← choix g r2.2 r1.1 r2.1
        return (r, r2.2)
termination_by (g.length / 2 - num_sommet, if arc = [] then 1 else 0, arc.length)
decreasing_by
  · exact Prod.Lex.left _ _ (by omega)
  · exact Prod.Lex.left _ _ (by omega)
  · exact Prod.Lex.left _ _ (by omega)
  · apply Prod.Lex.right
    rw [if_neg _hsuivant]
    by_cases harc : arc = []
    · rw [if_pos harc]
      exact Prod.Lex.left _ _ (by omega)
    · rw [depuis, if_neg harc] at _hdepuis
      rw [if_neg harc, _hdepuis]
      exact Prod.Lex.right _ (by simp)

variable {g c : Tableau} {l : List Arc} {n num : ℕ}

theorem tableau_apply (g : Tableau) (i : ℕ) : tableau g i = (g.getD i []).map versNat := rfl

/-! ## The calls -/

/-- an array of matchings: as long as the graph's, with its destinations in range -/
structure Forme (n : ℕ) (c : Tableau) : Prop where
  taille : c.length = n
  dedans : DestinationsDedans n c

theorem Forme.degre (h : Forme n c) : degre c = .ok (EnumP.degre n (tableau c)) := by
  obtain ⟨rfl, hd⟩ := h
  exact degre_eq hd

theorem Forme.estCouplage (h : Forme n c) : estCouplage c = .ok (EnumP.estCouplage n (tableau c)) := by
  obtain ⟨rfl, hd⟩ := h
  exact estCouplage_eq hd

theorem forme_vide (n : ℕ) : Forme n (couplageVide n) := by
  refine ⟨List.length_replicate, ?_⟩
  intro courant hc arc ha
  rw [List.eq_of_mem_replicate hc] at ha
  cases ha

theorem tableau_vide (n : ℕ) : tableau (couplageVide n) = EnumP.couplageVide := by
  funext i
  rw [tableau_apply, couplageVide, List.getD, List.getElem?_replicate]
  split_ifs <;> rfl

theorem Forme.ajouteArc (h : Forme n c) (hnum : num < n) {a : Arc} (ha : 0 ≤ a.destination ∧ a.destination < n) :
    ∃ c', ajouteArc num a c = .ok c' ∧ Forme n c' ∧
      tableau c' = EnumP.ajouteArc num (versNat a) (tableau c) := by
  have hlt : num < c.length := by rwa [h.taille]
  refine ⟨c.set num [a], ecrit_ok hlt _, ⟨by rw [List.length_set, h.taille], ?_⟩, ?_⟩
  · intro courant hc arc harc
    rcases List.mem_or_eq_of_mem_set hc with hc | rfl
    · exact h.dedans courant hc arc harc
    · rw [List.mem_singleton.1 harc]
      exact ha
  · funext i
    rw [tableau_apply, EnumP.ajouteArc]
    by_cases hi : i = num
    · rw [hi, Function.update_self, List.getD, List.getElem?_set_self hlt]
      rfl
    · rw [Function.update_of_ne hi, tableau_apply, List.getD, List.getElem?_set_ne (Ne.symm hi)]
      rfl

theorem designe_forme (hg : Forme n g) (hc : Forme n c) (r : Reference) :
    Forme n (designe g c r) ∧ tableau (designe g c r) = r.lit (tableau g) (tableau c) := by
  cases r with
  | sommetsGraphe => exact ⟨hg, rfl⟩
  | couplage => exact ⟨hc, rfl⟩
  | vide =>
    rw [designe, hg.taille]
    exact ⟨forme_vide n, tableau_vide n⟩

theorem choix_eq (hg : Forme n g) (hc : Forme n c) (r1 r2 : Reference) :
    choix g c r1 r2 = .ok (EnumP.choix n (tableau g) (tableau c) r1 r2) := by
  obtain ⟨hf, ht⟩ := designe_forme hg hc r1
  rw [choix, hf.degre, ht]
  rfl

theorem enum_deja (hg : Forme n g) (h : EnumP.estCouplage n (tableau g) = true) :
    enum g num c l = .ok (.sommetsGraphe, c) := by
  rw [enum, hg.estCouplage, h]
  rfl

theorem enum_feuille (hg : Forme n g) (hc : Forme n c) (h : EnumP.estCouplage n (tableau g) = false)
    (hn : n / 2 ≤ num) :
    enum g num c l = .ok (if EnumP.estCouplage n (tableau c) then .couplage else .vide, c) := by
  have hfin : g.length / 2 ≤ num := by rwa [hg.taille]
  rw [enum, hg.estCouplage, h, hc.estCouplage]
  simp [bind, Except.bind, pure, Except.pure, hfin]

theorem enum_saute (hg : Forme n g) (h : EnumP.estCouplage n (tableau g) = false) (hn : num < n / 2)
    (hvide : g.getD num [] = []) : enum g num c l = enum g (num + 1) c l := by
  have hfin : ¬g.length / 2 ≤ num := by
    rw [hg.taille]
    omega
  have hlit : lit g (num : ℤ) = .ok [] := by
    rw [lit_chaine (by rw [hg.taille]; omega), hvide]
  conv_lhs => rw [enum, hg.estCouplage, h]
  simp [bind, Except.bind, hfin, hlit]

/-- the call of the second alternative -/
def alternative2 (g : Tableau) (num : ℕ) (c : Tableau) (suivant : List Arc) : Except JException (Reference × Tableau) :=
  if suivant = [] then enum g (num + 1) c (g.getD (num + 1) []) else enum g num c suivant

theorem enum_arc (hg : Forme n g) (h : EnumP.estCouplage n (tableau g) = false) (hn : num < n / 2)
    (hne : g.getD num [] ≠ []) {a : Arc} {suivant : List Arc} (hd : depuis (g.getD num []) l = a :: suivant)
    {c' c1 c2 : Tableau} {r1 r2 r : Reference} (hc' : ajouteArc num a c = .ok c')
    (h1 : enum g (num + 1) c' (g.getD (num + 1) []) = .ok (r1, c1)) (h2 : alternative2 g num c1 suivant = .ok (r2, c2))
    (hr : choix g c2 r1 r2 = .ok r) : enum g num c l = .ok (r, c2) := by
  have hfin : ¬g.length / 2 ≤ num := by
    rw [hg.taille]
    omega
  have hlit : lit g (num : ℤ) = .ok (g.getD num []) := lit_chaine (by rw [hg.taille]; omega)
  have happres : lit g ((num : ℤ) + 1) = .ok (g.getD (num + 1) []) := by
    have hlt : num + 1 < g.length := by
      rw [hg.taille]
      omega
    exact_mod_cast lit_chaine hlt
  rw [enum, hg.estCouplage, h]
  simp only [bind, Except.bind, Bool.false_eq_true, if_false, hfin, dite_false, hlit, hne]
  split
  · rename_i hdep
    rw [hd] at hdep
    cases hdep
  · rename_i a' suivant' hdep
    rw [hd] at hdep
    obtain ⟨rfl, rfl⟩ := List.cons.inj hdep
    rw [alternative2] at h2
    by_cases hs : suivant = []
    · rw [if_pos hs] at h2
      simp only [hc', happres, h1, hs, dite_true, h2, hr]
      rfl
    · rw [if_neg hs] at h2
      simp only [hc', happres, h1, hs, dite_false, h2, hr]
      rfl

/-- what a call gives when nothing throws: the reference and the array of the call of `EnumP` -/
def Suit (n : ℕ) (g : Tableau) (num : ℕ) (c : Tableau) (l : List Arc) (x : Except JException (Reference × Tableau)) :
    Prop :=
  ∃ c', x = .ok ((EnumP.enum n (tableau g) num (tableau c) (l.map versNat)).1, c') ∧ Forme n c' ∧
    tableau c' = (EnumP.enum n (tableau g) num (tableau c) (l.map versNat)).2

theorem depuis_versNat (g : Tableau) (num : ℕ) (l : List Arc) :
    EnumP.depuis (tableau g) num (l.map versNat) = (depuis (g.getD num []) l).map versNat := by
  unfold EnumP.depuis depuis
  rw [tableau_apply]
  by_cases hl : l = []
  · rw [if_pos hl, if_pos (List.map_eq_nil_iff.2 hl)]
  · rw [if_neg hl, if_neg (mt List.map_eq_nil_iff.1 hl)]

theorem depuis_suffix {chaine : List Arc} (h : l <:+ chaine) : depuis chaine l <:+ chaine := by
  unfold depuis
  split_ifs
  · exact List.suffix_rfl
  · exact h

theorem depuis_ne_nil {chaine : List Arc} (h : chaine ≠ []) : depuis chaine l ≠ [] := by
  unfold depuis
  split_ifs with hl
  · exact h
  · exact hl

/-- **The calls of Enum** on destinations in range: none throws, and they are the calls of `EnumP`. -/
theorem enum_eq (hg : Forme n g) (num : ℕ) (c : Tableau) (hc : Forme n c) (l : List Arc) (hl : l <:+ g.getD num []) :
    Suit n g num c l (enum g num c l) := by
  by_cases hdeja : EnumP.estCouplage n (tableau g) = true
  · have henum : EnumP.enum n (tableau g) num (tableau c) (l.map versNat) = (.sommetsGraphe, tableau c) := by
      rw [EnumP.enum, if_pos hdeja]
    exact ⟨c, by rw [enum_deja hg hdeja, henum], hc, by rw [henum]⟩
  · have hdeja : EnumP.estCouplage n (tableau g) = false := Bool.eq_false_of_not_eq_true hdeja
    by_cases hn : n / 2 ≤ num
    · have henum : EnumP.enum n (tableau g) num (tableau c) (l.map versNat) =
          (if EnumP.estCouplage n (tableau c) then .couplage else .vide, tableau c) := EnumP.enum_feuille hdeja hn
      exact ⟨c, by rw [enum_feuille hg hc hdeja hn, henum], hc, by rw [henum]⟩
    · have hlt : num < n / 2 := by omega
      by_cases hvide : g.getD num [] = []
      · have hl' : l = [] := by rwa [hvide, List.suffix_nil] at hl
        subst hl'
        have htab : tableau g num = [] := by
          rw [tableau_apply, hvide]
          rfl
        have ih := enum_eq hg (num + 1) c hc [] List.nil_suffix
        unfold Suit at ih ⊢
        rw [enum_saute hg hdeja hlt hvide, List.map_nil, EnumP.enum_saute hdeja hlt htab]
        exact ih
      · obtain ⟨a, suivant, hd⟩ := List.exists_cons_of_ne_nil (depuis_ne_nil (l := l) hvide)
        have hsuffixe : a :: suivant <:+ g.getD num [] := hd ▸ depuis_suffix hl
        have hnum : num < n := by omega
        have hmem : g.getD num [] ∈ g := mem_of_getD (by rwa [hg.taille])
        have ha : 0 ≤ a.destination ∧ a.destination < n :=
          hg.dedans _ hmem a (hsuffixe.mem List.mem_cons_self)
        have hs : suivant <:+ g.getD num [] := (List.suffix_cons a suivant).trans hsuffixe
        obtain ⟨c', hc', hf', ht'⟩ := hc.ajouteArc hnum ha
        obtain ⟨c1, h1, hf1, ht1⟩ := enum_eq hg (num + 1) c' hf' (g.getD (num + 1) []) List.suffix_rfl
        rw [← tableau_apply, ht'] at h1 ht1
        have hsuite : ∃ c2, alternative2 g num c1 suivant =
            .ok ((EnumP.alternative2 n (tableau g) num (tableau c1) (suivant.map versNat)).1, c2) ∧ Forme n c2 ∧
              tableau c2 = (EnumP.alternative2 n (tableau g) num (tableau c1) (suivant.map versNat)).2 := by
          rw [alternative2, EnumP.alternative2, tableau_apply]
          by_cases hvide : suivant = []
          · rw [if_pos hvide, if_pos (List.map_eq_nil_iff.2 hvide)]
            exact enum_eq hg (num + 1) c1 hf1 (g.getD (num + 1) []) List.suffix_rfl
          · rw [if_neg hvide, if_neg (mt List.map_eq_nil_iff.1 hvide)]
            exact enum_eq hg num c1 hf1 suivant hs
        obtain ⟨c2, h2, hf2, ht2⟩ := hsuite
        have htab : tableau g num ≠ [] := by
          rw [tableau_apply]
          exact mt List.map_eq_nil_iff.1 hvide
        have hdep : EnumP.depuis (tableau g) num (l.map versNat) = versNat a :: suivant.map versNat := by
          rw [depuis_versNat, hd, List.map_cons]
        have henum := EnumP.enum_arc (c := tableau c) hdeja hlt htab hdep
        refine ⟨c2, ?_, hf2, ?_⟩
        · rw [enum_arc hg hdeja hlt hvide hd hc' h1 h2 (choix_eq hg hf2 _ _), henum, ht2, ht1]
          rfl
        · rw [ht2, henum, ht1]
          rfl
termination_by (n / 2 - num, if l = [] then 1 else 0, l.length)
decreasing_by
  · exact Prod.Lex.left _ _ (by omega)
  · exact Prod.Lex.left _ _ (by omega)
  · exact Prod.Lex.left _ _ (by omega)
  · apply Prod.Lex.right
    rw [if_neg hvide]
    by_cases hnil : l = []
    · rw [if_pos hnil]
      exact Prod.Lex.left _ _ (by omega)
    · rw [depuis, if_neg hnil] at hd
      rw [if_neg hnil, hd]
      exact Prod.Lex.right _ (by simp)

/-! ## What was read -/

/-- every arc stored is between two of the vertices -/
def Bornes (g : Graphe) : Prop :=
  ∀ courant ∈ g.sommets, ∀ arc ∈ courant, (0 ≤ arc.source ∧ arc.source < g.sommets.length) ∧
    0 ≤ arc.destination ∧ arc.destination < g.sommets.length

/-- the tests and the enumeration, from the first vertex and an empty matching, do not throw -/
structure SansException (g : Tableau) : Prop where
  successeurs : ∀ i : ℕ, i < g.length → ∃ s, successeurs i g = .ok s
  degre : ∃ d, degre g = .ok d
  estCouplage : ∃ b, estCouplage g = .ok b
  enum : ∃ r, enum g 0 (couplageVide g.length) [] = .ok r

/-- every arc of the text names a destination from 1 to the number of vertices -/
def DestinationsNommees (separateur : Char) (texte : List Char) : Prop :=
  ∀ m suite n, jetons texte = m :: suite → nextInt separateur m = some n →
    ∀ a b c, EstNombre a → EstNombre b → EstNombre c → a ++ '/' :: (b ++ '+' :: c) ++ ['/'] ∈ suite →
      ∃ v, parseInt c = some v ∧ 1 ≤ v ∧ v ≤ n

variable {gr gr' : Graphe} {mots : List (List Char)} {separateur : Char} {texte : List Char}

theorem lireArc_mem {m : List Char} (h : lireArc gr m = .ok gr') :
    ∃ nouveau, arcDe m = .ok nouveau ∧ gr'.sommets.length = gr.sommets.length ∧
      ∀ arc, arc ∈ gr'.sommets.flatten ↔ arc ∈ gr.sommets.flatten ∨ arc = nouveau := by
  obtain ⟨nouveau, hnouveau, h⟩ := ok_of_bind h
  split_ifs at h with hsource
  obtain rfl := Except.ok.inj h
  refine ⟨nouveau, hnouveau, List.length_modify _ _ _, ?_⟩
  intro arc
  have hlt : nouveau.source.toNat < gr.sommets.length := by omega
  have hcoupe : gr.sommets = gr.sommets.take nouveau.source.toNat ++
      gr.sommets[nouveau.source.toNat] :: gr.sommets.drop (nouveau.source.toNat + 1) := by
    rw [List.getElem_cons_drop, List.take_append_drop]
  rw [List.modify_eq_take_cons_drop hlt]
  conv_rhs => rw [hcoupe]
  simp only [LireGraphe.ajouteFin_eq, List.flatten_append, List.flatten_cons, List.mem_append, List.mem_singleton]
  tauto

/-- the arcs stored are those that were there and those of the words read -/
theorem foldlM_mem (h : mots.foldlM lireArc gr = .ok gr') :
    gr'.sommets.length = gr.sommets.length ∧
      ∀ arc, arc ∈ gr'.sommets.flatten ↔ arc ∈ gr.sommets.flatten ∨ ∃ m ∈ mots, arcDe m = .ok arc := by
  induction mots generalizing gr with
  | nil =>
    obtain rfl := Except.ok.inj h
    simp
  | cons m mots ih =>
    rw [List.foldlM_cons] at h
    obtain ⟨g₁, hg₁, h⟩ := ok_of_bind h
    obtain ⟨nouveau, hnouveau, hlen, hmem⟩ := lireArc_mem hg₁
    obtain ⟨hlen', hmem'⟩ := ih h
    refine ⟨hlen'.trans hlen, ?_⟩
    intro arc
    have heq : arcDe m = .ok arc ↔ arc = nouveau := by
      rw [hnouveau]
      exact ⟨fun h => (Except.ok.inj h).symm, fun h => by rw [h]⟩
    rw [hmem', hmem, or_assoc, List.exists_mem_cons_iff, heq]

theorem foldlM_arcDe (h : mots.foldlM lireArc gr = .ok gr') : ∀ m ∈ mots, ∃ arc, arcDe m = .ok arc := by
  induction mots generalizing gr with
  | nil => simp
  | cons m mots ih =>
    rw [List.foldlM_cons] at h
    obtain ⟨g₁, hg₁, h⟩ := ok_of_bind h
    obtain ⟨nouveau, hnouveau, -⟩ := lireArc_mem hg₁
    exact List.forall_mem_cons.2 ⟨⟨nouveau, hnouveau⟩, ih h⟩

/-- the text of a graph that was read -/
theorem mem_lire (h : lire separateur texte = .ok gr) :
    ∃ m suite, jetons texte = m :: suite ∧ nextInt separateur m = some (gr.sommets.length : ℤ) ∧
      (∀ m ∈ suite, ∃ arc, arcDe m = .ok arc) ∧
      ∀ arc, arc ∈ gr.sommets.flatten ↔ ∃ m ∈ suite, arcDe m = .ok arc := by
  unfold lire at h
  split at h
  · cases h
  · rename_i m suite hjetons
    split at h
    · cases h
    · rename_i nombre_sommets hnombre
      split_ifs at h with hneg
      obtain ⟨hlen, hmem⟩ := foldlM_mem h
      rw [List.length_replicate] at hlen
      refine ⟨m, suite, hjetons, ?_, foldlM_arcDe h, ?_⟩
      · rw [hnombre, hlen, Int.toNat_of_nonneg (by omega)]
      · intro arc
        rw [hmem]
        simp

/-- the destination of the arc of a word -/
theorem arcDe_destination {a b c : List Char} (ha : EstNombre a) (hb : EstNombre b) (hc : EstNombre c) {arc : Arc}
    (h : arcDe (a ++ '/' :: (b ++ '+' :: c) ++ ['/']) = .ok arc) : parseInt c = some (arc.destination + 1) := by
  rw [LireGraphe.arcDe_mots ha hb hc] at h
  obtain ⟨numero, -, h⟩ := ok_of_bind h
  obtain ⟨source, -, h⟩ := ok_of_bind h
  obtain ⟨destination, hdestination, h⟩ := ok_of_bind h
  obtain rfl := Except.ok.inj h
  rw [LireGraphe.valueOf_ok.1 hdestination]
  simp

theorem arcDe_mots_of_ok {m : List Char} {arc : Arc} (h : arcDe m = .ok arc) :
    ∃ a b c, EstNombre a ∧ EstNombre b ∧ EstNombre c ∧ m = a ++ '/' :: (b ++ '+' :: c) ++ ['/'] := by
  apply LireGraphe.motifArc_iff.1
  by_contra hmotif
  rw [arcDe, if_pos (Bool.eq_false_of_not_eq_true hmotif)] at h
  cases h

/-- the sources are in range, because each arc is in the chain of its source -/
theorem bornes_iff_destinations (h : lire separateur texte = .ok gr) :
    Bornes gr ↔ DestinationsDedans gr.sommets.length gr.sommets := by
  have hval := LireGraphe.lire_valide h
  apply Iff.intro
  · intro hb courant hc arc ha
    exact (hb courant hc arc ha).2
  · intro hd courant hc arc ha
    refine ⟨?_, hd courant hc arc ha⟩
    obtain ⟨i, hi, rfl⟩ := List.mem_iff_getElem.1 hc
    obtain ⟨-, hsource⟩ := hval.chaines i _ (List.getElem?_eq_getElem hi) arc ha
    omega

theorem destinations_iff (h : lire separateur texte = .ok gr) :
    DestinationsDedans gr.sommets.length gr.sommets ↔ DestinationsNommees separateur texte := by
  obtain ⟨m, suite, hjetons, hnombre, hmots, hmem⟩ := mem_lire h
  have hdedans : DestinationsDedans gr.sommets.length gr.sommets ↔
      ∀ arc ∈ gr.sommets.flatten, 0 ≤ arc.destination ∧ arc.destination < gr.sommets.length := by
    simp only [DestinationsDedans, List.mem_flatten]
    exact ⟨fun h arc ⟨courant, hc, ha⟩ => h courant hc arc ha, fun h courant hc arc ha => h arc ⟨courant, hc, ha⟩⟩
  rw [hdedans]
  apply Iff.intro
  · intro hd m' suite' n hj hn a b c ha hb hc hm
    rw [hjetons] at hj
    obtain ⟨rfl, rfl⟩ := List.cons.inj hj
    rw [hnombre] at hn
    obtain rfl := Option.some.inj hn
    obtain ⟨arc, harc⟩ := hmots _ hm
    have hborne := hd arc ((hmem arc).2 ⟨_, hm, harc⟩)
    exact ⟨arc.destination + 1, arcDe_destination ha hb hc harc, by omega, by omega⟩
  · intro hd arc harc
    obtain ⟨mot, hm, harc⟩ := (hmem arc).1 harc
    obtain ⟨a, b, c, ha, hb, hc, rfl⟩ := arcDe_mots_of_ok harc
    obtain ⟨v, hv, h1, hn⟩ := hd m suite _ hjetons hnombre a b c ha hb hc hm
    rw [arcDe_destination ha hb hc harc] at hv
    obtain rfl := Option.some.inj hv
    omega

theorem sansException (h : DestinationsDedans g.length g) : SansException g := by
  have hg : Forme g.length g := ⟨rfl, h⟩
  obtain ⟨c, henum, -⟩ := enum_eq hg 0 (couplageVide g.length) (forme_vide g.length) [] List.nil_suffix
  exact ⟨fun i hi => ⟨_, successeurs_eq hi⟩, ⟨_, degre_eq h⟩, ⟨_, estCouplage_eq h⟩, ⟨_, henum⟩⟩

/-- **What is read is in range**, and nothing throws on it, exactly when every arc of the text names a destination from
1 to the number of vertices: `lire` does not check it. -/
theorem bornes_iff (h : lire separateur texte = .ok gr) :
    (Bornes gr ∧ SansException gr.sommets) ↔ DestinationsNommees separateur texte := by
  rw [← destinations_iff h, bornes_iff_destinations h]
  exact ⟨fun h => h.1, fun h => ⟨h, sansException h⟩⟩

theorem bornes_deux : (Bornes ⟨[[⟨1, 0, 1⟩], []]⟩ ∧ SansException [[⟨1, 0, 1⟩], []]) ↔
    DestinationsNommees ',' "2 1/1+2/".toList :=
  bornes_iff (rfl : lire ',' "2 1/1+2/".toList = .ok ⟨[[⟨1, 0, 1⟩], []]⟩)

/-- an arc to a third vertex, of two -/
theorem destination_absente :
    lire ',' "2 1/1+3/".toList = .ok ⟨[[⟨1, 0, 2⟩], []]⟩ ∧ ¬Bornes ⟨[[⟨1, 0, 2⟩], []]⟩ ∧
      degre [[⟨1, 0, 2⟩], []] = .error .arrayIndexOutOfBounds := by
  refine ⟨rfl, ?_, rfl⟩
  intro h
  have hd := (h [⟨1, 0, 2⟩] (by simp) ⟨1, 0, 2⟩ (by simp)).2.2
  simp at hd

end Semestre6.Graphe.EnumPTableaux
