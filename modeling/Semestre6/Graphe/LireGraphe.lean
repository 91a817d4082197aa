/-
Graphe.java and Arc.java (Algo6, APNEE4): the reader of a graph, with the pattern of its arcs, and its printer.

- `motifArc_iff`: the words that the pattern accepts;
- `lireArc_valide`, `lire_valide`: what was read is a graph whose arcs are each in the chain of their source;
- `lireArc_toString`: an arc that was printed goes back to the end of the chain of its source;
- `lire_toString`: printing what was read and reading it again gives the same graph.
-/
import Mathlib.Computability.RegularExpressions
import Semestre6.Lib.Boucle
import Semestre6.Texte.Lecture

namespace Semestre6.LireGraphe

open Boucle Lecture Scanner

inductive JException where
  | noSuchElement
  | inputMismatch
  | negativeArraySize
  | arrayIndexOutOfBounds
  | numberFormat
  | exception (message : String)
deriving DecidableEq, Repr

structure Arc where
  numero : ℤ
  source : ℤ
  destination : ℤ
deriving DecidableEq, Repr

def Arc.toString (a : Arc) : List Char :=
  decimale a.numero ++ '/' :: decimale (a.source + 1) ++ '+' :: decimale (a.destination + 1) ++ ['/']

/-- the array of the chains of `Maillon` -/
structure Graphe where
  sommets : List (List Arc)
deriving DecidableEq, Repr

/-! ## The reader -/

/-- a class of characters -/
def classe (l : List Char) : RegularExpression Char := l.foldr (fun c motif => .char c + motif) 0

/-- `[0-9]+` -/
def nombre : RegularExpression Char :=
  let chiffre := classe ['0', '1', '2', '3', '4', '5', '6', '7', '8', '9']
  chiffre * chiffre.star

/-- `[0-9]+/[0-9]+\+[0-9]+/` -/
def motifArc : RegularExpression Char := nombre * .char '/' * nombre * .char '+' * nombre * .char '/'

/-- `parties[i]` -/
def lit (parties : List (List Char)) (i : ℕ) : Except JException (List Char) :=
  match parties[i]? with
  | some m => .ok m
  | none => .error .arrayIndexOutOfBounds

def valueOf (m : List Char) : Except JException ℤ :=
  match parseInt m with
  | some v => .ok v
  | none => .error .numberFormat

/-- the walk to the last `Maillon` of a chain -/
def ajouteFin (nouveau : Arc) : List Arc → List Arc
  | [] => [nouveau]
  | courant :: suivant => courant :: ajouteFin nouveau suivant

/-- the arc of a word -/
def arcDe (specification_arc : List Char) : Except JException Arc :=
  if motifArc.rmatch specification_arc = false then
    .error (.exception ("Arc mal forme : " ++ String.ofList specification_arc))
  else do
    let parties := splitSur '/' specification_arc
    let m ← lit parties 0
    let numero ← valueOf m
    let m ← lit parties 1
    let parties := splitSur '+' m
    let m ← lit parties 0
    let source ← valueOf m
    let m ← lit parties 1
    let destination ← valueOf m
    return ⟨numero, source - 1, destination - 1⟩

def lireArc (g : Graphe) (specification_arc : List Char) : Except JException Graphe := do
  let nouveau ← arcDe specification_arc
  if 0 ≤ nouveau.source ∧ nouveau.source < g.sommets.length then
    return ⟨g.sommets.modify nouveau.source.toNat (ajouteFin nouveau)⟩
  else .error .arrayIndexOutOfBounds

/-- the constructor, in a locale with this separator in its numbers -/
def lire (separateur : Char) (texte : List Char) : Except JException Graphe :=
  match jetons texte with
  | [] => .error .noSuchElement
  | m :: suite =>
    match nextInt separateur m with
    | none => .error .inputMismatch
    | some nombre_sommets =>
      if nombre_sommets < 0 then .error .negativeArraySize
      else suite.foldlM lireArc ⟨List.replicate nombre_sommets.toNat []⟩

/-! ## The printer -/

def Graphe.toString (g : Graphe) : List Char :=
  g.sommets.foldl
    (fun resultat courant => courant.foldl (fun resultat arc => resultat ++ (arc.toString ++ ['\n'])) resultat)
    (decimale g.sommets.length ++ ['\n'])

/-! ## The words of the pattern -/

variable {m a b c : List Char}

theorem classe_rmatch {l : List Char} : (classe l).rmatch m ↔ ∃ x ∈ l, m = [x] := by
  induction l with
  | nil => simp [classe, RegularExpression.zero_rmatch]
  | cons x l ih =>
    rw [classe, List.foldr_cons, RegularExpression.add_rmatch_iff, RegularExpression.char_rmatch_iff,
      List.exists_mem_cons_iff]
    exact or_congr_right ih

theorem mem_chiffres (x : Char) : x ∈ ['0', '1', '2', '3', '4', '5', '6', '7', '8', '9'] ↔ x.isDigit := by
  apply Iff.intro
  · intro h
    fin_cases h <;> rfl
  · intro h
    have hx := Char.isDigit_iff_toNat.1 h
    simp only [Char.reduceToNat] at hx
    rw [← Char.ofNat_toNat x]
    obtain ⟨hmin, hmax⟩ := hx
    interval_cases x.toNat <;> decide

theorem nombre_rmatch : nombre.rmatch m ↔ m ≠ [] ∧ ∀ x ∈ m, x.isDigit := by
  rw [nombre, RegularExpression.mul_rmatch_iff]
  simp only [classe_rmatch, RegularExpression.star_rmatch_iff, mem_chiffres]
  apply Iff.intro
  · rintro ⟨_, _, rfl, ⟨x, hx, rfl⟩, S, rfl, hS⟩
    refine ⟨by simp, List.forall_mem_cons.2 ⟨hx, ?_⟩⟩
    intro y hy
    obtain ⟨t, ht, hyt⟩ := List.mem_flatten.1 hy
    obtain ⟨-, z, hz, rfl⟩ := hS t ht
    rwa [List.mem_singleton.1 hyt]
  · rintro ⟨hne, hm⟩
    obtain ⟨x, m, rfl⟩ := List.exists_cons_of_ne_nil hne
    obtain ⟨hx, hm⟩ := List.forall_mem_cons.1 hm
    refine ⟨[x], m, rfl, ⟨x, hx, rfl⟩, m.map fun y => [y], (List.flatMap_singleton' m).symm, ?_⟩
    intro t ht
    obtain ⟨y, hy, rfl⟩ := List.mem_map.1 ht
    exact ⟨by simp, y, hm y hy, rfl⟩

/-- a number as the pattern wants it -/
def EstNombre (m : List Char) : Prop := m ≠ [] ∧ ∀ x ∈ m, x.isDigit

/-- the words that the pattern accepts -/
theorem motifArc_iff : motifArc.rmatch m ↔
    ∃ a b c, EstNombre a ∧ EstNombre b ∧ EstNombre c ∧ m = a ++ '/' :: (b ++ '+' :: c) ++ ['/'] := by
  simp only [motifArc, RegularExpression.mul_rmatch_iff, RegularExpression.char_rmatch_iff, nombre_rmatch]
  apply Iff.intro
  · rintro ⟨_, _, rfl, ⟨_, c, rfl, ⟨_, _, rfl, ⟨_, b, rfl, ⟨a, _, rfl, ha, rfl⟩, hb⟩, rfl⟩, hc⟩, rfl⟩
    exact ⟨a, b, c, ha, hb, hc, by simp⟩
  · rintro ⟨a, b, c, ha, hb, hc, rfl⟩
    refine ⟨_, _, ?_, ⟨_, c, rfl, ⟨_, _, rfl, ⟨_, b, rfl, ⟨a, _, rfl, ha, rfl⟩, hb⟩, rfl⟩, hc⟩, rfl⟩
    simp

/-! ## Reading an arc -/

variable {g : Graphe} {arc : Arc} {separateur : Char} {texte : List Char}

theorem EstNombre.not_mem (hm : EstNombre m) {x : Char} (hx : x.isDigit = false) : x ∉ m := by
  intro h
  have := hm.2 x h
  simp [hx] at this

theorem valueOf_ok {v : ℤ} : valueOf m = .ok v ↔ parseInt m = some v := by
  unfold valueOf
  cases parseInt m <;> simp

/-- the arc that a word of the pattern describes -/
theorem arcDe_mots (ha : EstNombre a) (hb : EstNombre b) (hc : EstNombre c) :
    arcDe (a ++ '/' :: (b ++ '+' :: c) ++ ['/']) = (valueOf a).bind fun numero => (valueOf b).bind fun source =>
      (valueOf c).bind fun destination => .ok ⟨numero, source - 1, destination - 1⟩ := by
  have hmotif : motifArc.rmatch (a ++ '/' :: (b ++ '+' :: c) ++ ['/']) = true :=
    motifArc_iff.2 ⟨a, b, c, ha, hb, hc, rfl⟩
  have hslash : '/' ∉ b ++ '+' :: c := by
    simp [hb.not_mem (rfl : '/'.isDigit = false), hc.not_mem (rfl : '/'.isDigit = false)]
  have hplus : splitSur '+' (b ++ '+' :: c) = [b, c] := splitSur_deux (hb.not_mem rfl) (hc.not_mem rfl) hc.1
  rw [arcDe, hmotif, if_neg (by decide), splitSur_fin (ha.not_mem rfl) hslash (by simp)]
  change ((valueOf a).bind fun numero => _) = _
  refine congrArg _ (funext fun numero => ?_)
  change (lit (splitSur '+' (b ++ '+' :: c)) 0).bind _ = _
  rw [hplus]
  rfl

/-- the numbers of an arc that was read: they are ints, and vertices are written from one on -/
structure Lisible (arc : Arc) : Prop where
  numero : 0 ≤ arc.numero ∧ arc.numero ≤ 2147483647
  source : -1 ≤ arc.source ∧ arc.source ≤ 2147483646
  destination : -1 ≤ arc.destination ∧ arc.destination ≤ 2147483646

theorem lisible_of_arcDe (h : arcDe m = .ok arc) : Lisible arc := by
  by_cases hmotif : motifArc.rmatch m = true
  · obtain ⟨a, b, c, ha, hb, hc, rfl⟩ := motifArc_iff.1 hmotif
    rw [arcDe_mots ha hb hc] at h
    obtain ⟨numero, hnumero, h⟩ := ok_of_bind h
    obtain ⟨source, hsource, h⟩ := ok_of_bind h
    obtain ⟨destination, hdestination, h⟩ := ok_of_bind h
    obtain rfl := Except.ok.inj h
    have hn := parseInt_borne ha.2 (valueOf_ok.1 hnumero)
    have hs := parseInt_borne hb.2 (valueOf_ok.1 hsource)
    have hd := parseInt_borne hc.2 (valueOf_ok.1 hdestination)
    exact ⟨hn, by simp only; omega, by simp only; omega⟩
  · rw [arcDe, if_pos (Bool.eq_false_of_not_eq_true hmotif)] at h
    cases h

theorem decimale_lue {v : ℤ} (h : 0 ≤ v ∧ v ≤ 2147483647) : EstNombre (decimale v) ∧ valueOf (decimale v) = .ok v := by
  obtain ⟨n, rfl⟩ := Int.eq_ofNat_of_zero_le h.1
  exact ⟨⟨decimale_ne_nil n, isDigit_decimale n⟩, valueOf_ok.2 (parseInt_decimale (by omega))⟩

theorem arcDe_toString (h : Lisible arc) : arcDe arc.toString = .ok arc := by
  obtain ⟨ha, hnumero⟩ := decimale_lue h.numero
  obtain ⟨hb, hsource⟩ := decimale_lue (v := arc.source + 1) (by have := h.source; omega)
  obtain ⟨hc, hdestination⟩ := decimale_lue (v := arc.destination + 1) (by have := h.destination; omega)
  have hmots : arc.toString = decimale arc.numero ++
      '/' :: (decimale (arc.source + 1) ++ '+' :: decimale (arc.destination + 1)) ++ ['/'] := by simp [Arc.toString]
  rw [hmots, arcDe_mots ha hb hc, hnumero, hsource, hdestination]
  simp [Except.bind]

/-! ## Reading a graph -/

theorem ajouteFin_eq (l : List Arc) : ajouteFin arc l = l ++ [arc] := by
  induction l with
  | nil => rfl
  | cons courant suivant ih => rw [ajouteFin, ih, List.cons_append]

/-- each arc is in the chain of its source -/
structure Valide (g : Graphe) : Prop where
  taille : g.sommets.length ≤ 2147483647
  chaines : ∀ (i : ℕ) (l : List Arc), g.sommets[i]? = some l → ∀ arc ∈ l, Lisible arc ∧ arc.source = i

theorem lireArc_valide {g' : Graphe} (hg : Valide g) (h : lireArc g m = .ok g') : Valide g' := by
  obtain ⟨nouveau, hnouveau, h⟩ := ok_of_bind h
  have hlisible := lisible_of_arcDe hnouveau
  split_ifs at h with hsource
  obtain rfl := Except.ok.inj h
  refine ⟨by simpa using hg.taille, ?_⟩
  intro i l hl arc harc
  rw [List.getElem?_modify] at hl
  obtain ⟨l₀, hl₀, rfl⟩ := Option.map_eq_some_iff.1 hl
  split_ifs at harc with hi
  · rw [ajouteFin_eq] at harc
    rcases List.mem_append.1 harc with harc | harc
    · exact hg.chaines i l₀ hl₀ arc harc
    · obtain rfl := List.mem_singleton.1 harc
      exact ⟨hlisible, by omega⟩
  · exact hg.chaines i l₀ hl₀ arc harc

theorem foldlM_valide {l : List (List Char)} {g' : Graphe} (hg : Valide g) (h : l.foldlM lireArc g = .ok g') :
    Valide g' := by
  induction l generalizing g with
  | nil =>
    obtain rfl := Except.ok.inj h
    exact hg
  | cons m l ih =>
    obtain ⟨g₁, hg₁, h⟩ := ok_of_bind h
    exact ih (lireArc_valide hg hg₁) h

/-- what was read is a graph -/
theorem lire_valide (h : lire separateur texte = .ok g) : Valide g := by
  unfold lire at h
  split at h
  · cases h
  · split at h
    · cases h
    · rename_i m suite _ _ nombre_sommets hnombre
      split_ifs at h with hneg
      refine foldlM_valide ⟨?_, ?_⟩ h
      · have := nextInt_borne hnombre
        simp only [List.length_replicate]
        omega
      · intro i l hl arc harc
        have hnil : l = [] := List.eq_of_mem_replicate (List.mem_of_getElem? hl)
        rw [hnil] at harc
        cases harc

/-! ## Printed and read -/

/-- the lines that are printed -/
def Graphe.lignes (g : Graphe) : List (List Char) := decimale g.sommets.length :: g.sommets.flatten.map Arc.toString

theorem toString_eq (g : Graphe) : g.toString = g.lignes.flatMap fun m => m ++ ['\n'] := by
  have hchaine : ∀ (l : List Arc) resultat,
      l.foldl (fun resultat arc => resultat ++ (arc.toString ++ ['\n'])) resultat =
        resultat ++ (l.map Arc.toString).flatMap fun m => m ++ ['\n'] := by
    intro l resultat
    rw [List.foldl_append_eq_append, List.flatMap_map, List.flatMap_def]
  rw [Graphe.toString]
  simp only [hchaine]
  rw [List.foldl_append_eq_append, Graphe.lignes, List.flatMap_cons, ← List.flatMap_def, List.flatMap_map,
    ← List.flatMap_id, List.flatMap_assoc]
  simp only [List.flatMap_map, id_eq]

theorem jetons_lignes {l : List (List Char)} (h : ∀ m ∈ l, m ≠ [] ∧ ∀ x ∈ m, estBlanc x = false) :
    jetons (l.flatMap fun m => m ++ ['\n']) = l := by
  induction l with
  | nil => rfl
  | cons m l ih =>
    obtain ⟨⟨hne, hm⟩, hl⟩ := List.forall_mem_cons.1 h
    rw [List.flatMap_cons, List.append_assoc, List.singleton_append, jetons_ligne hne hm, ih hl]

/-- an arc that was printed goes back to the end of the chain of its source -/
theorem lireArc_toString {debut reste : List (List Arc)} {l : List Arc} (h : Lisible arc)
    (hsource : arc.source = debut.length) :
    lireArc ⟨debut ++ l :: reste⟩ arc.toString = .ok ⟨debut ++ (l ++ [arc]) :: reste⟩ := by
  have hmodify : (debut ++ l :: reste).modify debut.length (ajouteFin arc) = debut ++ (l ++ [arc]) :: reste := by
    rw [List.modify_eq_take_cons_drop (by simp)]
    simp [ajouteFin_eq]
  rw [lireArc, arcDe_toString h]
  change (if 0 ≤ arc.source ∧ arc.source < (debut ++ l :: reste).length then _ else _) = _
  rw [if_pos (by simp; omega), hsource, Int.toNat_natCast, hmodify]
  rfl

/-- the arcs of a chain -/
theorem foldlM_chaine {debut reste : List (List Arc)} {l l' : List Arc}
    (h : ∀ arc ∈ l', Lisible arc ∧ arc.source = debut.length) :
    (l'.map Arc.toString).foldlM lireArc ⟨debut ++ l :: reste⟩ = .ok ⟨debut ++ (l ++ l') :: reste⟩ := by
  induction l' generalizing l with
  | nil => simp [pure, Except.pure]
  | cons arc l' ih =>
    obtain ⟨⟨hlisible, hsource⟩, hl'⟩ := List.forall_mem_cons.1 h
    rw [List.map_cons, List.foldlM_cons, lireArc_toString hlisible hsource]
    refine (ih hl').trans ?_
    rw [List.append_assoc, List.singleton_append]

/-- the chains from one vertex on -/
theorem foldlM_chaines (debut reste : List (List Arc))
    (h : ∀ (i : ℕ) (l : List Arc), reste[i]? = some l → ∀ arc ∈ l, Lisible arc ∧ arc.source = (debut.length + i : ℕ)) :
    (reste.flatten.map Arc.toString).foldlM lireArc ⟨debut ++ List.replicate reste.length []⟩ =
      .ok ⟨debut ++ reste⟩ := by
  induction reste generalizing debut with
  | nil => rfl
  | cons l reste ih =>
    have hl : ∀ arc ∈ l, Lisible arc ∧ arc.source = debut.length := h 0 l rfl
    have hreste := ih (debut ++ [l]) fun i l' hl' arc harc => by
      have := h (i + 1) l' hl' arc harc
      rwa [List.length_append, List.length_singleton, Nat.add_assoc, Nat.add_comm 1 i]
    rw [List.append_assoc, List.singleton_append, List.append_assoc, List.singleton_append] at hreste
    rw [List.flatten_cons, List.map_append, List.foldlM_append, List.length_cons, List.replicate_succ, foldlM_chaine hl]
    exact hreste

theorem mot_decimale {v : ℤ} (h : 0 ≤ v ∧ v ≤ 2147483647) :
    decimale v ≠ [] ∧ ∀ x ∈ decimale v, estBlanc x = false :=
  ⟨(decimale_lue h).1.1, fun x hx => estBlanc_isDigit ((decimale_lue h).1.2 x hx)⟩

theorem mot_toString (h : Lisible arc) : arc.toString ≠ [] ∧ ∀ x ∈ arc.toString, estBlanc x = false := by
  have hnumero := (mot_decimale h.numero).2
  have hsource := (mot_decimale (v := arc.source + 1) (by have := h.source; omega)).2
  have hdestination := (mot_decimale (v := arc.destination + 1) (by have := h.destination; omega)).2
  refine ⟨by simp [Arc.toString], ?_⟩
  intro x hx
  simp only [Arc.toString, List.mem_append, List.mem_cons, List.not_mem_nil, or_false] at hx
  rcases hx with ((hx | rfl | hx) | rfl | hx) | rfl
  · exact hnumero x hx
  · rfl
  · exact hsource x hx
  · rfl
  · exact hdestination x hx
  · rfl

theorem lire_toString_of_valide (hg : Valide g) : lire separateur g.toString = .ok g := by
  have hmots : ∀ m ∈ g.lignes, m ≠ [] ∧ ∀ x ∈ m, estBlanc x = false := by
    refine List.forall_mem_cons.2 ⟨mot_decimale ⟨Int.natCast_nonneg _, by exact_mod_cast hg.taille⟩, ?_⟩
    intro m hm
    obtain ⟨arc, harc, rfl⟩ := List.mem_map.1 hm
    obtain ⟨l, hl, harc⟩ := List.mem_flatten.1 harc
    obtain ⟨i, hi⟩ := List.mem_iff_getElem?.1 hl
    exact mot_toString (hg.chaines i l hi arc harc).1
  have harcs := foldlM_chaines [] g.sommets (by simpa using hg.chaines)
  rw [lire, toString_eq, jetons_lignes hmots]
  simp only [Graphe.lignes, nextInt_decimale hg.taille]
  rw [if_neg (by omega), Int.toNat_natCast]
  exact harcs

/-- **Printed and read**: the graph that was read comes back, with its arcs in the same order. -/
theorem lire_toString (h : lire separateur texte = .ok g) : lire separateur g.toString = .ok g :=
  lire_toString_of_valide (lire_valide h)

/-- arcs that leave two vertices in turn -/
theorem lire_toString_trois : lire ',' (Graphe.toString ⟨[[⟨5, 0, 1⟩], [], [⟨7, 2, -1⟩, ⟨6, 2, 0⟩]]⟩) =
    .ok ⟨[[⟨5, 0, 1⟩], [], [⟨7, 2, -1⟩, ⟨6, 2, 0⟩]]⟩ :=
  lire_toString (rfl : lire ',' "3 7/3+0/ 5/1+2/\n6/3+1/".toList = _)

end Semestre6.LireGraphe
