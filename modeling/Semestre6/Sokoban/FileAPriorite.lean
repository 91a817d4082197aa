/-
Sac_Perso.java and file_a_priorite.java: the queue of `Explorer`, a list in the order of insertion.

- `inserer_eq`: a pair (bag, pusher) that the queue holds is left with the weight it has, whatever the new one: the
  update keeps the greater of the two weights only when it is the old one;
- `extraire_spec`: the first entry of least poids + distance below 10000000 leaves the queue, the first of all when
  there is none below;
- `extraireInt_spec`: the same with the sums of Java's `int`, modulo 2^32;
- `extraireInt_eq`: both are one where no sum overflows.
-/
import Semestre6.Lib.MeilleurDabord
import Semestre6.Sokoban.Moteur

namespace Semestre6.Sokoban

open MeilleurDabord

/-- a bag cell and a pusher cell -/
abbrev SacPousseur := (ℤ × ℤ) × (ℤ × ℤ)

structure SacPerso where
  sac : ℤ × ℤ
  perso : ℤ × ℤ
  poids : ℤ
  distance : ℤ
deriving DecidableEq, Repr

def SacPerso.etat (s : SacPerso) : SacPousseur := (s.sac, s.perso)

/-- what can be thrown by `Explorer`: by the board, or by `remove` on an empty list -/
inductive Erreur where
  | plateau (e : JException)
  | indexOutOfBounds
deriving DecidableEq, Repr

namespace FileAPriorite

/-- the loop of `Contient` from index `i` on; the last index found wins, -1 is `none` -/
def contient (s : SacPerso) (i : ℕ) (trouve : Option ℕ) : List SacPerso → Option ℕ
  | [] => trouve
  | z :: file => contient s (i + 1) (if s.perso = z.perso ∧ s.sac = z.sac then some i else trouve) file

def inserer (file : List SacPerso) (e : SacPerso) : List SacPerso :=
  match contient e 0 none file with
  | some index =>
    match file[index]? with
    | some z =>
      let poids := max z.poids e.poids
      if poids = z.poids then file.set index { z with poids := poids } else file
    | none => file
  | none => file ++ [e]

/-- the loop of `Extraire` from index `i` on, with the sums that it compares -/
def indiceMin (somme : SacPerso → ℤ) (i index : ℕ) (min : ℤ) : List SacPerso → ℕ
  | [] => index
  | z :: file =>
    if somme z < min then indiceMin somme (i + 1) i (somme z) file else indiceMin somme (i + 1) index min file

def extrairePar (somme : SacPerso → ℤ) (file : List SacPerso) : Except Erreur (SacPerso × List SacPerso) :=
  let index := indiceMin somme 0 0 10000000 file
  match file[index]? with
  | some z => .ok (z, file.eraseIdx index)
  | none => .error .indexOutOfBounds

/-- `Extraire` where the sums fit an `int` -/
def extraire (file : List SacPerso) : Except Erreur (SacPerso × List SacPerso) :=
  extrairePar (fun z => z.poids + z.distance) file

/-- the `int` poids + distance -/
def somme (z : SacPerso) : ℤ := (z.poids + z.distance).bmod (2 ^ 32)

/-- `Extraire`, whatever the weights -/
def extraireInt (file : List SacPerso) : Except Erreur (SacPerso × List SacPerso) := extrairePar somme file

variable {file : List SacPerso} {e z : SacPerso}

theorem contient_none (i : ℕ) (file : List SacPerso) :
    contient e i none file = none ↔ ∀ z ∈ file, z.etat ≠ e.etat := by
  have hsome : ∀ (file : List SacPerso) (i j : ℕ), contient e i (some j) file ≠ none := by
    intro file
    induction file with
    | nil => simp [contient]
    | cons z file ih =>
      intro i j
      unfold contient
      split_ifs
      · exact ih _ _
      · exact ih _ _
  induction file generalizing i with
  | nil => simp [contient]
  | cons z file ih =>
    unfold contient
    by_cases hz : e.perso = z.perso ∧ e.sac = z.sac
    · have he : z.etat = e.etat := Prod.ext hz.2.symm hz.1.symm
      simp [hz, hsome, he]
    · have he : z.etat ≠ e.etat := fun h => hz ⟨(Prod.mk.inj h).2.symm, (Prod.mk.inj h).1.symm⟩
      simp [hz, ih, he]

/-- the update never changes the queue -/
theorem inserer_eq (file : List SacPerso) (e : SacPerso) :
    inserer file e = if e.etat ∈ file.map SacPerso.etat then file else file ++ [e] := by
  unfold inserer
  cases hc : contient e 0 none file with
  | none =>
    have hn := (contient_none 0 file).1 hc
    rw [if_neg]
    intro hin
    obtain ⟨z, hz, he⟩ := List.mem_map.1 hin
    exact hn z hz he
  | some index =>
    have hin : e.etat ∈ file.map SacPerso.etat := by
      by_contra hin
      have hn := (contient_none 0 file).2 fun z hz he => hin (he ▸ List.mem_map_of_mem hz)
      rw [hn] at hc
      cases hc
    rw [if_pos hin]
    cases hz : file[index]? with
    | none => simp only [hz]
    | some z =>
      simp only [hz]
      split_ifs with hp
      · rw [hp]
        obtain ⟨hi, rfl⟩ := List.getElem?_eq_some_iff.1 hz
        exact List.set_getElem_self hi
      · rfl

theorem indiceMin_eq (somme : SacPerso → ℤ) (i index : ℕ) (m : ℤ) (file : List SacPerso) :
    indiceMin somme i index m file = MeilleurDabord.indiceMin somme i index m file := by
  induction file generalizing i index m with
  | nil => rfl
  | cons z file ih =>
    rw [indiceMin, MeilleurDabord.indiceMin, ih, ih]

theorem extrairePar_spec (somme : SacPerso → ℤ) (hne : file ≠ []) :
    ∃ z reste, extrairePar somme file = .ok (z, reste) ∧ Extrait (fun z => min (somme z) 10000000) file z reste := by
  obtain ⟨z, hz, hext⟩ := indiceMin_extrait somme 10000000 hne
  rw [← indiceMin_eq] at hz hext
  exact ⟨z, _, by rw [extrairePar, hz], hext⟩

def cleSac (z : SacPerso) : ℤ := min (z.poids + z.distance) 10000000

theorem extraire_spec (hne : file ≠ []) : ∃ z reste, extraire file = .ok (z, reste) ∧ Extrait cleSac file z reste :=
  extrairePar_spec _ hne

theorem extraireInt_spec (hne : file ≠ []) :
    ∃ z reste, extraireInt file = .ok (z, reste) ∧ Extrait (fun z => min (somme z) 10000000) file z reste :=
  extrairePar_spec _ hne

/-- the sum fits an `int` -/
def SansDebordement (z : SacPerso) : Prop := -2 ^ 31 ≤ z.poids + z.distance ∧ z.poids + z.distance < 2 ^ 31

theorem somme_eq (h : SansDebordement z) : somme z = z.poids + z.distance := by
  obtain ⟨h₁, h₂⟩ := h
  exact Int.bmod_eq_of_le (by omega) (by omega)

theorem indiceMin_congr {f g : SacPerso → ℤ} (h : ∀ z ∈ file, f z = g z) (i index : ℕ) (m : ℤ) :
    indiceMin f i index m file = indiceMin g i index m file := by
  induction file generalizing i index m with
  | nil => rfl
  | cons z file ih =>
    have ih := ih fun y hy => h y (List.mem_cons_of_mem z hy)
    rw [indiceMin, indiceMin, h z List.mem_cons_self, ih, ih]

theorem extraireInt_eq (h : ∀ z ∈ file, SansDebordement z) : extraireInt file = extraire file := by
  have hindice := indiceMin_congr (fun z hz => somme_eq (h z hz)) 0 0 10000000
  rw [extraireInt, extraire, extrairePar, extrairePar, hindice]

end FileAPriorite

end Semestre6.Sokoban
