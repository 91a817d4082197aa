/-
file_a_priorite.java, `Inserer` of a pair (bag, pusher) that the queue already holds: the update compares the weights
with `max` and stores the result only when it is the old weight.

- `nodup_step`: the queue never holds a pair twice, whatever the calls;
- `juste_iff`: one call keeps every weight the least one inserted exactly when it offers no smaller weight to a pair of
  the queue;
- `fileAPriorite_juste_iff`: the same along every sequence of calls.

Witness that the condition is needed: `moindre_poids_perdu`, one pair inserted with 5 and then with 3.
-/
import Semestre6.Lib.Transition
import Semestre6.Sokoban.FileAPriorite

namespace Semestre6.Sokoban.MiseAJour

open MeilleurDabord Transition FileAPriorite

/-- the queue, and the entries inserted since their pair was last extracted -/
structure Suivi where
  file : List SacPerso
  inseres : List SacPerso
deriving DecidableEq, Repr

inductive Appel where
  | inserer (e : SacPerso)
  | extraire
deriving DecidableEq, Repr

/-- an exception leaves all as it is -/
def step (s : Suivi) : Appel → Suivi
  | .inserer e => ⟨inserer s.file e, s.inseres ++ [e]⟩
  | .extraire =>
    match extraireInt s.file with
    | .ok (z, reste) => ⟨reste, s.inseres.filter fun e => e.etat ≠ z.etat⟩
    | .error _ => s

def vide : Suivi := ⟨[], []⟩

/-- one entry a pair, with the least weight inserted -/
structure Exacte (s : Suivi) : Prop where
  unique : (s.file.map SacPerso.etat).Nodup
  inseree : ∀ z ∈ s.file, z ∈ s.inseres
  moindre : ∀ z ∈ s.file, ∀ e ∈ s.inseres, e.etat = z.etat → z.poids ≤ e.poids
  presente : ∀ e ∈ s.inseres, e.etat ∈ s.file.map SacPerso.etat

/-- the entries of one pair have one distance -/
def MemeDistance (l : List SacPerso) : Prop := ∀ e ∈ l, ∀ e' ∈ l, e.etat = e'.etat → e.distance = e'.distance

/-- the queue after the call holds one entry a pair, with the least weight inserted, and what an extraction takes out
has the least `int` poids + distance of the queue: of all that was inserted, where these sums do not overflow -/
structure Juste (s : Suivi) (a : Appel) : Prop where
  unique : ((step s a).file.map SacPerso.etat).Nodup
  moindre : ∀ z ∈ (step s a).file,
    IsLeast {poids | ∃ e ∈ (step s a).inseres, e.etat = z.etat ∧ e.poids = poids} z.poids
  extrait : a = .extraire → s.file ≠ [] → (∀ z ∈ s.file, somme z < 10000000) →
    ∃ z reste, extraireInt s.file = .ok (z, reste) ∧ (∀ y ∈ s.file, somme z ≤ somme y) ∧
      (MemeDistance s.inseres → (∀ e ∈ s.inseres, SansDebordement e) →
        ∀ e ∈ s.inseres, z.poids + z.distance ≤ e.poids + e.distance)

/-- no pair of the queue is offered a smaller weight -/
def SansBaisse (s : Suivi) (a : Appel) : Prop :=
  ∀ e, a = .inserer e → ∀ z ∈ s.file, z.etat = e.etat → z.poids ≤ e.poids

variable {s : Suivi} {a : Appel} {e z : SacPerso}

/-! ## One call -/

theorem step_extraire_vide (h : s.file = []) : step s .extraire = s := by
  simp [step, h, extraireInt, extrairePar, FileAPriorite.indiceMin]

theorem nodup_inserer {file : List SacPerso} (h : (file.map SacPerso.etat).Nodup) (e : SacPerso) :
    ((inserer file e).map SacPerso.etat).Nodup := by
  rw [inserer_eq]
  split_ifs with he
  · exact h
  · rw [List.map_append, List.map_singleton]
    exact List.nodup_append'.2 ⟨h, List.nodup_singleton _, List.disjoint_singleton.2 he⟩

/-- **One entry a pair**, whatever the call. -/
theorem nodup_step (h : (s.file.map SacPerso.etat).Nodup) (a : Appel) :
    ((step s a).file.map SacPerso.etat).Nodup := by
  match a with
  | .inserer e => exact nodup_inserer h e
  | .extraire =>
    by_cases hne : s.file = []
    · rwa [step_extraire_vide hne]
    · obtain ⟨z, reste, hz, hext⟩ := extraireInt_spec hne
      rw [step, hz]
      exact h.sublist (hext.sublist.map _)

theorem nodup_run (h : (s.file.map SacPerso.etat).Nodup) (appels : List Appel) :
    ((run step s appels).file.map SacPerso.etat).Nodup := by
  induction appels generalizing s with
  | nil => exact h
  | cons a appels ih => exact ih (nodup_step h a)

theorem Exacte.isLeast (h : Exacte s) (hz : z ∈ s.file) :
    IsLeast {poids | ∃ e ∈ s.inseres, e.etat = z.etat ∧ e.poids = poids} z.poids := by
  apply And.intro
  · exact ⟨z, h.inseree z hz, rfl, rfl⟩
  · intro poids hp
    obtain ⟨e, he, hez, rfl⟩ := hp
    exact h.moindre z hz e he hez

theorem exacte_connue (h : Exacte s) (hbaisse : SansBaisse s (.inserer e))
    (he : e.etat ∈ s.file.map SacPerso.etat) : Exacte ⟨s.file, s.inseres ++ [e]⟩ where
  unique := h.unique
  inseree := fun z hz => List.mem_append_left _ (h.inseree z hz)
  moindre := by
    intro z hz y hy hyz
    rcases List.mem_append.1 hy with hy | hy
    · exact h.moindre z hz y hy hyz
    · obtain rfl := List.mem_singleton.1 hy
      exact hbaisse y rfl z hz hyz.symm
  presente := by
    intro y hy
    rcases List.mem_append.1 hy with hy | hy
    · exact h.presente y hy
    · exact List.mem_singleton.1 hy ▸ he

theorem exacte_nouvelle (h : Exacte s) (he : e.etat ∉ s.file.map SacPerso.etat) :
    Exacte ⟨s.file ++ [e], s.inseres ++ [e]⟩ where
  unique := by
    rw [List.map_append, List.map_singleton]
    exact List.nodup_append'.2 ⟨h.unique, List.nodup_singleton _, List.disjoint_singleton.2 he⟩
  inseree := by
    intro z hz
    rcases List.mem_append.1 hz with hz | hz
    · exact List.mem_append_left _ (h.inseree z hz)
    · exact List.mem_append_right _ hz
  moindre := by
    intro z hz y hy hyz
    rcases List.mem_append.1 hz with hz | hz
    · rcases List.mem_append.1 hy with hy | hy
      · exact h.moindre z hz y hy hyz
      · rw [List.mem_singleton.1 hy] at hyz
        exact absurd (hyz ▸ List.mem_map_of_mem hz) he
    · obtain rfl := List.mem_singleton.1 hz
      rcases List.mem_append.1 hy with hy | hy
      · exact absurd (hyz ▸ h.presente y hy) he
      · rw [List.mem_singleton.1 hy]
  presente := by
    intro y hy
    rw [List.map_append]
    rcases List.mem_append.1 hy with hy | hy
    · exact List.mem_append_left _ (h.presente y hy)
    · exact List.mem_append_right _ (List.mem_map_of_mem hy)

/-- the pair extracted is forgotten: neither the rest nor what was inserted holds it -/
theorem exacte_extraite {cle : SacPerso → ℤ} {reste : List SacPerso} (h : Exacte s)
    (hext : Extrait cle s.file z reste) :
    Exacte ⟨reste, s.inseres.filter fun e => e.etat ≠ z.etat⟩ := by
  have hreste : ∀ y ∈ reste, y.etat ≠ z.etat := by
    have hunique := h.unique
    obtain ⟨l₁, l₂, hfile, rfl, -, -⟩ := hext
    rw [hfile, List.map_append, List.map_cons, List.nodup_middle, ← List.map_append] at hunique
    intro y hy heq
    exact (List.nodup_cons.1 hunique).1 (heq ▸ List.mem_map_of_mem hy)
  refine ⟨h.unique.sublist (hext.sublist.map _), ?_, ?_, ?_⟩
  · intro y hy
    exact List.mem_filter.2 ⟨h.inseree y (hext.mem_iff.2 (.inr hy)), decide_eq_true (hreste y hy)⟩
  · intro y hy e he hey
    exact h.moindre y (hext.mem_iff.2 (.inr hy)) e (List.mem_filter.1 he).1 hey
  · intro e he
    obtain ⟨he, hez⟩ := List.mem_filter.1 he
    obtain ⟨y, hy, hye⟩ := List.mem_map.1 (h.presente e he)
    rcases hext.mem_iff.1 hy with rfl | hy
    · exact absurd hye.symm (of_decide_eq_true hez)
    · exact hye ▸ List.mem_map_of_mem hy

theorem exacte_step (h : Exacte s) (hbaisse : SansBaisse s a) : Exacte (step s a) := by
  match a with
  | .inserer e =>
    rw [step, inserer_eq]
    split_ifs with he
    · exact exacte_connue h hbaisse he
    · exact exacte_nouvelle h he
  | .extraire =>
    by_cases hne : s.file = []
    · rwa [step_extraire_vide hne]
    · obtain ⟨z, reste, hz, hext⟩ := extraireInt_spec hne
      rw [step, hz]
      exact exacte_extraite h hext

/-- the entry taken out is the least of the queue -/
theorem extraireInt_moindre (hne : s.file ≠ []) (hborne : ∀ z ∈ s.file, somme z < 10000000) :
    ∃ z reste, extraireInt s.file = .ok (z, reste) ∧ z ∈ s.file ∧ ∀ y ∈ s.file, somme z ≤ somme y := by
  obtain ⟨z, reste, hz, hext⟩ := extraireInt_spec hne
  have hext : Extrait somme s.file z reste := hext.of_lt (hborne z hext.mem)
  refine ⟨z, reste, hz, hext.mem, ?_⟩
  intro y hy
  rcases hext.mem_iff.1 hy with rfl | hy
  · exact le_rfl
  · exact hext.le hy

/-- where no sum overflows, a least entry of the queue is one of all that was inserted -/
theorem Exacte.moindre_des_inseres (h : Exacte s) (hz : z ∈ s.file) (hle : ∀ y ∈ s.file, somme z ≤ somme y)
    (hdist : MemeDistance s.inseres) (hint : ∀ e ∈ s.inseres, SansDebordement e) (he : e ∈ s.inseres) :
    z.poids + z.distance ≤ e.poids + e.distance := by
  -- the entry of the pair of `e`
  obtain ⟨y, hy, hye⟩ := List.mem_map.1 (h.presente e he)
  have hpoids : y.poids ≤ e.poids := h.moindre y hy e he hye.symm
  have hd : y.distance = e.distance := hdist y (h.inseree y hy) e he hye
  calc z.poids + z.distance = somme z := (somme_eq (hint z (h.inseree z hz))).symm
    _ ≤ somme y := hle y hy
    _ = y.poids + y.distance := somme_eq (hint y (h.inseree y hy))
    _ ≤ e.poids + e.distance := by omega

/-- **One call** keeps the weights the least ones exactly when it offers no smaller weight. -/
theorem juste_iff (h : Exacte s) (a : Appel) : Juste s a ↔ SansBaisse s a := by
  apply Iff.intro
  · intro hjuste e ha z hz hze
    subst ha
    have hz' : z ∈ (step s (.inserer e)).file := by
      rw [step, inserer_eq, if_pos (hze ▸ List.mem_map_of_mem hz)]
      exact hz
    exact (hjuste.moindre z hz').2 ⟨e, List.mem_append_right _ (List.mem_singleton_self e), hze.symm, rfl⟩
  · intro hbaisse
    have hstep := exacte_step h hbaisse
    refine ⟨hstep.unique, fun z hz => hstep.isLeast hz, ?_⟩
    intro _ hne hborne
    obtain ⟨z, reste, hext, hz, hle⟩ := extraireInt_moindre hne hborne
    exact ⟨z, reste, hext, hle, fun hdist hint e he => h.moindre_des_inseres hz hle hdist hint he⟩

/-! ## Sequences of calls -/

theorem exacte_vide : Exacte vide := ⟨List.nodup_nil, by simp [vide], by simp [vide], by simp [vide]⟩

/-- **Sequences of calls**: the weights are the least ones inserted, and the extractions right, along a sequence exactly
when no insertion offers a pair of the queue a smaller weight. -/
theorem fileAPriorite_juste_iff (appels : List Appel) :
    Always step Juste vide appels ↔ Always step SansBaisse vide appels :=
  always_congr (fun _ _ h hjuste => exacte_step h ((juste_iff h _).1 hjuste)) (fun _ a h => juste_iff h a) vide appels
    exacte_vide

/-- **One pair inserted with 5 and then with 3** keeps 5. -/
theorem moindre_poids_perdu :
    ¬ Always step Juste vide [.inserer ⟨(1, 1), (1, 0), 5, 2⟩, .inserer ⟨(1, 1), (1, 0), 3, 2⟩] := by
  intro h
  have hmoindre := h.2.1.moindre ⟨(1, 1), (1, 0), 5, 2⟩ (by decide)
  have h53 := hmoindre.2 ⟨⟨(1, 1), (1, 0), 3, 2⟩, by decide, rfl, rfl⟩
  exact absurd h53 (by decide)

end Semestre6.Sokoban.MiseAJour
