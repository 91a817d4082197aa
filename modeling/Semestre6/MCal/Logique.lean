/-
Pre- and postconditions for the instructions of the machines.

`Prouve Γ P i Q` is a proof system: one rule for each kind of instruction, an assertion for each state of a machine
(whose log must open), and a context Γ of what is assumed of the machines that are called by name. `Clos Γ`: the context
assumes of a name only what is proved of its machine under the same assumptions, so machines that call one another are
covered.

- `valide_of_prouve`: what is proved holds, whatever the bound;
- `prouve_iff`: and what holds is proved, in some closed context.
-/
import Semestre6.MCal.Execution

namespace Semestre6.Turing

open Borne

variable {Color Alphabet Pattern State : Type}

/-- the induction on instructions, through the machines that they run -/
theorem Instruction.induction {motive : Instruction Pattern State → Prop} (action : ∀ a, motive (.action a))
    (call : ∀ name, motive (.call name)) (run : ∀ tm, (∀ t ∈ tm.transitions, motive t.2.1) → motive (.run tm))
    (seq : ∀ l, (∀ i ∈ l, motive i) → motive (.seq l)) (parallel : ∀ l, (∀ i ∈ l, motive i) → motive (.parallel l))
    (i : Instruction Pattern State) : motive i :=
  @Instruction.rec Pattern State motive (fun tm => ∀ t ∈ tm.transitions, motive t.2.1) (fun l => ∀ i ∈ l, motive i)
    (fun l => ∀ t ∈ l, motive t.2.1) (fun t => motive t.2.1) (fun p => motive p.1)
    action call run seq parallel (fun _ _ _ _ h => h)
    (by simp) (fun _ _ hi hl => List.forall_mem_cons.2 ⟨hi, hl⟩)
    (by simp) (fun _ _ ht hl => List.forall_mem_cons.2 ⟨ht, hl⟩)
    (fun _ _ h => h) (fun _ _ h => h) i

namespace Execution

abbrev Assertion (Color Alphabet : Type) := List (Band Color Alphabet) → Prop

variable [DecidableEq State] {filtre : Pattern → Symbol → Bool} {ouvre : String → Except Exn Unit}
  {find : String → Except Exn (TuringMachine Pattern State)}
variable {P Q : Assertion Color Alphabet} {i : Instruction Pattern State} {is : List (Instruction Pattern State)}
variable {tm : TuringMachine Pattern State} {q : State} {b c : List (Band Color Alphabet)} {k l : ℕ}

/-- from a list of bands of `P`, `i` throws nothing and answers in `Q`, if it answers -/
def Valide (filtre : Pattern → Symbol → Bool) (ouvre : String → Except Exn Unit)
    (find : String → Except Exn (TuringMachine Pattern State))
    (P : Assertion Color Alphabet) (i : Instruction Pattern State) (Q : Assertion Color Alphabet) : Prop :=
  ∀ k b, P b → Bon Q (perform filtre ouvre find k i b)

/-- what is assumed of the names -/
abbrev Contexte (Color Alphabet : Type) := String → Assertion Color Alphabet → Assertion Color Alphabet → Prop

inductive Prouve (filtre : Pattern → Symbol → Bool) (ouvre : String → Except Exn Unit) (Γ : Contexte Color Alphabet) :
    Assertion Color Alphabet → Instruction Pattern State → Assertion Color Alphabet → Prop
  | action {P Q : Assertion Color Alphabet} {a : Action Pattern}
    (h : ∀ b, P b → ∃ b', Action.perform a b = .ok b' ∧ Q b') : Prouve filtre ouvre Γ P (.action a) Q
  | call {P Q : Assertion Color Alphabet} {name : String} (h : Γ name P Q) : Prouve filtre ouvre Γ P (.call name) Q
  | run {P Q : Assertion Color Alphabet} {tm : TuringMachine Pattern State} (I : State → Assertion Color Alphabet)
    (hlog : ∀ b, P b → ouvre (Configuration.name tm b) = .ok ())
    (hinit : ∀ b, P b → I tm.initial b) (haff : ∀ q b, I q b → b.all Band.affichable = true)
    (hchoix : ∀ q b, I q b → ∃ o, choix filtre tm q b = .ok o)
    (hfin : ∀ q b, I q b → choix filtre tm q b = .ok none → Q b)
    (hpas : ∀ t ∈ tm.transitions, ∀ q,
      Prouve filtre ouvre Γ (fun b => I q b ∧ choix filtre tm q b = .ok (some t)) t.2.1 (I t.2.2)) :
    Prouve filtre ouvre Γ P (.run tm) Q
  | seqNil {P Q : Assertion Color Alphabet} (h : ∀ b, P b → Q b) : Prouve filtre ouvre Γ P (.seq []) Q
  | seqCons {P Q R : Assertion Color Alphabet} {i : Instruction Pattern State} {is : List (Instruction Pattern State)}
    (hi : Prouve filtre ouvre Γ P i R) (his : Prouve filtre ouvre Γ R (.seq is) Q) :
    Prouve filtre ouvre Γ P (.seq (i :: is)) Q
  | parallel {P Q : Assertion Color Alphabet} {is : List (Instruction Pattern State)}
    -- what becomes of one band, under its instruction
    (R : Instruction Pattern State × Band Color Alphabet → Band Color Alphabet → Prop)
    (hzip : ∀ b, P b → ∃ paires, Instruction.zip is b = .ok paires)
    -- a band is only treated when those before it are
    (hun : ∀ b avant p apres ds, P b → Instruction.zip is b = .ok (avant ++ p :: apres) → List.Forall₂ R avant ds →
      Prouve filtre ouvre Γ (fun l => l = [p.2]) p.1 fun l => ∃ d l', l = d :: l' ∧ R p d)
    (hfin : ∀ b paires ds, P b → Instruction.zip is b = .ok paires → List.Forall₂ R paires ds → Q ds) :
    Prouve filtre ouvre Γ P (.parallel is) Q

/-- the context assumes of a name what is proved of its machine -/
def Clos (filtre : Pattern → Symbol → Bool) (ouvre : String → Except Exn Unit)
    (find : String → Except Exn (TuringMachine Pattern State))
    (Γ : Contexte Color Alphabet) : Prop :=
  ∀ name P Q, Γ name P Q → ∀ b, P b → ∃ tm, find name = .ok tm ∧ Prouve filtre ouvre Γ P (.run tm) Q

/-! ## What is proved holds -/

variable {Γ : Contexte Color Alphabet}

theorem valide_of_prouve (hΓ : Clos filtre ouvre find Γ) (h : Prouve filtre ouvre Γ P i Q) :
    Valide filtre ouvre find P i Q := by
  intro k
  induction k generalizing P i Q with
  | zero => exact fun b _ => bon_interrompu
  | succ k ih =>
    have hrun : ∀ {tm : TuringMachine Pattern State} {P Q}, Prouve filtre ouvre Γ P (.run tm) Q → ∀ b, P b →
        Bon Q (liftM (Configuration.make ouvre tm b) >>= fun cfg =>
          run filtre (perform filtre ouvre find k) k cfg >>= fun c => pure c.bands) := by
      intro tm P Q h b hb
      cases h with
      | run I hlog hinit haff hchoix hfin hpas =>
        rw [Configuration.make_ok (hlog b hb), liftM_ok, pure_bind]
        simp only [bon_bind, bon_pure]
        refine bon_run (I := I) ?_ k (hinit b hb)
        intro q c hc
        obtain ⟨o, ho⟩ := hchoix q c hc
        refine ⟨haff q c hc, o, ho, ?_⟩
        cases o with
        | none => exact hfin q c hc ho
        | some t => exact ih (hpas t (mem_of_select ho) q) c ⟨hc, ho⟩
    intro b hb
    cases h with
    | action h => exact bon_liftM.2 (h b hb)
    | call h =>
      obtain ⟨tm, hf, htm⟩ := hΓ _ _ _ h b hb
      rw [perform, hf]
      exact hrun htm b hb
    | run I hlog hinit haff hchoix hfin hpas => exact hrun (.run I hlog hinit haff hchoix hfin hpas) b hb
    | seqNil h => exact bon_pure.2 (h b hb)
    | seqCons hi his =>
      rw [perform, bon_bind]
      exact (ih hi b hb).mono fun c hc => ih his c hc
    | parallel R hzip hun hfin =>
      obtain ⟨paires, hz⟩ := hzip b hb
      rw [perform, performParallel, bon_bind, bon_liftM]
      refine ⟨paires, hz, Bon.mono (bon_mapM ?_) fun ds hds => hfin b paires ds hb hz hds⟩
      intro avant p apres ds hp hds
      rw [performOnOneBand, bon_bind]
      refine (ih (hun b avant p apres ds hb (hp ▸ hz) hds) [p.2] rfl).mono ?_
      rintro _ ⟨d, l', rfl, hd⟩
      exact bon_pure.2 hd

/-! ## What holds is proved -/

/-- what a run of `tm` from `b` goes through -/
inductive Atteint (filtre : Pattern → Symbol → Bool) (ouvre : String → Except Exn Unit)
    (find : String → Except Exn (TuringMachine Pattern State))
    (tm : TuringMachine Pattern State) (b : List (Band Color Alphabet)) : State → List (Band Color Alphabet) → Prop
  | debut : Atteint filtre ouvre find tm b tm.initial b
  | pas {q : State} {c d : List (Band Color Alphabet)} {t : Transition Pattern State} {k : ℕ}
    (h : Atteint filtre ouvre find tm b q c) (ht : choix filtre tm q c = .ok (some t))
    (hk : (perform filtre ouvre find k t.2.1 c).run = some (.ok d)) : Atteint filtre ouvre find tm b t.2.2 d

section Tours

variable {p : Instruction Pattern State → List (Band Color Alphabet) → Calcul Exn (List (Band Color Alphabet))}
variable {Q' : Configuration Color Alphabet Pattern State → Prop}

/-- one turn of a run that does not throw -/
theorem bon_run_succ (h : Bon Q' (run filtre p (k + 1) ⟨tm, b, q, .running⟩)) :
    b.all Band.affichable = true ∧ ∃ o, choix filtre tm q b = .ok o ∧
      match o with
      | none => Bon Q' (run filtre p k ⟨tm, b, q, .final⟩)
      | some t => Bon (fun c => Bon Q' (run filtre p k ⟨tm, c, t.2.2, .running⟩)) (p t.2.1 b) := by
  rw [run_eq_boucle, boucle] at h
  by_cases haff : b.all Band.affichable = true
  · refine ⟨haff, ?_⟩
    rw [tour_running haff rfl] at h
    cases ho : choix filtre tm q b with
    | error e =>
      rw [oneStep_error ho] at h
      exact absurd h bon_throw
    | ok o =>
      refine ⟨o, rfl, ?_⟩
      cases o with
      | none =>
        rw [oneStep_none ho] at h
        simpa [run_eq_boucle] using h
      | some t =>
        rw [oneStep_some ho] at h
        simpa [run_eq_boucle] using h
  · rw [tour_muette haff] at h
    exact absurd h bon_throw

theorem bon_run_final (h : Bon Q' (run filtre p (k + 1) ⟨tm, b, q, .final⟩)) : Q' ⟨tm, b, q, .final⟩ := by
  rw [run_eq_boucle, boucle] at h
  by_cases haff : b.all Band.affichable = true
  · rw [tour_final haff rfl] at h
    simpa using h
  · rw [tour_muette haff] at h
    exact absurd h bon_throw

end Tours

/-- a run that does not throw opens its log -/
theorem bon_perform_run (h : Bon Q (perform filtre ouvre find (k + 1) (.run tm) b)) :
    ouvre (Configuration.name tm b) = .ok () ∧
      Bon (fun cfg => Q cfg.bands) (run filtre (perform filtre ouvre find k) k ⟨tm, b, tm.initial, .running⟩) := by
  rw [perform, bon_bind, bon_liftM] at h
  obtain ⟨cfg, hcfg, h⟩ := h
  cases ho : ouvre (Configuration.name tm b) with
  | error e =>
    rw [Configuration.make_error ho] at hcfg
    cases hcfg
  | ok _ =>
    rw [Configuration.make_ok ho] at hcfg
    obtain rfl := Except.ok.inj hcfg
    simp only [bon_bind, bon_pure] at h
    exact ⟨rfl, h⟩

/-- a run that holds still holds from what it goes through -/
theorem Atteint.bon (h : Atteint filtre ouvre find tm b q c)
    (hb : ∀ k, Bon Q (perform filtre ouvre find k (.run tm) b)) (k : ℕ) :
    Bon (fun cfg => Q cfg.bands) (run filtre (perform filtre ouvre find k) k ⟨tm, c, q, .running⟩) := by
  induction h generalizing k with
  | debut => exact (bon_perform_run (hb (k + 1))).2
  | @pas q c d t k₀ _ ht hk₀ ih =>
    obtain ⟨-, o, ho, hsuite⟩ := bon_run_succ (Bon.of_prolonge (ih (max k k₀ + 1)) (run_prolonge
      (fun i b => perform_prolonge (Nat.le_succ (max k k₀)) i b) le_rfl _))
    obtain rfl : some t = o := Except.ok.inj (ht.symm.trans ho)
    obtain ⟨d', hd, hbon⟩ := hsuite _ (perform_prolonge (le_max_right k k₀) _ _ _ hk₀)
    obtain rfl := Except.ok.inj hd
    exact hbon.of_prolonge (run_prolonge (fun i b => perform_prolonge (le_max_left k k₀) i b) (le_max_left k k₀) _)

theorem prouve_run (hΓ : ∀ t ∈ tm.transitions, ∀ P Q, Valide filtre ouvre find P t.2.1 Q → Prouve filtre ouvre Γ P t.2.1 Q)
    (h : Valide filtre ouvre find P (.run tm) Q) : Prouve filtre ouvre Γ P (.run tm) Q := by
  have hbon : ∀ {q b c}, P b → Atteint filtre ouvre find tm b q c → ∀ k,
      Bon (fun cfg => Q cfg.bands) (run filtre (perform filtre ouvre find k) k ⟨tm, c, q, .running⟩) :=
    fun hb hc k => hc.bon (fun k => h k _ hb) k
  refine .run (fun q c => ∃ b, P b ∧ Atteint filtre ouvre find tm b q c) (fun b hb => (bon_perform_run (h 1 b hb)).1)
    (fun b hb => ⟨b, hb, .debut⟩) ?_ ?_ ?_ ?_
  · rintro q c ⟨b, hb, hc⟩
    exact (bon_run_succ (hbon hb hc 1)).1
  · rintro q c ⟨b, hb, hc⟩
    obtain ⟨-, o, ho, -⟩ := bon_run_succ (hbon hb hc 1)
    exact ⟨o, ho⟩
  · rintro q c ⟨b, hb, hc⟩ hnone
    obtain ⟨-, o, ho, hsuite⟩ := bon_run_succ (hbon hb hc 2)
    obtain rfl : none = o := Except.ok.inj (hnone.symm.trans ho)
    exact bon_run_final hsuite
  · intro t ht q
    apply hΓ t ht
    rintro k c ⟨⟨b, hb, hc⟩, hsome⟩
    obtain ⟨-, o, ho, hsuite⟩ := bon_run_succ (Bon.of_prolonge (hbon hb hc (k + 1)) (run_prolonge
      (fun i b => perform_prolonge (Nat.le_succ k) i b) le_rfl _))
    obtain rfl : some t = o := Except.ok.inj (hsome.symm.trans ho)
    exact (Bon.avec hsuite).mono fun d hd => ⟨b, hb, .pas hc hsome hd.1⟩

theorem prouve_seq (hΓ : ∀ i ∈ is, ∀ P Q, Valide filtre ouvre find P i Q → Prouve filtre ouvre Γ P i Q)
    (h : Valide filtre ouvre find P (.seq is) Q) : Prouve filtre ouvre Γ P (.seq is) Q := by
  induction is generalizing P with
  | nil => exact .seqNil fun b hb => bon_pure.1 (h 1 b hb)
  | cons i is ih =>
    obtain ⟨hi, his⟩ := List.forall_mem_cons.1 hΓ
    have hbind : ∀ k b, P b →
        Bon (fun c => Bon Q (perform filtre ouvre find k (.seq is) c)) (perform filtre ouvre find k i b) := by
      intro k b hb
      have hk := h (k + 1) b hb
      rwa [perform, bon_bind] at hk
    refine .seqCons (R := fun c => ∃ b k, P b ∧ (perform filtre ouvre find k i b).run = some (.ok c)) (hi _ _ ?_)
      (ih his ?_)
    · intro k b hb
      exact (hbind k b hb).avec.mono fun c hc => ⟨b, k, hb, hc.1⟩
    · rintro k c ⟨b, k₀, hb, hc⟩
      obtain ⟨c', hc', hbon⟩ := hbind (max k k₀) b hb _ (perform_prolonge (le_max_right k k₀) i b _ hc)
      obtain rfl := Except.ok.inj hc'
      exact hbon.of_prolonge (perform_prolonge (le_max_left k k₀) _ _)

/-- what an instruction can make of one band -/
def Devient (filtre : Pattern → Symbol → Bool) (ouvre : String → Except Exn Unit)
    (find : String → Except Exn (TuringMachine Pattern State))
    (p : Instruction Pattern State × Band Color Alphabet) (d : Band Color Alphabet) : Prop :=
  ∃ k l, (perform filtre ouvre find k p.1 [p.2]).run = some (.ok (d :: l))

omit [DecidableEq State] in
theorem performOnOneBand_run {i : Instruction Pattern State} {c d : Band Color Alphabet}
    {p : Instruction Pattern State → List (Band Color Alphabet) → Calcul Exn (List (Band Color Alphabet))}
    {l : List (Band Color Alphabet)} (h : (p i [c]).run = some (.ok (d :: l))) :
    performOnOneBand p i c = pure d := by
  have hp : p i [c] = pure (d :: l) := h
  rw [performOnOneBand, hp]
  rfl

omit [DecidableEq State] in
theorem mem_of_zip {paires : List (Instruction Pattern State × Band Color Alphabet)}
    (h : Instruction.zip is b = .ok paires) : ∀ p ∈ paires, p.1 = .nop ∨ p.1 ∈ is := by
  intro p hp
  obtain ⟨hlen, hget⟩ := zipCompleteWith_ok h
  obtain ⟨k, hk, rfl⟩ := List.getElem_of_mem hp
  have hkp := hget k _ (List.getElem?_eq_getElem (hlen ▸ hk))
  rw [List.getElem?_eq_getElem hk, Option.some.injEq] at hkp
  rw [hkp]
  by_cases his : k < is.length
  · exact .inr (by simp [List.getD, List.getElem?_eq_getElem his])
  · exact .inl (by simp [List.getD, List.getElem?_eq_none (Nat.le_of_not_lt his)])

/-- a bound for several bands -/
theorem exists_mapM_devient {avant : List (Instruction Pattern State × Band Color Alphabet)}
    {ds : List (Band Color Alphabet)} (h : List.Forall₂ (Devient filtre ouvre find) avant ds) :
    ∃ k₀, ∀ k, k₀ ≤ k → (avant.mapM fun p => performOnOneBand (perform filtre ouvre find k) p.1 p.2) = pure ds := by
  induction h with
  | nil => exact ⟨0, fun k _ => rfl⟩
  | @cons p d avant ds hp _ ih =>
    obtain ⟨k₁, l, hk₁⟩ := hp
    obtain ⟨k₀, hk₀⟩ := ih
    refine ⟨max k₁ k₀, ?_⟩
    intro k hk
    have hd := performOnOneBand_run (perform_prolonge (le_of_max_le_left hk) _ _ _ hk₁)
    rw [List.mapM_cons, hd, hk₀ k (le_of_max_le_right hk)]
    rfl

theorem prouve_parallel
    (hnop : ∀ P Q : Assertion Color Alphabet, Valide filtre ouvre find P (.nop : Instruction Pattern State) Q →
      Prouve filtre ouvre Γ P (.nop : Instruction Pattern State) Q)
    (hΓ : ∀ i ∈ is, ∀ P Q, Valide filtre ouvre find P i Q → Prouve filtre ouvre Γ P i Q)
    (h : Valide filtre ouvre find P (.parallel is) Q) : Prouve filtre ouvre Γ P (.parallel is) Q := by
  have hbind : ∀ k b, P b → ∃ paires, Instruction.zip is b = .ok paires ∧
      Bon Q (paires.mapM fun p => performOnOneBand (perform filtre ouvre find k) p.1 p.2) := by
    intro k b hb
    have hk := h (k + 1) b hb
    rwa [perform, performParallel, bon_bind, bon_liftM] at hk
  refine .parallel (Devient filtre ouvre find) ?_ ?_ ?_
  · intro b hb
    obtain ⟨paires, hz, -⟩ := hbind 0 b hb
    exact ⟨paires, hz⟩
  · intro b avant p apres ds hb hz hds
    have hvalide : Valide filtre ouvre find (fun l => l = [p.2]) p.1
        fun l => ∃ d l', l = d :: l' ∧ Devient filtre ouvre find p d := by
      rintro k _ rfl
      obtain ⟨k₀, hk₀⟩ := exists_mapM_devient hds
      obtain ⟨paires, hz', hbon⟩ := hbind (max k k₀) b hb
      obtain rfl := Except.ok.inj (hz.symm.trans hz')
      rw [List.mapM_append, hk₀ _ (le_max_right k k₀), pure_bind, List.mapM_cons] at hbon
      simp only [bon_bind, performOnOneBand] at hbon
      have hk := Bon.of_prolonge hbon (perform_prolonge (le_max_left k k₀) _ _)
      refine hk.avec.mono ?_
      rintro l ⟨hl, hbon⟩
      cases l with
      | nil => exact absurd hbon bon_throw
      | cons d l' => exact ⟨d, l', rfl, k, l', hl⟩
    rcases mem_of_zip hz p (by simp) with hp | hp
    · rw [hp] at hvalide ⊢
      exact hnop _ _ hvalide
    · exact hΓ _ hp _ _ hvalide
  · intro b paires ds hb hz hds
    obtain ⟨k₀, hk₀⟩ := exists_mapM_devient hds
    obtain ⟨paires', hz', hbon⟩ := hbind k₀ b hb
    obtain rfl := Except.ok.inj (hz.symm.trans hz')
    rw [hk₀ _ le_rfl] at hbon
    exact bon_pure.1 hbon

/-- **The proof system is right and misses nothing**: a triple is proved in some closed context exactly when it
holds. -/
theorem prouve_iff : (∃ Γ, Clos filtre ouvre find Γ ∧ Prouve filtre ouvre Γ P i Q) ↔ Valide filtre ouvre find P i Q := by
  apply Iff.intro
  · intro h
    obtain ⟨Γ, hΓ, hp⟩ := h
    exact valide_of_prouve hΓ hp
  · -- what holds of the names is assumed of them
    have hcomplet : ∀ (i : Instruction Pattern State) (P Q : Assertion Color Alphabet), Valide filtre ouvre find P i Q →
        Prouve filtre ouvre (fun name P Q => Valide filtre ouvre find P (.call name) Q) P i Q := by
      intro i
      induction i using Instruction.induction with
      | action a => exact fun P Q h => .action fun b hb => bon_liftM.1 (h 1 b hb)
      | call name => exact fun P Q h => .call h
      | run tm ih => exact fun P Q h => prouve_run ih h
      | seq is ih => exact fun P Q h => prouve_seq ih h
      | parallel is ih => exact fun P Q h => prouve_parallel (fun P Q h => prouve_seq (by simp) h) ih h
    intro h
    refine ⟨_, ?_, hcomplet i P Q h⟩
    intro name P Q h b hb
    have hone := h 1 b hb
    rw [perform, bon_bind, bon_liftM] at hone
    obtain ⟨tm, hf, -⟩ := hone
    refine ⟨tm, hf, hcomplet _ _ _ ?_⟩
    intro k c hc
    cases k with
    | zero => exact bon_interrompu
    | succ k =>
      have hk := h (k + 1) c hc
      rwa [perform, hf] at hk

end Execution

end Semestre6.Turing
