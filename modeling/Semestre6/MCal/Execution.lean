/-
Transition.ml, Configuration.ml and Execution.ml: the machines, whose instructions can run other machines, and their
interpreter. A machine can run for ever and machines can call one another: `perform k` gives the result if the bound k
on the calls lets it.

`Turing_Machine.i_find_TM_named` (the machine of a name) and `Pattern.matches` are not among the sources: they are the
parameters `find` and `filtre`. `ouvre` is what `open_out` does with the log of a configuration: the file of that name
can be opened, or it throws. It depends on the name only, not on the date nor on how many logs are open.

- `perform_prolonge`: a larger bound changes no result;
- `perform_accord`: two lists of bands that are performed alike by the actions stay so through every instruction;
- `perform_bandes`: an instruction keeps the number of bands, their colors and their alphabets;
- `performOnOneBand_accord`: so `List.hd` never fails.
-/
import Semestre6.MCal.Band
import Semestre6.Lib.Borne

namespace Semestre6.Turing

open Borne

/-! ## Machines -/

mutual

inductive Instruction (Pattern State : Type) where
  | action (action : Action Pattern)
  /-- the name of an existing machine -/
  | call (tmName : String)
  | run (tm : TuringMachine Pattern State)
  | seq (instructions : List (Instruction Pattern State))
  | parallel (instructions : List (Instruction Pattern State))

structure TuringMachine (Pattern State : Type) where
  name : String
  nbBands : ℤ
  initial : State
  transitions : List (State × Instruction Pattern State × State)

end

/-- source, instruction, target -/
abbrev Transition (Pattern State : Type) := State × Instruction Pattern State × State

variable {Color Alphabet Pattern State : Type}

namespace Instruction

def nop : Instruction Pattern State := .seq []

def zip (instructions : List (Instruction Pattern State)) (bands : List (Band Color Alphabet)) :
    Except Exn (List (Instruction Pattern State × Band Color Alphabet)) :=
  Band.zipCompleteWith nop instructions bands

end Instruction

/-! ## What the log prints -/

mutual

/-- `to_ascii` has no case for `S` -/
def Symbol.affichable : Symbol → Bool
  | .S => false
  | .Vector symbols => Symbol.affichables symbols
  | .Column symbols => Symbol.affichables symbols
  | _ => true

def Symbol.affichables : List Symbol → Bool
  | [] => true
  | s :: symbols => s.affichable && Symbol.affichables symbols

end

def Band.affichable (b : Band Color Alphabet) : Bool :=
  b.left.all Symbol.affichable && b.head.affichable && b.right.all Symbol.affichable

/-! ## Enabled actions -/

namespace Action

variable (filtre : Pattern → Symbol → Bool)

def isEnabledOnOneBand : Action Pattern → Band Color Alphabet → Except Exn Bool
  | .nop, _ => .ok true
  | .rwm (.Match pattern) _ _, band => .ok (filtre pattern band.head)
  | .simultaneous [action], band => isEnabledOnOneBand action band
  | .simultaneous _, _ => .error .matchFailure

def areEnabledOnBands (actions : List (Action Pattern)) (bands : List (Band Color Alphabet)) : Except Exn Bool := do
  let paires ← zip actions bands
  paires.allM fun p => isEnabledOnOneBand filtre p.1 p.2

def isEnabledOnBands (action : Action Pattern) (bands : List (Band Color Alphabet)) : Except Exn Bool :=
  match bands with
  | [] => .ok false
  | band :: _ =>
    match action with
    | .nop => .ok true
    | .rwm .. => isEnabledOnOneBand filtre action band
    | .simultaneous actions => areEnabledOnBands filtre actions bands

end Action

/-! ## Configurations -/

inductive Status where
  | running | final
deriving DecidableEq

structure Configuration (Color Alphabet Pattern State : Type) where
  tm : TuringMachine Pattern State
  bands : List (Band Color Alphabet)
  state : State
  status : Status

namespace Configuration

/-- the name of the log, less the date and the extension of the format -/
def name (tm : TuringMachine Pattern State) (bands : List (Band Color Alphabet)) : String :=
  tm.name ++ toString bands.length ++ "B"

/-- opens the log first -/
def make (ouvre : String → Except Exn Unit) (tm : TuringMachine Pattern State) (bands : List (Band Color Alphabet)) :
    Except Exn (Configuration Color Alphabet Pattern State) := do
  ouvre (name tm bands)
  return ⟨tm, bands, tm.initial, .running⟩

variable {ouvre : String → Except Exn Unit} {tm : TuringMachine Pattern State} {bands : List (Band Color Alphabet)}

theorem make_ok (h : ouvre (name tm bands) = .ok ()) : make ouvre tm bands = .ok ⟨tm, bands, tm.initial, .running⟩ := by
  rw [make, h]
  rfl

theorem make_error {e : Exn} (h : ouvre (name tm bands) = .error e) : make ouvre tm bands = .error e := by
  rw [make, h]
  rfl

/-- printed before each step: all of it is made to a string -/
def toHtml (cfg : Configuration Color Alphabet Pattern State) : Except Exn Unit :=
  if cfg.bands.all Band.affichable then .ok () else .error .matchFailure

variable [DecidableEq State] (filtre : Pattern → Symbol → Bool)

def isTransitionEnabledOn (cfg : Configuration Color Alphabet Pattern State) (t : Transition Pattern State) :
    Except Exn Bool :=
  if cfg.state = t.1 then
    match t.2.1 with
    | .action action => action.isEnabledOnBands filtre cfg.bands
    | _ => .ok true
  else .ok false

end Configuration

/-! ## Execution -/

namespace Execution

/-- `List.filter`, with a test that can throw -/
def filter {α ε : Type} (test : α → Except ε Bool) : List α → Except ε (List α)
  | [] => .ok []
  | x :: l => do
    let garde ← test x
    let suite ← filter test l
    return if garde then x :: suite else suite

variable [DecidableEq State] (filtre : Pattern → Symbol → Bool)

def selectEnabledTransition (tm : TuringMachine Pattern State) (cfg : Configuration Color Alphabet Pattern State) :
    Except Exn (Option (Transition Pattern State)) := do
  match ← filter (cfg.isTransitionEnabledOn filtre) tm.transitions with
  | [] => return none
  | [transition] => return some transition
  | _ => throw (.failure "Execution.select_transitions: non deterministic TM")

section Ouverte

/-! What follows calls `perform`, an argument here. -/

variable (perform : Instruction Pattern State → List (Band Color Alphabet) → Calcul Exn (List (Band Color Alphabet)))

def performOnOneBand (instruction : Instruction Pattern State) (band : Band Color Alphabet) :
    Calcul Exn (Band Color Alphabet) := do
  match ← perform instruction [band] with
  | b :: _ => pure b
  | [] => throw (.failure "hd")

def execute (t : Transition Pattern State) (cfg : Configuration Color Alphabet Pattern State) :
    Calcul Exn (Configuration Color Alphabet Pattern State) := do
  let bands ← perform t.2.1 cfg.bands
  pure { cfg with bands := bands, state := t.2.2 }

def oneStep (cfg : Configuration Color Alphabet Pattern State) :
    Calcul Exn (Configuration Color Alphabet Pattern State) := do
  match ← selectEnabledTransition filtre cfg.tm cfg with
  | none => pure { cfg with status := .final }
  | some transition => execute perform transition cfg

def run : ℕ → Configuration Color Alphabet Pattern State → Calcul Exn (Configuration Color Alphabet Pattern State)
  | 0, _ => interrompu
  | k + 1, cfg => do
    let _ ← cfg.toHtml
    if cfg.status = .final then pure cfg
    else do
      let suivante ← oneStep filtre perform cfg
      run k suivante

def performParallel (instructions : List (Instruction Pattern State)) (bands : List (Band Color Alphabet)) :
    Calcul Exn (List (Band Color Alphabet)) := do
  let paires ← Instruction.zip instructions bands
  paires.mapM fun p => performOnOneBand perform p.1 p.2

end Ouverte

variable (ouvre : String → Except Exn Unit) (find : String → Except Exn (TuringMachine Pattern State))

def perform : ℕ → Instruction Pattern State → List (Band Color Alphabet) → Calcul Exn (List (Band Color Alphabet))
  | 0, _, _ => interrompu
  | k + 1, instruction, bands =>
    match instruction with
    | .action action => Action.perform action bands
    | .run tm => do
      let cfg ← Configuration.make ouvre tm bands
      let finalCfg ← run filtre (perform k) k cfg
      pure finalCfg.bands
    | .call tmName => do
      let tm ← find tmName
      let cfg ← Configuration.make ouvre tm bands
      let finalCfg ← run filtre (perform k) k cfg
      pure finalCfg.bands
    | .seq [] => pure bands
    | .seq (inst :: instructions) => do
      let bands ← perform k inst bands
      perform k (.seq instructions) bands
    | .parallel instructions => performParallel (perform k) instructions bands

/-! ## The loop of `run` -/

variable {filtre ouvre find}
variable {p p' : Instruction Pattern State → List (Band Color Alphabet) → Calcul Exn (List (Band Color Alphabet))}
variable {tm : TuringMachine Pattern State} {q : State} {b b' : List (Band Color Alphabet)} {k l : ℕ}
variable {cfg : Configuration Color Alphabet Pattern State} {t : Transition Pattern State}

/-- what is done between two calls of `run` -/
def tour (filtre : Pattern → Symbol → Bool)
    (p : Instruction Pattern State → List (Band Color Alphabet) → Calcul Exn (List (Band Color Alphabet)))
    (cfg : Configuration Color Alphabet Pattern State) :
    Calcul Exn (Configuration Color Alphabet Pattern State ⊕ Configuration Color Alphabet Pattern State) := do
  let _ ← cfg.toHtml
  if cfg.status = .final then pure (.inl cfg)
  else do
    let suivante ← oneStep filtre p cfg
    pure (.inr suivante)

theorem run_eq_boucle (k : ℕ) (cfg : Configuration Color Alphabet Pattern State) :
    run filtre p k cfg = boucle (tour filtre p) k cfg := by
  induction k generalizing cfg with
  | zero => rfl
  | succ k ih =>
    rw [run, boucle, tour, bind_assoc]
    congr 1
    funext u
    split_ifs
    · rfl
    · rw [bind_assoc]
      exact congrArg _ (funext fun c => ih c)

theorem tour_final (h : cfg.bands.all Band.affichable = true) (hs : cfg.status = .final) :
    tour filtre p cfg = pure (.inl cfg) := by
  simp [tour, Configuration.toHtml, h, hs]

theorem tour_running (h : cfg.bands.all Band.affichable = true) (hs : cfg.status = .running) :
    tour filtre p cfg = oneStep filtre p cfg >>= fun suivante => pure (.inr suivante) := by
  simp [tour, Configuration.toHtml, h, hs]

theorem tour_muette (h : ¬cfg.bands.all Band.affichable = true) : tour filtre p cfg = throw .matchFailure := by
  simp [tour, Configuration.toHtml, h]

theorem mem_of_filter {α ε : Type} {test : α → Except ε Bool} {l l' : List α} {x : α} (h : filter test l = .ok l')
    (hx : x ∈ l') : x ∈ l := by
  induction l generalizing l' with
  | nil =>
    obtain rfl := Except.ok.inj h
    exact hx
  | cons y l ih =>
    obtain ⟨garde, -, h⟩ := Boucle.ok_of_bind h
    obtain ⟨suite, hs, h⟩ := Boucle.ok_of_bind h
    obtain rfl := Except.ok.inj h
    cases garde with
    | false => exact List.mem_cons_of_mem _ (ih hs hx)
    | true =>
      rcases List.mem_cons.1 hx with rfl | hx
      · exact List.mem_cons_self
      · exact List.mem_cons_of_mem _ (ih hs hx)

theorem mem_of_select (h : selectEnabledTransition filtre tm cfg = .ok (some t)) : t ∈ tm.transitions := by
  obtain ⟨l, hl, h⟩ := Boucle.ok_of_bind h
  match l with
  | [] => cases Except.ok.inj h
  | [u] =>
    obtain rfl := Option.some.inj (Except.ok.inj h)
    exact mem_of_filter hl (List.mem_singleton_self u)
  | _ :: _ :: _ => cases h

/-- the transition of a machine in state `q` -/
def choix (filtre : Pattern → Symbol → Bool) (tm : TuringMachine Pattern State) (q : State)
    (b : List (Band Color Alphabet)) : Except Exn (Option (Transition Pattern State)) :=
  selectEnabledTransition filtre tm ⟨tm, b, q, .running⟩

theorem oneStep_none (h : choix filtre tm q b = .ok none) :
    oneStep filtre p ⟨tm, b, q, .running⟩ = pure ⟨tm, b, q, .final⟩ := by
  rw [choix] at h
  rw [oneStep, h]
  rfl

theorem oneStep_some (h : choix filtre tm q b = .ok (some t)) :
    oneStep filtre p ⟨tm, b, q, .running⟩ = p t.2.1 b >>= fun b' => pure ⟨tm, b', t.2.2, .running⟩ := by
  rw [choix] at h
  rw [oneStep, h]
  rfl

theorem oneStep_error {e : Exn} (h : choix filtre tm q b = .error e) :
    oneStep filtre p ⟨tm, b, q, .running⟩ = throw e := by
  rw [choix] at h
  rw [oneStep, h]
  rfl

/-- a turn in state `q` does not throw, and leads to `I` or stops in `Q` -/
def PasSur (filtre : Pattern → Symbol → Bool)
    (p : Instruction Pattern State → List (Band Color Alphabet) → Calcul Exn (List (Band Color Alphabet)))
    (tm : TuringMachine Pattern State) (I : State → List (Band Color Alphabet) → Prop)
    (Q : List (Band Color Alphabet) → Prop) (q : State) (b : List (Band Color Alphabet)) : Prop :=
  b.all Band.affichable = true ∧ ∃ o, choix filtre tm q b = .ok o ∧
    match o with
    | none => Q b
    | some t => Bon (I t.2.2) (p t.2.1 b)

/-- the configurations met between two turns -/
inductive Atteinte (tm : TuringMachine Pattern State) (I : State → List (Band Color Alphabet) → Prop)
    (Q : List (Band Color Alphabet) → Prop) : Configuration Color Alphabet Pattern State → Prop
  | running {q : State} {b : List (Band Color Alphabet)} (h : I q b) : Atteinte tm I Q ⟨tm, b, q, .running⟩
  | final {q : State} {b : List (Band Color Alphabet)} (h : Q b) (haff : b.all Band.affichable = true) :
    Atteinte tm I Q ⟨tm, b, q, .final⟩

/-- the rule of a machine: an assertion for each state, kept by the transitions -/
theorem bon_run {I : State → List (Band Color Alphabet) → Prop} {Q : List (Band Color Alphabet) → Prop}
    (hI : ∀ q b, I q b → PasSur filtre p tm I Q q b) (k : ℕ) (h : I q b) :
    Bon (fun c => Q c.bands) (run filtre p k ⟨tm, b, q, .running⟩) := by
  rw [run_eq_boucle]
  have hatteinte : Atteinte tm I Q ⟨tm, b, q, .running⟩ := .running h
  refine bon_boucle ?_ k hatteinte
  rintro _ (⟨hq⟩ | ⟨hq, haff⟩)
  · obtain ⟨haff, o, ho, hsuite⟩ := hI _ _ hq
    rw [tour_running haff rfl]
    match o with
    | none =>
      rw [oneStep_none ho]
      simpa using Atteinte.final hsuite haff
    | some t =>
      rw [oneStep_some ho]
      simp only [bon_bind, bon_pure, Sum.elim_inr]
      exact hsuite.mono fun b' hb => .running hb
  · rw [tour_final haff rfl]
    exact bon_pure.2 hq

theorem run_prolonge (h : ∀ i b, Prolonge (p i b) (p' i b)) (hkl : k ≤ l)
    (cfg : Configuration Color Alphabet Pattern State) :
    Prolonge (run filtre p k cfg) (run filtre p' l cfg) := by
  rw [run_eq_boucle, run_eq_boucle]
  refine Prolonge.boucle ?_ hkl cfg
  intro c
  refine (Prolonge.refl _).bind ?_
  intro u
  split_ifs
  · exact .refl _
  · refine Prolonge.bind ?_ fun c' => .refl _
    refine (Prolonge.refl _).bind ?_
    rintro (_ | t)
    · exact .refl _
    · exact (h _ _).bind fun b' => .refl _

omit [DecidableEq State] in
theorem performOnOneBand_prolonge (h : ∀ i b, Prolonge (p i b) (p' i b)) (i : Instruction Pattern State)
    (b : Band Color Alphabet) : Prolonge (performOnOneBand p i b) (performOnOneBand p' i b) :=
  (h i [b]).bind fun _ => .refl _

/-- a larger bound changes no result -/
theorem perform_prolonge (hkl : k ≤ l) (i : Instruction Pattern State) (b : List (Band Color Alphabet)) :
    Prolonge (perform filtre ouvre find k i b) (perform filtre ouvre find l i b) := by
  induction k generalizing l i b with
  | zero => exact .interrompu _
  | succ k ih =>
    obtain ⟨l, rfl⟩ := Nat.exists_eq_succ_of_ne_zero (by omega : l ≠ 0)
    have hle : k ≤ l := by omega
    match i with
    | .action a => exact .refl _
    | .run tm => exact (Prolonge.refl _).bind fun cfg => (run_prolonge (ih hle) hle cfg).bind fun c => .refl _
    | .call name =>
      refine (Prolonge.refl _).bind fun tm => (Prolonge.refl _).bind ?_
      intro cfg
      exact (run_prolonge (ih hle) hle cfg).bind fun c => .refl _
    | .seq [] => exact .refl _
    | .seq (i :: is) => exact (ih hle i b).bind fun b' => ih hle _ b'
    | .parallel is =>
      refine (Prolonge.refl _).bind ?_
      intro paires
      exact Prolonge.mapM paires fun c => performOnOneBand_prolonge (ih hle) _ _

/-! ## Two lists of bands side by side -/

theorem filter_congr {α ε : Type} {test test' : α → Except ε Bool} {l : List α} (h : ∀ x ∈ l, test x = test' x) :
    filter test l = filter test' l := by
  induction l with
  | nil => rfl
  | cons x l ih =>
    obtain ⟨hx, hl⟩ := List.forall_mem_cons.1 h
    rw [filter, filter, hx, ih hl]

theorem choix_congr (h : ∀ t ∈ tm.transitions, ∀ a, t.2.1 = .action a →
    a.isEnabledOnBands filtre b = a.isEnabledOnBands filtre b') : choix filtre tm q b = choix filtre tm q b' := by
  have hfilter : filter (Configuration.isTransitionEnabledOn filtre ⟨tm, b, q, .running⟩) tm.transitions =
      filter (Configuration.isTransitionEnabledOn filtre ⟨tm, b', q, .running⟩) tm.transitions := by
    apply filter_congr
    intro t ht
    unfold Configuration.isTransitionEnabledOn
    split_ifs
    · split
      · exact h t ht _ ‹_›
      · rfl
    · rfl
  rw [choix, choix, selectEnabledTransition, selectEnabledTransition, hfilter]

variable {R : List (Band Color Alphabet) → List (Band Color Alphabet) → Prop}

inductive Pareilles (R : List (Band Color Alphabet) → List (Band Color Alphabet) → Prop)
    (tm : TuringMachine Pattern State) :
    Configuration Color Alphabet Pattern State → Configuration Color Alphabet Pattern State → Prop
  | mk (q : State) (s : Status) {b b' : List (Band Color Alphabet)} (h : R b b') :
    Pareilles R tm ⟨tm, b, q, s⟩ ⟨tm, b', q, s⟩

theorem run_accord (haff : ∀ b b', R b b' → b.all Band.affichable = b'.all Band.affichable)
    (hchoix : ∀ q b b', R b b' → choix filtre tm q b = choix filtre tm q b')
    (hp : ∀ t ∈ tm.transitions, ∀ b b', R b b' → Accord R (p t.2.1 b) (p t.2.1 b')) (k : ℕ) (h : R b b') :
    Accord (fun c c' => R c.bands c'.bands) (run filtre p k ⟨tm, b, q, .running⟩)
      (run filtre p k ⟨tm, b', q, .running⟩) := by
  rw [run_eq_boucle, run_eq_boucle]
  refine Accord.boucle (T := Pareilles R tm) ?_ k (.mk q .running h)
  rintro _ _ ⟨q, s, hr⟩
  rename_i c c'
  by_cases hc : c.all Band.affichable = true
  · have hc' : c'.all Band.affichable = true := haff _ _ hr ▸ hc
    cases s with
    | final =>
      rw [tour_final hc rfl, tour_final hc' rfl]
      exact .pure (.inl hr)
    | running =>
      rw [tour_running hc rfl, tour_running hc' rfl]
      refine Accord.bind (R := Pareilles R tm) ?_ fun d d' hd => .pure (.inr hd)
      have hcc := hchoix q _ _ hr
      cases ho : choix filtre tm q c with
      | error e =>
        rw [oneStep_error ho, oneStep_error (hcc ▸ ho)]
        exact .throw e
      | ok o =>
        match o with
        | none =>
          rw [oneStep_none ho, oneStep_none (hcc ▸ ho)]
          exact .pure (.mk q .final hr)
        | some t =>
          rw [oneStep_some ho, oneStep_some (hcc ▸ ho)]
          exact (hp t (mem_of_select ho) _ _ hr).bind fun d d' hd => .pure (.mk _ _ hd)
  · rw [tour_muette hc, tour_muette (haff _ _ hr ▸ hc)]
    exact .throw _

/-- a family of instructions that holds what its instructions run -/
structure Close (find : String → Except Exn (TuringMachine Pattern State)) (T : Instruction Pattern State → Prop) :
    Prop where
  run : ∀ {tm}, T (.run tm) → ∀ t ∈ tm.transitions, T t.2.1
  call : ∀ {name tm}, T (.call name) → find name = .ok tm → T (.run tm)
  seq : ∀ {i is}, T (.seq (i :: is)) → T i ∧ T (.seq is)

/-- what the actions, the parallel instructions and the logs do not tell apart, no instruction does -/
theorem perform_accord {T : Instruction Pattern State → Prop} (hT : Close find T)
    (hlog : ∀ tm b b', T (.run tm) → R b b' → ouvre (Configuration.name tm b) = ouvre (Configuration.name tm b'))
    (haff : ∀ b b', R b b' → b.all Band.affichable = b'.all Band.affichable)
    (hen : ∀ a b b', T (.action a) → R b b' → a.isEnabledOnBands filtre b = a.isEnabledOnBands filtre b')
    (haction : ∀ (a : Action Pattern) b b', T (.action a) → R b b' →
      Accord R (liftM (a.perform b) : Calcul Exn _) (liftM (a.perform b')))
    (hparallel : ∀ k is b b', T (.parallel is) → R b b' →
      (∀ i b b', T i → R b b' → Accord R (perform filtre ouvre find k i b) (perform filtre ouvre find k i b')) →
      Accord R (performParallel (perform filtre ouvre find k) is b) (performParallel (perform filtre ouvre find k) is b'))
    (k : ℕ) {i : Instruction Pattern State} (hi : T i) (h : R b b') :
    Accord R (perform filtre ouvre find k i b) (perform filtre ouvre find k i b') := by
  induction k generalizing i b b' with
  | zero => exact .interrompu
  | succ k ih =>
    have hrun : ∀ tm, T (.run tm) → Accord R
        (liftM (Configuration.make ouvre tm b) >>= fun cfg =>
          run filtre (perform filtre ouvre find k) k cfg >>= fun c => pure c.bands)
        (liftM (Configuration.make ouvre tm b') >>= fun cfg =>
          run filtre (perform filtre ouvre find k) k cfg >>= fun c => pure c.bands) := by
      intro tm htm
      have hnoms := hlog tm b b' htm h
      cases ho : ouvre (Configuration.name tm b) with
      | error e =>
        rw [Configuration.make_error ho, Configuration.make_error (hnoms ▸ ho)]
        exact .throw e
      | ok _ =>
        rw [Configuration.make_ok ho, Configuration.make_ok (hnoms ▸ ho), liftM_ok, liftM_ok, pure_bind, pure_bind]
        refine Accord.bind (run_accord haff ?_ ?_ k h) fun c c' hc => .pure hc
        · intro q c c' hr
          refine choix_congr ?_
          intro t ht a ha
          exact hen a c c' (ha ▸ hT.run htm t ht) hr
        · intro t ht c c' hr
          exact ih (hT.run htm t ht) hr
    match i with
    | .action a => exact haction a _ _ hi h
    | .run tm => exact hrun tm hi
    | .call name =>
      rw [perform, perform]
      cases hf : find name with
      | error e => exact .throw e
      | ok tm => exact hrun tm (hT.call hi hf)
    | .seq [] => exact .pure h
    | .seq (i :: is) =>
      obtain ⟨hi, his⟩ := hT.seq hi
      exact (ih hi h).bind fun c c' hc => ih his hc
    | .parallel is => exact hparallel k is _ _ hi h fun i b b' hi h => ih hi h

/-! ## The bands that an instruction gives back -/

/-- as many bands, with the same colors and alphabets -/
def MemesBandes (b b' : List (Band Color Alphabet)) : Prop :=
  List.Forall₂ (fun c c' => c'.color = c.color ∧ c'.alphabet = c.alphabet) b b'

omit [DecidableEq State] in
theorem MemesBandes.refl (b : List (Band Color Alphabet)) : MemesBandes b b :=
  List.forall₂_same.2 fun _ _ => ⟨rfl, rfl⟩

theorem MemesBandes.trans {b₁ b₂ b₃ : List (Band Color Alphabet)} (h : MemesBandes b₁ b₂) (h' : MemesBandes b₂ b₃) :
    MemesBandes b₁ b₃ := by
  induction h generalizing b₃ with
  | nil => exact h'
  | cons hc _ ih =>
    cases h' with
    | cons hc' hl => exact .cons ⟨hc'.1.trans hc.1, hc'.2.trans hc.2⟩ (ih hl)

theorem memesBandes_of_suite {ops : ℕ → List (RubanInfini.Operation Symbol)} (h : SuiteBandes ops b b') :
    MemesBandes b b' := by
  refine List.forall₂_iff_get.2 ⟨h.1.symm, ?_⟩
  intro k hk hk'
  obtain ⟨c, hc, hs⟩ := h.2 k _ (List.getElem?_eq_getElem hk)
  rw [List.getElem?_eq_getElem hk', Option.some.injEq] at hc
  rw [List.get_eq_getElem, List.get_eq_getElem, hc]
  exact ⟨hs.color, hs.alphabet⟩

theorem rend_liftM {α : Type} {x : Except Exn α} {Q : α → Prop} (h : ∀ a, x = .ok a → Q a) :
    Rend Q (liftM x : Calcul Exn α) := by
  intro a ha
  exact h a (Option.some.inj ha)

omit [DecidableEq State] in
theorem zip_bandes {is : List (Instruction Pattern State)}
    {paires : List (Instruction Pattern State × Band Color Alphabet)}
    (h : Instruction.zip is b = .ok paires) : paires.map Prod.snd = b := by
  obtain ⟨hlen, hget⟩ := zipCompleteWith_ok h
  apply List.ext_getElem?
  intro k
  by_cases hk : k < b.length
  · rw [List.getElem?_map, hget k _ (List.getElem?_eq_getElem hk), List.getElem?_eq_getElem hk]
    rfl
  · rw [List.getElem?_eq_none (by simpa [hlen] using hk), List.getElem?_eq_none (by omega)]

/-- what every instruction keeps, a run keeps -/
theorem rend_run {J : List (Band Color Alphabet) → Prop} (hp : ∀ i b, J b → Rend J (p i b)) (k : ℕ)
    (h : J cfg.bands) : Rend (fun c => J c.bands) (run filtre p k cfg) := by
  rw [run_eq_boucle]
  have htour : ∀ c : Configuration Color Alphabet Pattern State, J c.bands →
      Rend (Sum.elim (fun c => J c.bands) fun c => J c.bands) (tour filtre p c) := by
    intro c hc
    rw [tour, rend_bind]
    refine rend_liftM fun _ _ => ?_
    split_ifs
    · exact rend_pure.2 hc
    · simp only [oneStep, rend_bind, rend_pure, Sum.elim_inr]
      refine rend_liftM ?_
      intro o _
      cases o with
      | none => exact rend_pure.2 hc
      | some t =>
        simp only [execute, rend_bind, rend_pure]
        exact hp _ _ hc
  exact rend_boucle htour k h

theorem rend_perform (k : ℕ) (i : Instruction Pattern State) (b : List (Band Color Alphabet)) :
    Rend (MemesBandes b) (perform filtre ouvre find k i b) := by
  induction k generalizing i b with
  | zero => simp [perform]
  | succ k ih =>
    have hrun : ∀ tm, Rend (MemesBandes b)
        (liftM (Configuration.make ouvre tm b) >>= fun cfg =>
          run filtre (perform filtre ouvre find k) k cfg >>= fun c => pure c.bands) := by
      intro tm
      cases ho : ouvre (Configuration.name tm b) with
      | error e =>
        rw [Configuration.make_error ho]
        exact rend_throw
      | ok _ =>
        rw [Configuration.make_ok ho, liftM_ok, pure_bind]
        simp only [rend_bind, rend_pure]
        exact rend_run (fun i c hc => (ih i c).mono fun d hd => hc.trans hd) k (.refl b)
    cases i with
    | action a => exact rend_liftM fun b' hb => memesBandes_of_suite (perform_simule hb)
    | run tm => exact hrun tm
    | call name =>
      rw [perform, rend_bind]
      exact rend_liftM fun tm _ => hrun tm
    | seq is =>
      cases is with
      | nil => exact rend_pure.2 (.refl b)
      | cons i is =>
        rw [perform, rend_bind]
        exact (ih i b).mono fun c hc => (ih _ c).mono fun d hd => hc.trans hd
    | parallel is =>
      rw [perform, performParallel, rend_bind]
      refine rend_liftM ?_
      intro paires hz
      have hune : ∀ c ∈ paires, Rend (fun d : Band Color Alphabet => d.color = c.2.color ∧ d.alphabet = c.2.alphabet)
          (performOnOneBand (perform filtre ouvre find k) c.1 c.2) := by
        intro c _
        rw [performOnOneBand, rend_bind]
        refine (ih c.1 [c.2]).mono ?_
        intro d hd
        cases hd with
        | cons hd _ => exact rend_pure.2 hd
      refine (rend_mapM hune).mono ?_
      intro b' hb
      rw [← zip_bandes hz, MemesBandes, List.forall₂_map_left_iff]
      exact hb

/-- **The bands stay**: an instruction that answers gives back as many bands, with their colors and alphabets. -/
theorem perform_bandes (k : ℕ) (i : Instruction Pattern State) (b : List (Band Color Alphabet)) :
    Rend (MemesBandes b) (perform filtre ouvre find k i b) :=
  rend_perform k i b

/-- one band gives one band: `List.hd` never fails, and what is thrown is what `perform` throws -/
theorem performOnOneBand_accord (k : ℕ) (i : Instruction Pattern State) (c : Band Color Alphabet) :
    Accord (fun l d => l = [d]) (perform filtre ouvre find k i [c])
      (performOnOneBand (perform filtre ouvre find k) i c) := by
  have hrend : Rend (MemesBandes [c]) (perform filtre ouvre find k i [c]) := rend_perform k i [c]
  rw [performOnOneBand]
  rcases calcul_cases (perform filtre ouvre find k i [c]) with h | ⟨e, h⟩ | ⟨l, h⟩
  · rw [h]
    exact .interrompu
  · rw [h]
    exact .throw e
  · rw [h, rend_pure] at hrend
    obtain ⟨d, rfl⟩ := List.length_eq_one_iff.1 hrend.length_eq.symm
    rw [h]
    exact .pure rfl

end Execution

end Semestre6.Turing
