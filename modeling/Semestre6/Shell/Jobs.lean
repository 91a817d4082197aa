/-
The jobs of the shell (shell.c): `main` records the processes of a line in the current job and waits on its flags,
which `handler_child` sets. The processes stop and terminate in any order, a SIGCHLD that is already pending is merged
with the next, and the handler runs between any two steps of main. A store outside `tubes` or `Tab_pid` is undefined.

- `Correct`: the stores are inside, a finished job has only processes that have terminated, and main leaves the wait
  loop of a foreground job when all its commands have ended or one was stopped;
- `Servi`, `Permis`: lines of nine commands at most, and a SIGCHLD is served only when the last child of the line has
  ended;
- `step_correct`, `jobs_permis`: under this condition the property holds at every step of every run;
- `une_commande`: lines of one command in the foreground, which nothing stops, meet it.
Witness that the condition is needed: `premier_fini`, a pipeline left when its first command ends.
-/
import Semestre6.Lib.Transition
import Semestre6.Shell.Readcmd

namespace Semestre6.Shell.Jobs

open Transition
open Semestre6.Ftp (Octets octets)

structure Processus where
  /-- it has been stopped -/
  arrete : Bool
  termine : Bool
  /-- waitpid has still to report it -/
  aRecolter : Bool
deriving DecidableEq, Repr

/-- `struct Jobs`; `tabPid` is what stands before the 0 -/
structure Job where
  tabPid : List ℕ
  background : Bool
  stopped : Bool
  finished : Bool
deriving DecidableEq, Repr

/-- where main is: in readcmd, at the top of its loop for command `i`, at its fork, before the store of its pid, in the
wait loop, or gone -/
inductive Pc where
  | lecture
  | boucle (i : ℕ) (seq : List (List Octets))
  | creation (i : ℕ) (seq : List (List Octets))
  | inscription (i pid : ℕ) (seq : List (List Octets))
  | attente
  | sortie
deriving DecidableEq, Repr

/-- where the handler is: before waitpid, or after it with the value of WIFSTOPPED(status) -/
inductive Handler where
  | entree
  | statut (stopped : Bool)
deriving DecidableEq, Repr

/-- `jobs` is Tab_Jobs, the job of indice_jobs first; the pid of a process is its rank in `processus` -/
structure Etat where
  pc : Pc
  background : Bool
  length : ℕ
  jobs : List Job
  processus : List Processus
  sigchld : Bool
  handler : Option Handler
deriving DecidableEq, Repr

/-- `MAX_CMD`, and the size of `tubes` in `main` -/
def maxCmd : ℕ := 10

def debut : Etat := ⟨.lecture, false, 0, [], [], false, none⟩

inductive Evenement where
  | ligne (l : Cmdline)
  | main
  | arrete (pid : ℕ)
  | termine (pid : ℕ)
  | signal
  /-- waitpid reports a child, or none; `sale` is then what the uninitialised status says -/
  | recolte (pid : Option ℕ) (sale : Bool)
  | marque

/-- what the assignments to `Tab_Jobs[indice_jobs]` do -/
def Etat.modifie (s : Etat) (f : Job → Job) : Etat := { s with jobs := s.jobs.modifyHead f }

/-- a process changes state: SIGCHLD is pending, once -/
def Etat.change (s : Etat) (pid : ℕ) (q : Processus) : Etat :=
  { s with processus := s.processus.set pid q, sigchld := true }

/-- one step of main, outside readcmd -/
def avance (s : Etat) : Option Etat :=
  match s.pc with
  | .boucle _ [] =>
    -- Tab_pid[length] = 0
    if s.length < maxCmd then
      some { s.modifie fun j => { j with tabPid := j.tabPid.take s.length } with pc := .attente }
    else none
  | .boucle i (cmd :: seq) =>
    if cmd.head? = some (octets "exit") then some { s with pc := .sortie }
    else if i = 0 then
      some { s.modifie fun j => { j with background := s.background, stopped := false, finished := false } with
        pc := .creation i seq }
    else some { s with pc := .creation i seq }
  | .creation i seq =>
    some { s with
      processus := s.processus ++ [⟨false, false, false⟩]
      pc := .inscription i s.processus.length seq }
  | .inscription i pid seq =>
    if i < maxCmd then
      some { s.modifie fun j => { j with tabPid := j.tabPid.take i ++ [pid] } with pc := .boucle (i + 1) seq }
    else none
  | .attente =>
    match s.jobs.head? with
    | some j =>
      if !j.finished && !j.stopped && !j.background then some s else some { s with pc := .lecture }
    | none => none
  | .lecture => none
  | .sortie => none

/-- a line from readcmd, with its pipes; a null `seq` is read through, and an empty line before any other writes
Tab_Jobs[-1] -/
def litLigne (s : Etat) (l : Cmdline) : Option Etat :=
  match l.err, l.seq with
  | none, some [] =>
    if s.jobs = [] then none else some { s with background := l.background, length := 0, pc := .boucle 0 [] }
  | none, some (cmd :: seq) =>
    if (cmd :: seq).length ≤ maxCmd then
      some { s with
        background := l.background
        length := (cmd :: seq).length
        jobs := ⟨[], false, false, false⟩ :: s.jobs
        pc := .boucle 0 (cmd :: seq) }
    else none
  | _, _ => none

def step (s : Etat) : Evenement → Option Etat
  | .ligne l => if s.pc = .lecture ∧ s.handler = none then litLigne s l else none
  | .main => if s.handler = none then avance s else none
  | .arrete pid =>
    match s.processus[pid]? with
    | some q => if q.termine || q.arrete then none else some (s.change pid { q with arrete := true, aRecolter := true })
    | none => none
  | .termine pid =>
    match s.processus[pid]? with
    | some q => if q.termine then none else some (s.change pid { q with termine := true, aRecolter := true })
    | none => none
  | .signal =>
    if s.sigchld = true ∧ s.handler = none ∧ s.pc ≠ .sortie then
      some { s with sigchld := false, handler := some .entree }
    else none
  | .recolte (some pid) _ =>
    match s.handler, s.processus[pid]? with
    | some .entree, some q =>
      if q.aRecolter then
        some { s with
          processus := s.processus.set pid { q with aRecolter := false }
          handler := some (.statut (!q.termine)) }
      else none
    | _, _ => none
  | .recolte none sale =>
    match s.handler with
    | some .entree =>
      if s.processus.all fun q => !q.aRecolter then some { s with handler := some (.statut sale) } else none
    | _ => none
  | .marque =>
    match s.handler with
    | some (.statut b) =>
      some { s.modifie fun j => { j with finished := true, stopped := j.stopped || b } with handler := none }
    | _ => none

/-! ## The property -/

/-- process `pid` has terminated -/
def Etat.Fini (s : Etat) (pid : ℕ) : Prop := ∃ q, s.processus[pid]? = some q ∧ q.termine = true

/-- process `pid` has been stopped -/
def Etat.Stoppe (s : Etat) (pid : ℕ) : Prop := ∃ q, s.processus[pid]? = some q ∧ q.arrete = true

/-- a finished job has only terminated processes -/
def Finis (s : Etat) : Prop := ∀ j ∈ s.jobs, j.finished = true → ∀ pid ∈ j.tabPid, s.Fini pid

/-- the end of the wait of a foreground line: one process for each command, and all have ended or one was stopped -/
def Attendu (s : Etat) : Prop := ∀ j ∈ s.jobs.head?, j.background = false →
  j.tabPid.length = s.length ∧ ((∀ pid ∈ j.tabPid, s.Fini pid) ∨ ∃ pid ∈ j.tabPid, s.Stoppe pid)

/-- the step stores inside `tubes` and `Tab_pid` -/
def Dedans (s : Etat) : Evenement → Prop
  | .ligne l => ∀ seq ∈ l.seq, seq.length ≤ maxCmd
  | .main => (∀ i, s.pc = .boucle i [] → s.length < maxCmd) ∧ ∀ i pid seq, s.pc = .inscription i pid seq → i < maxCmd
  | _ => True

/-- what the step does and leads to -/
def Correct (s : Etat) (e : Evenement) : Prop :=
  Dedans s e ∧ ∀ s', step s e = some s' → Finis s' ∧ (s.pc = .attente → s'.pc = .lecture → Attendu s)

/-- the line of main has a command left to launch, in a job whose flags are already reset -/
def Lance : Pc → Prop
  | .boucle i seq => i ≠ 0 ∧ seq ≠ []
  | .creation _ _ => True
  | .inscription _ _ seq => seq ≠ []
  | _ => False

/-- the last child of the line has ended: it has no command left to launch, and the processes launched for it, recorded
or not, have terminated -/
structure Servi (s : Etat) : Prop where
  lance : ¬Lance s.pc
  inscrits : ∀ j ∈ s.jobs.head?, ∀ pid ∈ j.tabPid, s.Fini pid
  dernier : ∀ i pid seq, s.pc = .inscription i pid seq → s.Fini pid

/-- a line of nine commands at most; a SIGCHLD that is served when the last child of the line has ended -/
def Permis (s : Etat) : Evenement → Prop
  | .ligne l => ∀ seq ∈ l.seq, seq.length < maxCmd
  | .signal => s.sigchld = true → s.handler = none → Servi s
  | _ => True

/-- the place of main in its line -/
def Place (s : Etat) : Prop :=
  match s.pc with
  | .boucle i seq => i + seq.length = s.length
  | .creation i seq => i + 1 + seq.length = s.length
  | .inscription i _ seq => i + 1 + seq.length = s.length
  | _ => True

/-- the current job has a process for each command before the one where main is -/
def Rang (s : Etat) : Prop :=
  ∀ j ∈ s.jobs.head?, match s.pc with
    | .boucle i _ => i ≤ j.tabPid.length
    | .creation i _ => i ≤ j.tabPid.length
    | .inscription i _ _ => i ≤ j.tabPid.length
    | .attente => j.tabPid.length = s.length
    | _ => True

/-- the invariant, the property included -/
structure Inv (s : Etat) : Prop where
  finis : Finis s
  /-- the handler sets both flags, and the first command of a line clears both -/
  stoppes : ∀ j ∈ s.jobs, j.stopped = true → j.finished = true
  place : Place s
  rang : Rang s
  longueur : s.length < maxCmd
  /-- in the handler -/
  servi : s.handler ≠ none → Servi s
  /-- a job that is being launched is not marked -/
  lance : Lance s.pc → ∀ j ∈ s.jobs.head?, j.finished = false
  dernier : ∀ i pid seq, s.pc = .inscription i pid seq → ∀ j ∈ s.jobs.head?, j.finished = true → s.Fini pid

variable {s s' : Etat} {e : Evenement} {pid : ℕ}

theorem forall_modifyHead {P : Job → Prop} {f : Job → Job} {l : List Job} (h : ∀ j ∈ l, P j)
    (hf : ∀ j ∈ l.head?, P (f j)) : ∀ j ∈ l.modifyHead f, P j := by
  match l with
  | [] => exact h
  | j :: l =>
    rw [List.modifyHead_cons, List.forall_mem_cons]
    exact ⟨hf j rfl, (List.forall_mem_cons.1 h).2⟩

/-- a job other than the current one is as it was, and the current one has its assignments -/
theorem head?_modifie {f : Job → Job} {j : Job} (h : j ∈ (s.modifie f).jobs.head?) : ∃ j₀ ∈ s.jobs.head?, j = f j₀ := by
  unfold Etat.modifie at h
  match hs : s.jobs with
  | [] => simp [hs] at h
  | j₀ :: l =>
    simp only [hs, List.modifyHead_cons, List.head?_cons, Option.mem_some_iff] at h
    exact ⟨j₀, rfl, h.symm⟩

theorem mem_of_head? {j : Job} (h : j ∈ s.jobs.head?) : j ∈ s.jobs := List.mem_of_head? h

/-! ## The processes -/

/-- a process that has terminated stays so -/
theorem fini_set {q q' : Processus} {pid₀ : ℕ} (hq : s.processus[pid₀]? = some q)
    (hs : s'.processus = s.processus.set pid₀ q') (hqq : q.termine = true → q'.termine = true) (h : s.Fini pid) :
    s'.Fini pid := by
  obtain ⟨r, hr, ht⟩ := h
  unfold Etat.Fini
  rw [hs]
  by_cases hp : pid₀ = pid
  · subst hp
    rw [hq, Option.some.injEq] at hr
    subst hr
    have hlt : pid₀ < s.processus.length := (List.getElem?_eq_some_iff.1 hq).1
    exact ⟨q', List.getElem?_set_self hlt, hqq ht⟩
  · exact ⟨r, by rw [List.getElem?_set_ne hp, hr], ht⟩

theorem fini_append {l : List Processus} (hs : s'.processus = s.processus ++ l) (h : s.Fini pid) : s'.Fini pid := by
  obtain ⟨r, hr, ht⟩ := h
  have hlt : pid < s.processus.length := (List.getElem?_eq_some_iff.1 hr).1
  exact ⟨r, by rw [hs, List.getElem?_append_left hlt, hr], ht⟩

theorem Servi.cadre (h : Servi s) (hjobs : s'.jobs = s.jobs) (hpc : s'.pc = s.pc)
    (hfini : ∀ pid, s.Fini pid → s'.Fini pid) : Servi s' where
  lance := hpc ▸ h.lance
  inscrits := by
    rw [hjobs]
    exact fun j hj pid hpid => hfini pid (h.inscrits j hj pid hpid)
  dernier := by
    rw [hpc]
    exact fun i pid seq hi => hfini pid (h.dernier i pid seq hi)

/-- the steps that change neither the jobs nor the place of main -/
theorem Inv.cadre (h : Inv s) (hjobs : s'.jobs = s.jobs) (hpc : s'.pc = s.pc) (hlength : s'.length = s.length)
    (hfini : ∀ pid, s.Fini pid → s'.Fini pid) (hservi : s'.handler ≠ none → Servi s) : Inv s' where
  finis := by
    intro j hj hf pid hpid
    exact hfini pid (h.finis j (hjobs ▸ hj) hf pid hpid)
  stoppes := by
    rw [hjobs]
    exact h.stoppes
  place := by
    unfold Place
    rw [hpc, hlength]
    exact h.place
  rang := by
    unfold Rang
    rw [hjobs, hpc, hlength]
    exact h.rang
  longueur := hlength ▸ h.longueur
  servi := fun hs => (hservi hs).cadre hjobs hpc hfini
  lance := by
    rw [hjobs, hpc]
    exact h.lance
  dernier := by
    rw [hjobs, hpc]
    exact fun i pid seq hi j hj hf => hfini pid (h.dernier i pid seq hi j hj hf)

/-- what a step of main moves and assigns, outside of the jobs before the current one -/
structure Pas (s s' : Etat) (f : Job → Job) : Prop where
  jobs : s'.jobs = (s.modifie f).jobs
  length : s'.length = s.length
  handler : s'.handler = none
  fini : ∀ pid, s.Fini pid → s'.Fini pid
  finis : ∀ j ∈ s.jobs.head?, (f j).finished = true → ∀ pid ∈ (f j).tabPid, s.Fini pid
  stoppes : ∀ j ∈ s.jobs.head?, (f j).stopped = true → (f j).finished = true
  place : Place s'
  rang : Rang s'
  lance : Lance s'.pc → ∀ j ∈ s.jobs.head?, (f j).finished = false
  dernier : ∀ i pid seq, s'.pc = .inscription i pid seq → ∀ j ∈ s.jobs.head?, (f j).finished = true → s'.Fini pid

theorem head?_of_jobs {f : Job → Job} {j : Job} (hjobs : s'.jobs = (s.modifie f).jobs) (h : j ∈ s'.jobs.head?) :
    ∃ j₀ ∈ s.jobs.head?, j = f j₀ :=
  head?_modifie (hjobs ▸ h)

theorem Inv.pas {f : Job → Job} (h : Inv s) (hp : Pas s s' f) : Inv s' where
  finis := by
    intro j hj
    rw [hp.jobs] at hj
    have hall := forall_modifyHead (P := fun j => j.finished = true → ∀ pid ∈ j.tabPid, s.Fini pid) h.finis hp.finis j hj
    exact fun hf pid hpid => hp.fini pid (hall hf pid hpid)
  stoppes := by
    rw [hp.jobs]
    exact forall_modifyHead h.stoppes hp.stoppes
  place := hp.place
  rang := hp.rang
  longueur := hp.length ▸ h.longueur
  servi := fun hs => absurd hp.handler hs
  lance := by
    intro hl j hj
    obtain ⟨j₀, hj₀, rfl⟩ := head?_of_jobs hp.jobs hj
    exact hp.lance hl j₀ hj₀
  dernier := by
    intro i pid seq hi j hj hf
    obtain ⟨j₀, hj₀, rfl⟩ := head?_of_jobs hp.jobs hj
    exact hp.dernier i pid seq hi j₀ hj₀ hf

/-- no assignment to the current job -/
theorem modifie_id (s : Etat) : (s.modifie fun j => j).jobs = s.jobs := by
  cases h : s.jobs <;> simp [Etat.modifie, h]

/-! ## One step -/

/-- the end of the loop on the commands, and its tests before a fork -/
theorem boucle_correct {i : ℕ} {seq : List (List Octets)} (h : Inv s) (hpc : s.pc = .boucle i seq)
    (hh : s.handler = none) (hs : avance s = some s') : Inv s' := by
  have hplace := h.place
  have hrang := h.rang
  unfold avance at hs
  unfold Place at hplace
  unfold Rang at hrang
  cases seq with
  | nil =>
    simp only [hpc] at hs hplace hrang
    split_ifs at hs
    simp only [Option.some.injEq] at hs
    subst hs
    refine h.pas (f := fun j => { j with tabPid := j.tabPid.take s.length }) ⟨rfl, rfl, hh, fun _ hf => hf, ?_,
      fun j hj => h.stoppes j (mem_of_head? hj), trivial, ?_, False.elim, by simp⟩
    · intro j hj hf pid hpid
      exact h.finis j (mem_of_head? hj) hf pid (List.mem_of_mem_take hpid)
    · intro j hj
      obtain ⟨j₀, hj₀, rfl⟩ := head?_modifie hj
      have hr := hrang j₀ hj₀
      simp only [List.length_nil, Nat.add_zero] at hplace
      simp only [List.length_take, Etat.modifie]
      omega
  | cons cmd seq =>
    simp only [hpc, List.length_cons] at hs hplace hrang
    split_ifs at hs with hexit hi
    · simp only [Option.some.injEq] at hs
      subst hs
      exact h.pas (f := fun j => j) ⟨(modifie_id s).symm, rfl, hh, fun _ hf => hf, fun j hj => h.finis j (mem_of_head? hj),
        fun j hj => h.stoppes j (mem_of_head? hj), trivial, fun _ _ => trivial, False.elim, by simp⟩
    · simp only [Option.some.injEq] at hs
      subst hs
      refine h.pas (f := fun j => { j with background := s.background, stopped := false, finished := false })
        ⟨rfl, rfl, hh, fun _ hf => hf, by simp, by simp, ?_, ?_, fun _ _ _ => rfl, by simp⟩
      · simp only [Place, Etat.modifie]
        omega
      · intro j hj
        obtain ⟨j₀, hj₀, rfl⟩ := head?_modifie hj
        exact hrang j₀ hj₀
    · simp only [Option.some.injEq] at hs
      subst hs
      have hlance : Lance s.pc := by
        rw [hpc]
        exact ⟨hi, List.cons_ne_nil _ _⟩
      refine h.pas (f := fun j => j) ⟨(modifie_id s).symm, rfl, hh, fun _ hf => hf,
        fun j hj => h.finis j (mem_of_head? hj), fun j hj => h.stoppes j (mem_of_head? hj), ?_, hrang,
        fun _ => h.lance hlance, by simp⟩
      simp only [Place]
      omega

/-- the fork -/
theorem creation_correct {i : ℕ} {seq : List (List Octets)} (h : Inv s) (hpc : s.pc = .creation i seq)
    (hh : s.handler = none) (hs : avance s = some s') : Inv s' := by
  have hplace := h.place
  have hrang := h.rang
  have hlance : ∀ j ∈ s.jobs.head?, j.finished = false := h.lance (by rw [hpc]; trivial)
  unfold avance at hs
  unfold Place at hplace
  unfold Rang at hrang
  simp only [hpc, Option.some.injEq] at hs hplace hrang
  subst hs
  refine h.pas (f := fun j => j) ⟨(modifie_id s).symm, rfl, hh, fun _ hf => fini_append rfl hf,
    fun j hj => h.finis j (mem_of_head? hj), fun j hj => h.stoppes j (mem_of_head? hj), hplace, hrang,
    fun _ => hlance, ?_⟩
  intro i' pid seq' _ j hj hf
  rw [hlance j hj] at hf
  cases hf

/-- the store of a pid -/
theorem inscription_correct {i pid : ℕ} {seq : List (List Octets)} (h : Inv s) (hpc : s.pc = .inscription i pid seq)
    (hh : s.handler = none) (hs : avance s = some s') : Inv s' := by
  have hplace := h.place
  have hrang := h.rang
  unfold avance at hs
  unfold Place at hplace
  unfold Rang at hrang
  simp only [hpc] at hs hplace hrang
  split_ifs at hs
  simp only [Option.some.injEq] at hs
  subst hs
  refine h.pas (f := fun j => { j with tabPid := j.tabPid.take i ++ [pid] }) ⟨rfl, rfl, hh, fun _ hf => hf, ?_,
    fun j hj => h.stoppes j (mem_of_head? hj), ?_, ?_, ?_, by simp⟩
  · intro j hj hf p hp
    rcases List.mem_append.1 hp with hp | hp
    · exact h.finis j (mem_of_head? hj) hf p (List.mem_of_mem_take hp)
    · rw [List.mem_singleton.1 hp]
      exact h.dernier i pid seq hpc j hj hf
  · simpa only [Place, Etat.modifie] using hplace
  · intro j hj
    obtain ⟨j₀, hj₀, rfl⟩ := head?_modifie hj
    have hr := hrang j₀ hj₀
    simp only [List.length_append, List.length_take, List.length_singleton]
    omega
  · intro hl j hj
    exact h.lance (by rw [hpc]; exact hl.2) j hj

/-- the wait loop: it is left on a foreground job that is finished, or stopped and so finished -/
theorem attente_correct (h : Inv s) (hpc : s.pc = .attente) (hh : s.handler = none) (hs : avance s = some s') :
    Inv s' ∧ (s'.pc = .lecture → Attendu s) := by
  have hrang := h.rang
  unfold avance at hs
  unfold Rang at hrang
  simp only [hpc] at hs hrang
  cases hj : s.jobs.head? with
  | none => simp [hj] at hs
  | some j =>
    simp only [hj] at hs
    split_ifs at hs with htest
    · simp only [Option.some.injEq] at hs
      subst hs
      exact ⟨h, fun hl => Pc.noConfusion (hpc.symm.trans hl)⟩
    · simp only [Option.some.injEq] at hs
      subst hs
      refine ⟨h.pas (f := fun j => j) ⟨(modifie_id s).symm, rfl, hh, fun _ hf => hf,
        fun j hj => h.finis j (mem_of_head? hj), fun j hj => h.stoppes j (mem_of_head? hj), trivial,
        fun _ _ => trivial, False.elim, by simp⟩, fun _ => ?_⟩
      intro j' hj' hback
      have hjj : j' = j := Option.some.inj (hj'.symm.trans hj)
      subst hjj
      have hfini : j'.finished = true := by
        by_contra hf
        have hstop : j'.stopped = false := by
          by_contra hst
          exact hf (h.stoppes j' (mem_of_head? hj') (by simpa using hst))
        exact htest (by simp [hf, hstop, hback])
      exact ⟨hrang j' hj', .inl (h.finis j' (mem_of_head? hj') hfini)⟩

/-- **The steps of main.** -/
theorem avance_correct (h : Inv s) (hh : s.handler = none) (hs : avance s = some s') :
    Inv s' ∧ (s.pc = .attente → s'.pc = .lecture → Attendu s) := by
  cases hpc : s.pc with
  | boucle i seq => exact ⟨boucle_correct h hpc hh hs, by simp⟩
  | creation i seq => exact ⟨creation_correct h hpc hh hs, by simp⟩
  | inscription i pid seq => exact ⟨inscription_correct h hpc hh hs, by simp⟩
  | attente => exact (attente_correct h hpc hh hs).imp_right fun ha _ => ha
  | lecture => simp [avance, hpc] at hs
  | sortie => simp [avance, hpc] at hs

/-- a line: a new job, or none -/
theorem litLigne_correct {l : Cmdline} (h : Inv s) (hh : s.handler = none) (hl : ∀ seq ∈ l.seq, seq.length < maxCmd)
    (hs : litLigne s l = some s') : Inv s' := by
  unfold litLigne at hs
  split at hs
  · split_ifs at hs
    simp only [Option.some.injEq] at hs
    subst hs
    exact ⟨h.finis, h.stoppes, rfl, fun j _ => Nat.zero_le _, (by decide : 0 < maxCmd), fun hs => absurd hh hs,
      fun hl => absurd rfl hl.1, by simp⟩
  · rename_i cmd seq _ hseq
    split_ifs at hs
    simp only [Option.some.injEq] at hs
    subst hs
    refine ⟨?_, ?_, Nat.zero_add _, ?_, hl _ hseq, fun hs => absurd hh hs, fun hl => absurd rfl hl.1, by simp⟩
    · intro j hj
      rcases List.mem_cons.1 hj with rfl | hj
      · simp
      · exact h.finis j hj
    · intro j hj
      rcases List.mem_cons.1 hj with rfl | hj
      · simp
      · exact h.stoppes j hj
    · exact fun j _ => Nat.zero_le _
  · cases hs

/-- the handler marks the current job -/
theorem marque_correct {b : Bool} (h : Inv s) (hh : s.handler = some (.statut b)) :
    Inv { s.modifie fun j => { j with finished := true, stopped := j.stopped || b } with handler := none } := by
  have hservi := h.servi (by simp [hh])
  refine h.pas (f := fun j => { j with finished := true, stopped := j.stopped || b }) ⟨rfl, rfl, rfl, fun _ hf => hf,
    fun j hj _ => hservi.inscrits j hj, fun _ _ _ => rfl, h.place, ?_, fun hl => absurd hl hservi.lance,
    fun i pid seq hi _ _ _ => hservi.dernier i pid seq hi⟩
  intro j hj
  obtain ⟨j₀, hj₀, rfl⟩ := head?_modifie hj
  exact h.rang j₀ hj₀

/-- **Any step** that meets the condition. -/
theorem step_correct (h : Inv s) (hs : step s e = some s') (hp : Permis s e) :
    Inv s' ∧ (s.pc = .attente → s'.pc = .lecture → Attendu s) := by
  have hreste : s'.pc = s.pc → s.pc = .attente → s'.pc = .lecture → Attendu s := by
    intro hpc ha hl
    rw [hpc, ha] at hl
    cases hl
  match e with
  | .ligne l =>
    rw [step] at hs
    split_ifs at hs with hc
    refine ⟨litLigne_correct h hc.2 hp hs, fun ha => ?_⟩
    rw [hc.1] at ha
    cases ha
  | .main =>
    rw [step] at hs
    split_ifs at hs with hh
    exact avance_correct h hh hs
  | .arrete pid =>
    rw [step] at hs
    split at hs
    · rename_i q hq
      split_ifs at hs
      simp only [Option.some.injEq] at hs
      subst hs
      exact ⟨h.cadre rfl rfl rfl (fun p hf => fini_set hq rfl (fun ht => ht) hf) h.servi, hreste rfl⟩
    · cases hs
  | .termine pid =>
    rw [step] at hs
    split at hs
    · rename_i q hq
      split_ifs at hs
      simp only [Option.some.injEq] at hs
      subst hs
      exact ⟨h.cadre rfl rfl rfl (fun p hf => fini_set hq rfl (fun _ => rfl) hf) h.servi, hreste rfl⟩
    · cases hs
  | .signal =>
    rw [step] at hs
    split_ifs at hs with hc
    simp only [Option.some.injEq] at hs
    subst hs
    exact ⟨h.cadre rfl rfl rfl (fun p hf => hf) fun _ => hp hc.1 hc.2.1, hreste rfl⟩
  | .recolte (some pid) sale =>
    rw [step] at hs
    split at hs
    · rename_i q hh hq
      split_ifs at hs
      simp only [Option.some.injEq] at hs
      subst hs
      exact ⟨h.cadre rfl rfl rfl (fun p hf => fini_set hq rfl (fun ht => ht) hf) fun _ => h.servi (by simp [hh]),
        hreste rfl⟩
    · cases hs
  | .recolte none sale =>
    rw [step] at hs
    split at hs
    · rename_i hh
      split_ifs at hs
      simp only [Option.some.injEq] at hs
      subst hs
      exact ⟨h.cadre rfl rfl rfl (fun p hf => hf) fun _ => h.servi (by simp [hh]), hreste rfl⟩
    · cases hs
  | .marque =>
    rw [step] at hs
    split at hs
    · rename_i b hh
      simp only [Option.some.injEq] at hs
      subst hs
      exact ⟨marque_correct h hh, hreste rfl⟩
    · cases hs

/-- the stores of a line that is short enough -/
theorem dedans_of_inv (h : Inv s) (hp : Permis s e) : Dedans s e := by
  cases e with
  | ligne l => exact fun seq hseq => (hp seq hseq).le
  | main =>
    refine ⟨fun _ _ => h.longueur, ?_⟩
    intro i pid seq hpc
    have hplace := h.place
    have hlong := h.longueur
    rw [Place, hpc] at hplace
    simp only at hplace
    omega
  | arrete pid => trivial
  | termine pid => trivial
  | signal => trivial
  | recolte pid sale => trivial
  | marque => trivial

/-! ## Runs -/

theorem inv_debut : Inv debut where
  finis := by simp [Finis, debut]
  stoppes := by simp [debut]
  place := trivial
  rang := by simp [Rang, debut]
  longueur := by decide
  servi := by simp [debut]
  lance := False.elim
  dernier := by simp [debut]

/-- **The jobs.** Along any run of lines, processes and signals in which every line has nine commands at most and every
SIGCHLD is served when the last child of its line has ended, every step is correct. -/
theorem jobs_permis {l : List Evenement} (h : AlwaysM step Permis debut l) : AlwaysM step Correct debut l := by
  refine alwaysM_imp (fun _ _ _ (hi : Inv _) hp hs => (step_correct hi hs hp).1) ?_ inv_debut h
  intro s e hi hp
  refine ⟨dedans_of_inv hi hp, ?_⟩
  intro s' hs
  obtain ⟨hi', hattendu⟩ := step_correct hi hs hp
  exact ⟨hi'.finis, hattendu⟩

/-! ## Lines of one command -/

/-- a line of one command in the foreground, and no process that is stopped -/
def UneCommande : Evenement → Prop
  | .ligne l => l.err = none ∧ l.background = false ∧ ∃ cmd, l.seq = some [cmd]
  | .arrete _ => False
  | _ => True

/-- terminated, and reported -/
def Eteint (q : Processus) : Prop := q.termine = true ∧ q.aRecolter = false

/-- the process of the line, the pending SIGCHLD, the handler and the flag `finished`: it runs, it has ended, the handler
has begun, it has its report, the job is marked -/
inductive Phase : Processus → Bool → Option Handler → Bool → Prop
  | vivant : Phase ⟨false, false, false⟩ false none false
  | mort : Phase ⟨false, true, true⟩ true none false
  | entre : Phase ⟨false, true, true⟩ false (some .entree) false
  | statut : Phase ⟨false, true, false⟩ false (some (.statut false)) false
  | servi : Phase ⟨false, true, false⟩ false none true

/-- the states of such a run; the other processes are over -/
inductive Seule : Etat → Prop
  | repos {pc : Pc} {b : Bool} {n : ℕ} {jobs : List Job} {P : List Processus} (hpc : pc = .lecture ∨ pc = .sortie)
      (hP : ∀ q ∈ P, Eteint q) : Seule ⟨pc, b, n, jobs, P, false, none⟩
  | boucle {cmd : List Octets} {jobs : List Job} {P : List Processus} (hP : ∀ q ∈ P, Eteint q) :
      Seule ⟨.boucle 0 [cmd], false, 1, ⟨[], false, false, false⟩ :: jobs, P, false, none⟩
  | creation {jobs : List Job} {P : List Processus} (hP : ∀ q ∈ P, Eteint q) :
      Seule ⟨.creation 0 [], false, 1, ⟨[], false, false, false⟩ :: jobs, P, false, none⟩
  | inscription {jobs : List Job} {P : List Processus} {q : Processus} {g f : Bool} {h : Option Handler}
      (hP : ∀ q ∈ P, Eteint q) (hq : Phase q g h f) :
      Seule ⟨.inscription 0 P.length [], false, 1, ⟨[], false, false, f⟩ :: jobs, P ++ [q], g, h⟩
  | lance {pc : Pc} {jobs : List Job} {P : List Processus} {q : Processus} {g f : Bool} {h : Option Handler}
      (hpc : pc = .boucle 1 [] ∨ pc = .attente) (hP : ∀ q ∈ P, Eteint q) (hq : Phase q g h f) :
      Seule ⟨pc, false, 1, ⟨[P.length], false, false, f⟩ :: jobs, P ++ [q], g, h⟩

theorem getElem?_dernier {P : List Processus} {q r : Processus} (h : (P ++ [q])[pid]? = some r) :
    r ∈ P ∨ pid = P.length ∧ r = q := by
  rcases lt_trichotomy pid P.length with hlt | rfl | hgt
  · rw [List.getElem?_append_left hlt] at h
    exact .inl (List.mem_of_getElem? h)
  · rw [List.getElem?_concat_length, Option.some.injEq] at h
    exact .inr ⟨rfl, h.symm⟩
  · rw [List.getElem?_eq_none (by simpa using hgt)] at h
    cases h

/-- the steps of the process of the line and of the handler -/
theorem phase_step {pc : Pc} {pids : List ℕ} {jobs : List Job} {P : List Processus} {q : Processus} {g f : Bool}
    {h : Option Handler} (hP : ∀ q ∈ P, Eteint q) (hq : Phase q g h f) (he : UneCommande e)
    (hligne : ∀ l, e ≠ .ligne l) (hmain : e ≠ .main)
    (hs : step ⟨pc, false, 1, ⟨pids, false, false, f⟩ :: jobs, P ++ [q], g, h⟩ e = some s') :
    ∃ q' g' h' f', Phase q' g' h' f' ∧
      s' = ⟨pc, false, 1, ⟨pids, false, false, f'⟩ :: jobs, P ++ [q'], g', h'⟩ := by
  cases e with
  | ligne l => exact absurd rfl (hligne l)
  | main => exact absurd rfl hmain
  | arrete pid => exact he.elim
  | termine pid =>
    cases hr : (P ++ [q])[pid]? with
    | none => simp [step, hr] at hs
    | some r =>
      simp only [step, hr] at hs
      rcases getElem?_dernier hr with hmem | ⟨rfl, rfl⟩
      · simp [(hP r hmem).1] at hs
      · cases hq with
        | vivant =>
          simp only [Bool.false_eq_true, ↓reduceIte, Option.some.injEq, Etat.change] at hs
          exact ⟨_, _, _, _, .mort, by rw [← hs]; simp⟩
        | mort => simp at hs
        | entre => simp at hs
        | statut => simp at hs
        | servi => simp at hs
  | signal =>
    cases hq with
    | mort =>
      rw [step] at hs
      split_ifs at hs
      exact ⟨_, _, _, _, .entre, (Option.some.inj hs).symm⟩
    | vivant => simp [step] at hs
    | entre => simp [step] at hs
    | statut => simp [step] at hs
    | servi => simp [step] at hs
  | recolte o sale =>
    cases hq with
    | entre =>
      cases o with
      | none => simp [step] at hs
      | some pid =>
        cases hr : (P ++ [⟨false, true, true⟩])[pid]? with
        | none => simp [step, hr] at hs
        | some r =>
          simp only [step, hr] at hs
          rcases getElem?_dernier hr with hmem | ⟨rfl, rfl⟩
          · simp [(hP r hmem).2] at hs
          · simp only [↓reduceIte, Option.some.injEq] at hs
            exact ⟨_, _, _, _, .statut, by rw [← hs]; simp⟩
    | vivant => cases o <;> simp [step] at hs
    | mort => cases o <;> simp [step] at hs
    | statut => cases o <;> simp [step] at hs
    | servi => cases o <;> simp [step] at hs
  | marque =>
    cases hq with
    | statut => exact ⟨_, _, _, _, .servi, by simpa [step, Etat.modifie] using hs.symm⟩
    | vivant => simp [step] at hs
    | mort => simp [step] at hs
    | entre => simp [step] at hs
    | servi => simp [step] at hs

/-- nothing happens to processes that are over -/
theorem eteint_step {s : Etat} (hP : ∀ q ∈ s.processus, Eteint q) (hg : s.sigchld = false) (hh : s.handler = none)
    (he : UneCommande e) (hligne : ∀ l, e ≠ .ligne l) (hmain : e ≠ .main) : step s e = none := by
  cases e with
  | ligne l => exact absurd rfl (hligne l)
  | main => exact absurd rfl hmain
  | arrete pid => exact he.elim
  | termine pid =>
    cases hr : s.processus[pid]? with
    | none => simp [step, hr]
    | some r => simp [step, hr, (hP r (List.mem_of_getElem? hr)).1]
  | signal => simp [step, hg]
  | recolte o sale => cases o <;> simp [step, hh]
  | marque => simp [step, hh]

/-- a line is only read at rest -/
theorem ligne_seule {l : Cmdline} (h : Seule s) (he : UneCommande (.ligne l)) (hs : step s (.ligne l) = some s') :
    Seule s' := by
  obtain ⟨herr, hback, cmd, hseq⟩ := he
  rw [step] at hs
  split_ifs at hs with hc
  cases h with
  | repos hpc hP =>
    simp only [litLigne, herr, hseq, hback, List.length_singleton] at hs
    rw [if_pos (by decide)] at hs
    obtain rfl := Option.some.inj hs
    exact .boucle hP
  | boucle _ => cases hc.1
  | creation _ => cases hc.1
  | inscription _ _ => cases hc.1
  | lance hpc _ _ =>
    rcases hpc with rfl | rfl
    · cases hc.1
    · cases hc.1

theorem main_seule (h : Seule s) (hs : step s .main = some s') : Seule s' := by
  rw [step] at hs
  split_ifs at hs with hh
  cases h with
  | repos hpc hP => rcases hpc with rfl | rfl <;> cases hs
  | boucle hP =>
    simp only [avance] at hs
    split_ifs at hs
    · obtain rfl := Option.some.inj hs
      exact .repos (.inr rfl) hP
    · obtain rfl := Option.some.inj hs
      exact .creation hP
  | creation hP =>
    obtain rfl := Option.some.inj hs
    exact .inscription hP .vivant
  | inscription hP hq =>
    simp only [avance] at hs
    rw [if_pos (by decide)] at hs
    obtain rfl := Option.some.inj hs
    exact .lance (.inl rfl) hP hq
  | @lance pc jobs P q g f h hpc hP hq =>
    rcases hpc with rfl | rfl
    · simp only [avance] at hs
      rw [if_pos (by decide)] at hs
      obtain rfl := Option.some.inj hs
      exact .lance (.inr rfl) hP hq
    · cases f with
      | false =>
        obtain rfl := Option.some.inj hs
        exact .lance (.inr rfl) hP hq
      | true =>
        obtain rfl := Option.some.inj hs
        cases hq with
        | servi =>
          refine .repos (.inl rfl) ?_
          intro r hr
          rcases List.mem_append.1 hr with hr | hr
          · exact hP r hr
          · rw [List.mem_singleton.1 hr]
            exact ⟨rfl, rfl⟩

theorem step_seule (h : Seule s) (he : UneCommande e) (hs : step s e = some s') : Seule s' := by
  by_cases hligne : ∃ l, e = .ligne l
  · obtain ⟨l, rfl⟩ := hligne
    exact ligne_seule h he hs
  · have hligne : ∀ l, e ≠ .ligne l := fun l hl => hligne ⟨l, hl⟩
    by_cases hmain : e = .main
    · subst hmain
      exact main_seule h hs
    · cases h with
      | repos _ hP => rw [eteint_step hP rfl rfl he hligne hmain] at hs; cases hs
      | boucle hP => rw [eteint_step hP rfl rfl he hligne hmain] at hs; cases hs
      | creation hP => rw [eteint_step hP rfl rfl he hligne hmain] at hs; cases hs
      | inscription hP hq =>
        obtain ⟨_, _, _, _, hq', rfl⟩ := phase_step hP hq he hligne hmain hs
        exact .inscription hP hq'
      | lance hpc hP hq =>
        obtain ⟨_, _, _, _, hq', rfl⟩ := phase_step hP hq he hligne hmain hs
        exact .lance hpc hP hq'

/-- when a SIGCHLD is pending, the process of the line has ended -/
theorem permis_seule (h : Seule s) (he : UneCommande e) : Permis s e := by
  cases e with
  | ligne l =>
    obtain ⟨-, -, cmd, hseq⟩ := he
    intro seq hs
    rw [hseq, Option.mem_some_iff] at hs
    rw [← hs]
    exact (by decide : 1 < maxCmd)
  | signal =>
    intro hg hh
    cases h with
    | repos _ _ => cases hg
    | boucle _ => cases hg
    | creation _ => cases hg
    | @inscription jobs P q g f h hP hq =>
      cases hq with
      | mort =>
        refine ⟨fun hl => hl rfl, by simp, ?_⟩
        intro i pid seq hpc
        obtain ⟨-, rfl, -⟩ := Pc.inscription.inj hpc
        exact ⟨_, List.getElem?_concat_length, rfl⟩
      | vivant => cases hg
      | entre => cases hg
      | statut => cases hg
      | servi => cases hg
    | @lance pc jobs P q g f h hpc hP hq =>
      cases hq with
      | mort =>
        refine ⟨?_, ?_, ?_⟩
        · rcases hpc with rfl | rfl
          · exact fun hl => hl.2 rfl
          · exact fun hl => hl
        · intro j hj pid hpid
          obtain rfl := Option.some.inj hj
          rw [List.mem_singleton.1 hpid]
          exact ⟨_, List.getElem?_concat_length, rfl⟩
        · rintro i pid seq rfl
          rcases hpc with hpc | hpc <;> cases hpc
      | vivant => cases hg
      | entre => cases hg
      | statut => cases hg
      | servi => cases hg
  | main => trivial
  | arrete pid => trivial
  | termine pid => trivial
  | recolte o sale => trivial
  | marque => trivial

/-- **One command a line**: whatever the order of the steps, each SIGCHLD is that of the process waited for. -/
theorem une_commande {l : List Evenement} (h : ∀ e ∈ l, UneCommande e) : AlwaysM step Permis debut l := by
  have hgen : ∀ (l : List Evenement) (s : Etat), Seule s → (∀ e ∈ l, UneCommande e) → AlwaysM step Permis s l := by
    intro l
    induction l with
    | nil => exact fun _ _ _ => trivial
    | cons e l ih =>
      intro s hs hl
      obtain ⟨he, hl⟩ := List.forall_mem_cons.1 hl
      exact ⟨permis_seule hs he, fun s' hst => ih s' (step_seule hs he hst) hl⟩
  exact hgen l debut (.repos (.inl rfl) (by simp)) h

def ligneDe (seq : List (List Octets)) : Cmdline := ⟨none, none, none, some seq, false⟩

/-- one command in the foreground, which ends while main waits -/
theorem jobs_permis_ls : AlwaysM step Correct debut
    [.ligne (ligneDe [[octets "ls"]]), .main, .main, .main, .main, .termine 0, .signal, .recolte (some 0) false, .marque,
      .main] :=
  jobs_permis (une_commande (by simp [UneCommande, ligneDe]))

/-- two commands in the foreground; the first ends while main waits -/
def premierFini : List Evenement :=
  [.ligne (ligneDe [[octets "ls"], [octets "cat"]]), .main, .main, .main, .main, .main, .main, .main, .termine 0,
    .signal, .recolte (some 0) false, .marque]

/-- **The first command ends** and the job is marked finished, with the second command alive: main leaves the wait. -/
theorem premier_fini : ¬ ∀ l : List Evenement, AlwaysM step Correct debut l := by
  intro h
  obtain ⟨t, ht, hvif⟩ : ∃ t, runM step debut premierFini = some t ∧
      ∃ j ∈ t.jobs, j.finished = true ∧ 1 ∈ j.tabPid ∧ (t.processus[1]?.map Processus.termine) = some false := by
    decide
  obtain ⟨j, hj, hf, hpid, hvif⟩ := hvif
  have hfinis : Finis t :=
    runM_inv_of_always (fun s _ s' _ hc hs => (hc.2 s' hs).1) inv_debut.finis (h premierFini) ht
  obtain ⟨q, hq, hq'⟩ := hfinis j hj hf 1 hpid
  simp [hq, hq'] at hvif

end Semestre6.Shell.Jobs
