/-
What the instructions of the machines do not see.

- `perform_cadre`: bands after the ones that an instruction names change nothing to what it does, and are not changed,
  where the logs of the machines open or not whatever the number of bands;
- `Valide.cadre`: the same for pre- and postconditions;
- `perform_rubans`: an instruction does the same on two lists of bands that stand for the same tapes, however many
  blanks each band stores.
-/
import Semestre6.MCal.Logique

namespace Semestre6.Turing

open Borne

variable {Color Alphabet Pattern State : Type}

/-! ## More bands than an instruction names -/

/-- the number of bands that an action names -/
def Action.largeur : Action Pattern → ℕ
  | .nop => 0
  | .rwm .. => 1
  | .simultaneous actions => actions.length

/-- an instruction that names the first `w` bands at most; `W` bounds those of the machines called by name -/
inductive Tient (W : String → ℕ) (w : ℕ) : Instruction Pattern State → Prop
  | action {a : Action Pattern} (h : a.largeur ≤ w) : Tient W w (.action a)
  | call {name : String} (h : W name ≤ w) : Tient W w (.call name)
  | run {tm : TuringMachine Pattern State} (h : ∀ t ∈ tm.transitions, Tient W w t.2.1) : Tient W w (.run tm)
  | seq {is : List (Instruction Pattern State)} (h : ∀ i ∈ is, Tient W w i) : Tient W w (.seq is)
  | parallel {is : List (Instruction Pattern State)} (h : is.length ≤ w) : Tient W w (.parallel is)

theorem Tient.mono {W : String → ℕ} {w w' : ℕ} {i : Instruction Pattern State} (h : Tient W w i) (hw : w ≤ w') :
    Tient W w' i := by
  induction h with
  | action h => exact .action (h.trans hw)
  | call h => exact .call (h.trans hw)
  | run _ ih => exact .run ih
  | seq _ ih => exact .seq ih
  | parallel h => exact .parallel (h.trans hw)

theorem Tient.largeur_le {W : String → ℕ} {w : ℕ} {a : Action Pattern}
    (h : Tient W w (.action a : Instruction Pattern State)) : a.largeur ≤ w := by
  cases h with
  | action h => exact h

theorem Tient.length_le {W : String → ℕ} {w : ℕ} {is : List (Instruction Pattern State)}
    (h : Tient W w (.parallel is)) : is.length ≤ w := by
  cases h with
  | parallel h => exact h

variable {b b' extra : List (Band Color Alphabet)}

theorem zipCompleteWith_append (extra : List (Band Color Alphabet)) {op : Type} (nop : op) {ops : List op}
    (h : ops.length ≤ b.length) :
    ∃ paires, Band.zipCompleteWith nop ops b = .ok paires ∧
      Band.zipCompleteWith nop ops (b ++ extra) = .ok (paires ++ extra.map (nop, ·)) := by
  have hnil : ∀ l : List (Band Color Alphabet), Band.zipCompleteWith nop [] l = .ok (l.map (nop, ·)) := by
    intro l
    induction l with
    | nil => rfl
    | cons c l ih => rw [Band.zipCompleteWith, ih]; rfl
  induction b generalizing ops with
  | nil =>
    obtain rfl := List.length_eq_zero_iff.1 (Nat.le_zero.1 h)
    exact ⟨[], rfl, hnil extra⟩
  | cons c b ih =>
    match ops with
    | [] => exact ⟨_, hnil _, by rw [hnil, List.map_append]⟩
    | o :: ops =>
      obtain ⟨paires, h₁, h₂⟩ := ih (Nat.le_of_succ_le_succ h)
      refine ⟨(o, c) :: paires, ?_, ?_⟩
      · rw [Band.zipCompleteWith, h₁]
        rfl
      · rw [List.cons_append, Band.zipCompleteWith, h₂]
        rfl

theorem allM_append_nop (filtre : Pattern → Symbol → Bool) (paires : List (Action Pattern × Band Color Alphabet)) :
    ((paires ++ extra.map (Action.nop, ·)).allM
        fun p : Action Pattern × Band Color Alphabet => Action.isEnabledOnOneBand filtre p.1 p.2) =
      paires.allM fun p => Action.isEnabledOnOneBand filtre p.1 p.2 := by
  have hnop : ((extra.map (Action.nop, ·)).allM
      fun p : Action Pattern × Band Color Alphabet => Action.isEnabledOnOneBand filtre p.1 p.2) = .ok true := by
    induction extra with
    | nil => rfl
    | cons c extra ih => rw [List.map_cons, List.allM_cons, Action.isEnabledOnOneBand]; exact ih
  induction paires with
  | nil => exact hnop
  | cons p paires ih => rw [List.cons_append, List.allM_cons, List.allM_cons, ih]

theorem Action.isEnabledOnBands_append (filtre : Pattern → Symbol → Bool) {a : Action Pattern}
    (h : a.largeur ≤ b.length) (hb : b ≠ []) :
    a.isEnabledOnBands filtre (b ++ extra) = a.isEnabledOnBands filtre b := by
  match b, a with
  | [], _ => exact absurd rfl hb
  | c :: b, .nop => rfl
  | c :: b, .rwm .. => rfl
  | c :: b, .simultaneous actions =>
    obtain ⟨paires, h₁, h₂⟩ := zipCompleteWith_append extra Action.nop h
    show areEnabledOnBands filtre actions ((c :: b) ++ extra) = areEnabledOnBands filtre actions (c :: b)
    rw [areEnabledOnBands, areEnabledOnBands, zip, zip, h₁, h₂]
    exact allM_append_nop filtre paires

theorem Action.perform_append {a : Action Pattern} (h : a.largeur ≤ b.length) (hb : b ≠ []) :
    a.perform (b ++ extra) = (a.perform b).map (· ++ extra) := by
  match b, a with
  | [], _ => exact absurd rfl hb
  | c :: b, .nop => rfl
  | c :: b, .rwm .. => rfl
  | c :: b, .simultaneous actions =>
    obtain ⟨paires, h₁, h₂⟩ := zipCompleteWith_append extra Action.nop h
    have hnop : ∀ l : List (Band Color Alphabet),
        (l.map (Action.nop, ·)).mapM (fun p : Action Pattern × Band Color Alphabet => performOnOneBand p.1 p.2) =
          .ok l := by
      intro l
      induction l with
      | nil => rfl
      | cons c l ih => rw [List.map_cons, List.mapM_cons, ih]; rfl
    show (zip actions ((c :: b) ++ extra) >>= fun paires => paires.mapM fun p => performOnOneBand p.1 p.2) =
      (zip actions (c :: b) >>= fun paires => paires.mapM fun p => performOnOneBand p.1 p.2).map (· ++ extra)
    rw [zip, zip, h₁, h₂]
    show (paires ++ extra.map (nop, ·)).mapM
        (fun p : Action Pattern × Band Color Alphabet => performOnOneBand p.1 p.2) =
      (paires.mapM fun p : Action Pattern × Band Color Alphabet => performOnOneBand p.1 p.2).map (· ++ extra)
    rw [List.mapM_append, hnop]
    cases paires.mapM fun p => performOnOneBand p.1 p.2 <;> rfl

namespace Execution

variable [DecidableEq State] {filtre : Pattern → Symbol → Bool} {ouvre : String → Except Exn Unit}
  {find : String → Except Exn (TuringMachine Pattern State)}
variable {W : String → ℕ} {w k : ℕ} {i : Instruction Pattern State} {is : List (Instruction Pattern State)}

/-- the same bands, and others after them -/
def Suivies (extra : List (Band Color Alphabet)) (w : ℕ) (b b' : List (Band Color Alphabet)) : Prop :=
  b' = b ++ extra ∧ w ≤ b.length ∧ b ≠ []

theorem suivies_of_rend {x : Calcul Exn (List (Band Color Alphabet))} {y : Calcul Exn (List (Band Color Alphabet))}
    (hx : Rend (fun c => c.length = b.length) x) (hy : y = (· ++ extra) <$> x) (hw : w ≤ b.length) (hb : b ≠ []) :
    Accord (Suivies extra w) x y := by
  rcases calcul_cases x with rfl | ⟨e, rfl⟩ | ⟨c, rfl⟩
  · rw [hy]
    exact .interrompu
  · rw [hy]
    exact .throw e
  · have hlen : c.length = b.length := by
      rw [rend_pure] at hx
      exact hx
    rw [hy]
    refine .pure ⟨rfl, hlen ▸ hw, ?_⟩
    rintro rfl
    exact hb (List.length_eq_zero_iff.1 hlen.symm)

theorem performParallel_append (h : is.length ≤ b.length) (hb : b ≠ []) (k : ℕ) :
    performParallel (perform filtre ouvre find k) is (b ++ extra) =
      (· ++ extra) <$> performParallel (perform filtre ouvre find k) is b := by
  obtain ⟨paires, h₁, h₂⟩ := zipCompleteWith_append extra Instruction.nop h
  have hzip := zipCompleteWith_ok h₁
  rw [performParallel, performParallel, Instruction.zip, Instruction.zip, h₁, h₂, liftM_ok, liftM_ok, pure_bind,
    pure_bind, List.mapM_append]
  cases k with
  | zero =>
    -- the bound is reached on the first band
    cases paires with
    | nil =>
      cases b with
      | nil => exact absurd rfl hb
      | cons _ _ => cases hzip.1
    | cons p paires => rfl
  | succ k =>
    have hnop : ∀ l : List (Band Color Alphabet), ((l.map (Instruction.nop, ·)).mapM
        fun p => performOnOneBand (perform filtre ouvre find (k + 1)) p.1 p.2) = pure l := by
      intro l
      induction l with
      | nil => rfl
      | cons c l ih => rw [List.map_cons, List.mapM_cons, ih]; rfl
    rw [hnop, map_eq_pure_bind]
    rfl

/-- each band gives one band, whatever its instruction -/
theorem performParallel_length (k : ℕ) (is : List (Instruction Pattern State)) (b : List (Band Color Alphabet)) :
    Rend (fun c => c.length = b.length) (performParallel (perform filtre ouvre find k) is b) := by
  rw [performParallel, rend_bind]
  apply rend_liftM
  intro paires hz
  have hune : ∀ p ∈ paires, Rend (fun _ => True) (performOnOneBand (perform filtre ouvre find k) p.1 p.2) :=
    fun _ _ _ _ => trivial
  refine (rend_mapM hune).mono ?_
  intro c hc
  rw [← zip_bandes hz, List.length_map, hc.length_eq]

/-- the log of a machine opens or not whatever the number of bands that its name holds -/
def LogSansBandes (Color Alphabet Pattern State : Type) (ouvre : String → Except Exn Unit) : Prop :=
  ∀ (tm : TuringMachine Pattern State) (b b' : List (Band Color Alphabet)),
    ouvre (Configuration.name tm b) = ouvre (Configuration.name tm b')

theorem perform_suivies (hlog : LogSansBandes Color Alphabet Pattern State ouvre)
    (hW : ∀ name tm, find name = .ok tm → Tient W (W name) (.run tm)) (hi : Tient W w i) (hw : w ≤ b.length)
    (hb : b ≠ []) (hextra : extra.all Band.affichable = true) (k : ℕ) :
    Accord (Suivies extra w) (perform filtre ouvre find k i b) (perform filtre ouvre find k i (b ++ extra)) := by
  refine perform_accord (R := Suivies extra w) (T := Tient W w) ?_ (fun tm c c' _ _ => hlog tm c c') ?_ ?_ ?_ ?_ k hi
    ⟨rfl, hw, hb⟩
  · refine ⟨?_, ?_, ?_⟩
    · intro tm h
      cases h with
      | run ht => exact ht
    · intro name tm h hf
      cases h with
      | call hname => exact (hW name tm hf).mono hname
    · intro i is h
      cases h with
      | seq his =>
        obtain ⟨hi, his⟩ := List.forall_mem_cons.1 his
        exact ⟨hi, .seq his⟩
  · rintro c _ ⟨rfl, -, -⟩
    rw [List.all_append, hextra, Bool.and_true]
  · rintro a c _ h ⟨rfl, hc, hne⟩
    obtain ha := h.largeur_le
    exact (Action.isEnabledOnBands_append filtre (ha.trans hc) hne).symm
  · rintro a c _ h ⟨rfl, hc, hne⟩
    obtain ha := h.largeur_le
    refine suivies_of_rend (rend_liftM fun c' hc' => (memesBandes_of_suite (perform_simule hc')).length_eq.symm) ?_ hc hne
    rw [Action.perform_append (ha.trans hc) hne]
    cases a.perform c <;> rfl
  · rintro k is c _ h ⟨rfl, hc, hne⟩ -
    exact suivies_of_rend (performParallel_length k is c) (performParallel_append (h.length_le.trans hc) hne k) hc hne

/-- **The frame**: on more bands than an instruction names, it does what it does without them (the same result, the
same exception, or no answer at all) and gives them back unchanged, provided that the log can print them and that the
number of bands in its name does not matter to its opening. -/
theorem perform_cadre (hlog : LogSansBandes Color Alphabet Pattern State ouvre)
    (hW : ∀ name tm, find name = .ok tm → Tient W (W name) (.run tm)) (hi : Tient W w i) (hw : w ≤ b.length)
    (hb : b ≠ []) (hextra : extra.all Band.affichable = true) (k : ℕ) :
    perform filtre ouvre find k i (b ++ extra) = (· ++ extra) <$> perform filtre ouvre find k i b :=
  Accord.eq_map ((perform_suivies hlog hW hi hw hb hextra k).mono fun _ _ h => h.1)

theorem logSansBandes_ok : LogSansBandes Unit Unit Unit Unit fun _ => .ok () := fun _ _ _ => rfl

/-- a band that the action does not name, and that has nothing stored under its head -/
theorem perform_cadre_deux :
    perform (fun (_ : Unit) _ => true) (fun _ => .ok ()) (fun _ => .error (.failure "find")) 3
        (.action (.rwm (.Match ()) (.write .U) .right) : Instruction Unit Unit)
        ([(⟨[], .B, [.Z], (), ()⟩ : Band Unit Unit)] ++ [⟨[.Z], .B, [], (), ()⟩]) =
      (· ++ [⟨[.Z], .B, [], (), ()⟩]) <$>
        perform (fun (_ : Unit) _ => true) (fun _ => .ok ()) (fun _ => .error (.failure "find")) 3
          (.action (.rwm (.Match ()) (.write .U) .right) : Instruction Unit Unit)
          [(⟨[], .B, [.Z], (), ()⟩ : Band Unit Unit)] :=
  perform_cadre (W := fun _ => 0) logSansBandes_ok (by rintro _ _ ⟨⟩) (.action le_rfl) le_rfl (by simp) rfl 3

/-- the frame of a triple: what is said of bands that `i` does not name stays true -/
theorem Valide.cadre {P Q F : Assertion Color Alphabet} (hlog : LogSansBandes Color Alphabet Pattern State ouvre)
    (hW : ∀ name tm, find name = .ok tm → Tient W (W name) (.run tm)) (hi : Tient W w i)
    (hP : ∀ b, P b → w ≤ b.length ∧ b ≠ []) (hF : ∀ b, F b → b.all Band.affichable = true)
    (h : Valide filtre ouvre find P i Q) :
    Valide filtre ouvre find (fun l => ∃ b extra, l = b ++ extra ∧ P b ∧ F extra) i
      (fun l => ∃ b extra, l = b ++ extra ∧ Q b ∧ F extra) := by
  rintro k _ ⟨b, extra, rfl, hb, hextra⟩
  obtain ⟨hw, hne⟩ := hP b hb
  have hcadre : perform filtre ouvre find k i (b ++ extra) = (· ++ extra) <$> perform filtre ouvre find k i b :=
    Accord.eq_map ((perform_suivies hlog hW hi hw hne (hF extra hextra) k).mono fun _ _ h => h.1)
  rw [hcadre, map_eq_pure_bind, bon_bind]
  exact (h k b hb).mono fun c hc => bon_pure.2 ⟨c, extra, rfl, hc, hextra⟩

/-! ## Bands that stand for the same tape -/

end Execution

/-- two ways to store a tape -/
def MemeRuban (c c' : Band Color Alphabet) : Prop :=
  c'.color = c.color ∧ c'.alphabet = c.alphabet ∧ ∀ p, c.lecture p = c'.lecture p

theorem lecture_tete (c : Band Color Alphabet) (p : ℤ) : (c.lecture p).cellules p = c.head := by
  simp [Band.lecture, RubanInfini.deplie]

theorem MemeRuban.head {c c' : Band Color Alphabet} (h : MemeRuban c c') : c.head = c'.head := by
  rw [← lecture_tete c 0, ← lecture_tete c' 0, h.2.2 0]

/-- a blank can be printed: only the tape decides -/
theorem affichable_iff (c : Band Color Alphabet) :
    c.affichable = true ↔ ∀ j, ((c.lecture 0).cellules j).affichable = true := by
  have hgetD : ∀ (l : List Symbol), (∀ n : ℕ, (l.getD n .B).affichable = true) ↔ l.all Symbol.affichable = true := by
    intro l
    rw [List.all_eq_true]
    apply Iff.intro
    · intro h s hs
      obtain ⟨n, hn, rfl⟩ := List.getElem_of_mem hs
      simpa [List.getD, List.getElem?_eq_getElem hn] using h n
    · intro h n
      by_cases hn : n < l.length
      · simpa [List.getD, List.getElem?_eq_getElem hn] using h _ (List.getElem_mem hn)
      · simp [List.getD, List.getElem?_eq_none (Nat.le_of_not_lt hn), Symbol.affichable]
  rw [Band.affichable, Bool.and_eq_true, Bool.and_eq_true, ← hgetD, ← hgetD]
  simp only [Band.lecture, RubanInfini.deplie]
  apply Iff.intro
  · rintro ⟨⟨hl, hh⟩, hr⟩ j
    split_ifs
    · exact hh
    · exact hl _
    · exact hr _
  · intro h
    refine ⟨⟨?_, ?_⟩, ?_⟩
    · intro n
      have hn : (0 - 1 - (-1 - (n : ℤ))).toNat = n := by omega
      have hj := h (-1 - n)
      rwa [if_neg (by omega), if_pos (by omega), hn] at hj
    · simpa using h 0
    · intro n
      have hn : (1 + (n : ℤ) - 0 - 1).toNat = n := by omega
      have hj := h (1 + n)
      rwa [if_neg (by omega), if_neg (by omega), hn] at hj

/-- blanks stored at the ends -/
theorem memeRuban_blancs (l r : List Symbol) (s : Symbol) (m n : ℕ) (color : Color) (alphabet : Alphabet) :
    MemeRuban ⟨l, s, r, color, alphabet⟩
      ⟨l ++ List.replicate m .B, s, r ++ List.replicate n .B, color, alphabet⟩ := by
  have hgetD : ∀ (l : List Symbol) (m k : ℕ), (l ++ List.replicate m Symbol.B).getD k .B = l.getD k .B := by
    intro l m k
    rw [List.getD_eq_getElem?_getD, List.getD_eq_getElem?_getD, List.getElem?_append]
    split_ifs with hk
    · rfl
    · rw [List.getElem?_eq_none (Nat.le_of_not_lt hk), List.getElem?_replicate]
      split_ifs <;> rfl
  refine ⟨rfl, rfl, ?_⟩
  intro p
  simp only [Band.lecture, RubanInfini.deplie, hgetD]

theorem MemeRuban.affichable {c c' : Band Color Alphabet} (h : MemeRuban c c') : c.affichable = c'.affichable := by
  rw [Bool.eq_iff_iff, affichable_iff, affichable_iff, h.2.2 0]

theorem MemeRuban.performOnOneBand {c c' : Band Color Alphabet} {a : Action Pattern} (h : MemeRuban c c') :
    Accord MemeRuban (liftM (Action.performOnOneBand a c) : Calcul Exn _) (liftM (Action.performOnOneBand a c')) := by
  induction a, c using Action.performOnOneBand.induct generalizing c' with
  | case1 c => exact .pure h
  | case2 reading writing moving c =>
    have hs := suit_rwm writing moving c
    have hs' := suit_rwm writing moving c'
    refine .pure ⟨?_, ?_, ?_⟩
    · rw [hs.color, hs'.color, h.1]
    · rw [hs.alphabet, hs'.alphabet, h.2.1]
    · intro p
      have hp : p = p - moving.sens.pas + moving.sens.pas := by omega
      rw [hp, lecture_doMove, lecture_doMove, lecture_doWrite, lecture_doWrite, h.2.2]
  | case3 action c ih => exact ih h
  | case4 actions c hne =>
    cases actions with
    | nil => exact .throw _
    | cons action suite =>
      cases suite with
      | nil => exact absurd rfl (hne action)
      | cons _ _ => exact .throw _

theorem MemeRuban.isEnabledOnOneBand {filtre : Pattern → Symbol → Bool} {c c' : Band Color Alphabet}
    {a : Action Pattern} (h : MemeRuban c c') :
    a.isEnabledOnOneBand filtre c = a.isEnabledOnOneBand filtre c' := by
  induction a, c using Action.isEnabledOnOneBand.induct generalizing c' with
  | case1 c => rfl
  | case2 pattern writing moving c => rw [Action.isEnabledOnOneBand, Action.isEnabledOnOneBand, h.head]
  | case3 action c ih => exact ih h
  | case4 actions c hne =>
    cases actions with
    | nil => rfl
    | cons action suite =>
      cases suite with
      | nil => exact absurd rfl (hne action)
      | cons _ _ => rfl

/-- each component with a band on both sides -/
theorem zipCompleteWith_accord {op : Type} (nop : op) {S : Band Color Alphabet → Band Color Alphabet → Prop}
    (h : List.Forall₂ S b b') (ops : List op) :
    Accord (List.Forall₂ fun p p' => p.1 = p'.1 ∧ S p.2 p'.2)
      (liftM (Band.zipCompleteWith nop ops b) : Calcul Exn _) (liftM (Band.zipCompleteWith nop ops b')) := by
  induction h generalizing ops with
  | nil =>
    cases ops with
    | nil => exact .pure .nil
    | cons o ops => exact .throw _
  | cons hc _ ih =>
    match ops with
    | [] =>
      rw [Band.zipCompleteWith, Band.zipCompleteWith, liftM_map, liftM_map]
      exact (ih []).map fun _ _ hl => .cons ⟨rfl, hc⟩ hl
    | o :: ops =>
      rw [Band.zipCompleteWith, Band.zipCompleteWith, liftM_map, liftM_map]
      exact (ih ops).map fun _ _ hl => .cons ⟨rfl, hc⟩ hl

theorem allM_rubans {filtre : Pattern → Symbol → Bool} {l l' : List (Action Pattern × Band Color Alphabet)}
    (h : List.Forall₂ (fun p p' => p.1 = p'.1 ∧ MemeRuban p.2 p'.2) l l') :
    (l.allM fun p => p.1.isEnabledOnOneBand filtre p.2) = l'.allM fun p => p.1.isEnabledOnOneBand filtre p.2 := by
  induction h with
  | nil => rfl
  | cons hp _ ih => rw [List.allM_cons, List.allM_cons, ih, hp.1, hp.2.isEnabledOnOneBand]

theorem isEnabledOnBands_rubans (filtre : Pattern → Symbol → Bool) (a : Action Pattern)
    (h : List.Forall₂ MemeRuban b b') : a.isEnabledOnBands filtre b = a.isEnabledOnBands filtre b' := by
  cases h with
  | nil => rfl
  | cons hc hb =>
    cases a with
    | nop => rfl
    | rwm reading writing moving => exact hc.isEnabledOnOneBand
    | simultaneous actions =>
      apply liftM_inj
      simp only [Action.isEnabledOnBands, Action.areEnabledOnBands, liftM_bind]
      refine Accord.eq ((zipCompleteWith_accord _ (.cons hc hb) actions).bind ?_)
      intro l l' hl
      rw [allM_rubans hl]
      exact .refl (fun _ => rfl) _

theorem perform_action_rubans (a : Action Pattern) (h : List.Forall₂ MemeRuban b b') :
    Accord (List.Forall₂ MemeRuban) (liftM (a.perform b) : Calcul Exn _) (liftM (a.perform b')) := by
  cases a with
  | nop => exact .pure h
  | simultaneous actions =>
    simp only [Action.perform, liftM_bind, liftM_mapM]
    refine (zipCompleteWith_accord _ h actions).bind ?_
    intro l l' hl
    refine Accord.mapM hl ?_
    intro p p' hp
    rw [hp.1]
    exact hp.2.performOnOneBand
  | rwm reading writing moving =>
    cases h with
    | nil => exact .throw _
    | cons hc hb =>
      simp only [Action.perform, liftM_map]
      exact hc.performOnOneBand.map fun _ _ hd => .cons hd hb

namespace Execution

variable [DecidableEq State] {filtre : Pattern → Symbol → Bool} {ouvre : String → Except Exn Unit}
  {find : String → Except Exn (TuringMachine Pattern State)} {i : Instruction Pattern State}

/-- **Only the tapes count**: an instruction does the same on two lists of bands that stand for the same tapes, to the
results, the exceptions and the answers that never come. -/
theorem perform_rubans (h : List.Forall₂ MemeRuban b b') (k : ℕ) :
    Accord (List.Forall₂ MemeRuban) (perform filtre ouvre find k i b) (perform filtre ouvre find k i b') := by
  -- as many bands, so logs of the same names
  have hlog : ∀ (tm : TuringMachine Pattern State) (c c' : List (Band Color Alphabet)), List.Forall₂ MemeRuban c c' →
      ouvre (Configuration.name tm c) = ouvre (Configuration.name tm c') := by
    intro tm c c' hc
    rw [Configuration.name, Configuration.name, hc.length_eq]
  refine perform_accord (T := fun _ => True) ⟨?_, ?_, ?_⟩ (fun tm c c' _ => hlog tm c c') ?_ ?_ ?_ ?_ k trivial h
  · exact fun _ _ _ => trivial
  · exact fun _ _ => trivial
  · exact fun _ => ⟨trivial, trivial⟩
  · intro c c' hc
    induction hc with
    | nil => rfl
    | cons hc _ ih => rw [List.all_cons, List.all_cons, hc.affichable, ih]
  · exact fun a c c' _ hc => isEnabledOnBands_rubans filtre a hc
  · exact fun a c c' _ hc => perform_action_rubans a hc
  · intro k is c c' _ hc ih
    rw [performParallel, performParallel]
    refine (zipCompleteWith_accord _ hc is).bind ?_
    intro l l' hl
    refine Accord.mapM hl ?_
    intro p p' hp
    rw [hp.1]
    refine (ih p'.1 _ _ trivial (.cons hp.2 .nil)).bind ?_
    intro d d' hd
    cases hd with
    | nil => exact .throw _
    | cons hd _ => exact .pure hd

/-- a band that stores two blanks, and one that stores none -/
theorem perform_rubans_blancs :
    Accord (List.Forall₂ MemeRuban)
      (perform (fun (_ : Unit) _ => true) (fun _ => .ok ()) (fun _ => .error (.failure "find")) 3
        (.action (.rwm (.Match ()) (.write .Z) .left) : Instruction Unit Unit)
        [(⟨[], .U, [], (), ()⟩ : Band Unit Unit)])
      (perform (fun (_ : Unit) _ => true) (fun _ => .ok ()) (fun _ => .error (.failure "find")) 3
        (.action (.rwm (.Match ()) (.write .Z) .left) : Instruction Unit Unit)
        [(⟨[.B], .U, [.B], (), ()⟩ : Band Unit Unit)]) :=
  perform_rubans (.cons (memeRuban_blancs [] [] .U 1 1 () ()) .nil) 3

end Execution

end Semestre6.Turing
