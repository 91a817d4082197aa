/-
Symbol.ml, Band.ml and Action.ml: the bands of a Turing machine and the actions on them.

A band is a zipper; `lecture` is the tape without ends that it stands for.

- `perform_simule`: an action that does not fail does to the k-th band what its k-th component does to the tape
  (`composante`), and keeps the number of bands, their colors and their alphabets;
- `performs_simule`: the same along every sequence of actions.
-/
import Semestre6.Lib.Boucle
import Semestre6.Lib.RubanInfini

namespace Semestre6.Turing

open Boucle RubanInfini

inductive Exn where
  | failure (message : String)
  | matchFailure
  | sysError (message : String)
deriving DecidableEq, Repr

inductive Symbol where
  /-- blank -/
  | B
  | U | Z | D | S | L | O | C | X
  | Var (name : String) (i : ℤ)
  | Vector (symbols : List Symbol)
  | Column (symbols : List Symbol)

/-! ## Bands -/

/-- the colors and the alphabets are only carried along -/
structure Band (Color Alphabet : Type) where
  /-- the nearest first -/
  left : List Symbol
  head : Symbol
  right : List Symbol
  color : Color
  alphabet : Alphabet

variable {Color Alphabet Pattern : Type}

namespace Band

def moveHeadRight (band : Band Color Alphabet) : Band Color Alphabet :=
  match band.right with
  | [] => { band with left := band.head :: band.left, head := .B, right := [] }
  | s :: ymbols => { band with left := band.head :: band.left, head := s, right := ymbols }

def moveHeadLeft (band : Band Color Alphabet) : Band Color Alphabet :=
  match band.left with
  | [] => { band with left := [], head := .B, right := band.head :: band.right }
  | s :: lobmys => { band with left := lobmys, head := s, right := band.head :: band.right }

def write (symbol : Symbol) (band : Band Color Alphabet) : Band Color Alphabet := { band with head := symbol }

def zipCompleteWith {op : Type} (nop : op) : List op → List (Band Color Alphabet) →
    Except Exn (List (op × Band Color Alphabet))
  | [], [] => .ok []
  | o :: operations, b :: bands => (zipCompleteWith nop operations bands).map ((o, b) :: ·)
  | [], b :: bands => (zipCompleteWith nop [] bands).map ((nop, b) :: ·)
  | _ :: _, [] => .error (.failure "Band.zip: missing band")

end Band

/-! ## Actions -/

inductive Reading (Pattern : Type) where
  | Match (pattern : Pattern)

inductive Writing where
  | noWrite
  | write (s : Symbol)

inductive Moving where
  | left | here | right

inductive Action (Pattern : Type) where
  | rwm (reading : Reading Pattern) (writing : Writing) (moving : Moving)
  | simultaneous (actions : List (Action Pattern))
  | nop

namespace Action

def zip (actions : List (Action Pattern)) (bands : List (Band Color Alphabet)) :
    Except Exn (List (Action Pattern × Band Color Alphabet)) := Band.zipCompleteWith .nop actions bands

def doMove (moving : Moving) (band : Band Color Alphabet) : Band Color Alphabet :=
  match moving with
  | .left => band.moveHeadLeft
  | .right => band.moveHeadRight
  | .here => band

def doWrite (writing : Writing) (band : Band Color Alphabet) : Band Color Alphabet :=
  match writing with
  | .write s => band.write s
  | _ => band

/-- the match has no case for several simultaneous actions, nor for none -/
def performOnOneBand : Action Pattern → Band Color Alphabet → Except Exn (Band Color Alphabet)
  | .nop, band => .ok band
  | .rwm _ writing moving, band => .ok (doMove moving (doWrite writing band))
  | .simultaneous [action], band => performOnOneBand action band
  | .simultaneous _, _ => .error .matchFailure

def perform (action : Action Pattern) (bands : List (Band Color Alphabet)) :
    Except Exn (List (Band Color Alphabet)) :=
  match action with
  | .nop => .ok bands
  | .simultaneous actions => do
    let paires ← zip actions bands
    paires.mapM fun p => performOnOneBand p.1 p.2
  | .rwm .. =>
    match bands with
    | band :: untouched => (performOnOneBand action band).map (· :: untouched)
    | [] => .error (.failure "Action.perform: missing band")

/-- a sequence of actions -/
def performs (bands : List (Band Color Alphabet)) (actions : List (Action Pattern)) :
    Except Exn (List (Band Color Alphabet)) := actions.foldlM (fun bands action => perform action bands) bands

end Action

/-! ## The tapes of the bands -/

/-- the tape of a band whose head is at position `p` -/
def Band.lecture (b : Band Color Alphabet) (p : ℤ) : Ruban Symbol := deplie .B b.left b.head b.right p

def Writing.symbole : Writing → Option Symbol
  | .noWrite => none
  | .write s => some s

def Moving.sens : Moving → Sens
  | .left => .gauche
  | .here => .ici
  | .right => .droite

namespace Action

/-- what an action means on one band -/
def seul : Action Pattern → Operation Symbol
  | .nop => .rien
  | .rwm _ writing moving => ⟨writing.symbole, moving.sens⟩
  | .simultaneous [action] => seul action
  | .simultaneous _ => .rien

/-- what it means for the band of number `k` -/
def composante (k : ℕ) : Action Pattern → Operation Symbol
  | .nop => .rien
  | .rwm reading writing moving => if k = 0 then seul (.rwm reading writing moving) else .rien
  | .simultaneous actions => seul (actions.getD k .nop)

end Action

/-- `b'` is `b` after the operations: the tape and the head of `b'` are those of the machine -/
structure Suit (ops : List (Operation Symbol)) (b b' : Band Color Alphabet) : Prop where
  color : b'.color = b.color
  alphabet : b'.alphabet = b.alphabet
  ruban : ∀ p, ∃ p', ops.foldl Ruban.agit (b.lecture p) = b'.lecture p'

variable {b b' b'' : Band Color Alphabet} {bands bands' : List (Band Color Alphabet)} {action : Action Pattern}

theorem Suit.nil (b : Band Color Alphabet) : Suit [] b b := ⟨rfl, rfl, fun p => ⟨p, rfl⟩⟩

theorem Suit.rien (b : Band Color Alphabet) : Suit [.rien] b b := ⟨rfl, rfl, fun p => ⟨p, Ruban.agit_rien _⟩⟩

theorem Suit.append {l l' : List (Operation Symbol)} (h : Suit l b b') (h' : Suit l' b' b'') :
    Suit (l ++ l') b b'' := by
  refine ⟨h'.color.trans h.color, h'.alphabet.trans h.alphabet, ?_⟩
  intro p
  obtain ⟨p₁, h₁⟩ := h.ruban p
  obtain ⟨p₂, h₂⟩ := h'.ruban p₁
  exact ⟨p₂, by rw [List.foldl_append, h₁, h₂]⟩

theorem lecture_doWrite (writing : Writing) (b : Band Color Alphabet) (p : ℤ) :
    (Action.doWrite writing b).lecture p = (b.lecture p).agit ⟨writing.symbole, .ici⟩ := by
  cases writing with
  | noWrite => exact (Ruban.agit_rien _).symm
  | write s =>
    calc (b.write s).lecture p = (b.lecture p).ecrit s := (deplie_ecrit _ _ _ _ _).symm
      _ = ((b.lecture p).ecrit s).deplace .ici := (Ruban.deplace_ici _).symm

theorem lecture_doMove (moving : Moving) (b : Band Color Alphabet) (p : ℤ) :
    (Action.doMove moving b).lecture (p + moving.sens.pas) = (b.lecture p).deplace moving.sens := by
  cases moving with
  | left =>
    refine Eq.trans ?_ (deplie_gauche b.left b.right b.head p).symm
    unfold Action.doMove Band.moveHeadLeft
    cases h : b.left <;> rfl
  | here =>
    rw [Moving.sens, Sens.pas, add_zero, Ruban.deplace_ici]
    rfl
  | right =>
    refine Eq.trans ?_ (deplie_droite b.left b.right b.head p).symm
    unfold Action.doMove Band.moveHeadRight
    cases h : b.right <;> rfl

theorem suit_rwm (writing : Writing) (moving : Moving) (b : Band Color Alphabet) :
    Suit [⟨writing.symbole, moving.sens⟩] b (Action.doMove moving (Action.doWrite writing b)) := by
  have hwrite : ∀ c : Band Color Alphabet, (Action.doWrite writing c).color = c.color ∧
      (Action.doWrite writing c).alphabet = c.alphabet := by
    intro c
    cases writing <;> exact ⟨rfl, rfl⟩
  have hmove : ∀ c : Band Color Alphabet, (Action.doMove moving c).color = c.color ∧
      (Action.doMove moving c).alphabet = c.alphabet := by
    intro c
    cases moving with
    | left => unfold Action.doMove Band.moveHeadLeft; cases c.left <;> exact ⟨rfl, rfl⟩
    | here => exact ⟨rfl, rfl⟩
    | right => unfold Action.doMove Band.moveHeadRight; cases c.right <;> exact ⟨rfl, rfl⟩
  refine ⟨(hmove _).1.trans (hwrite b).1, (hmove _).2.trans (hwrite b).2, ?_⟩
  intro p
  refine ⟨p + moving.sens.pas, ?_⟩
  rw [lecture_doMove, lecture_doWrite]
  cases writing <;> simp [Ruban.agit, Writing.symbole]

theorem performOnOneBand_suit (h : Action.performOnOneBand action b = .ok b') : Suit [action.seul] b b' := by
  induction action, b using Action.performOnOneBand.induct with
  | case1 b =>
    obtain rfl := Except.ok.inj h
    exact Suit.rien b
  | case2 reading writing moving b =>
    obtain rfl := Except.ok.inj h
    exact suit_rwm _ _ b
  | case3 action b ih => exact ih h
  | case4 actions b hne =>
    match actions with
    | [] => cases h
    | [action] => exact absurd rfl (hne action)
    | _ :: _ :: _ => cases h

/-! ## The bands of one action, and of a sequence -/

theorem zipCompleteWith_ok {op : Type} {nop : op} {ops : List op} {paires : List (op × Band Color Alphabet)}
    (h : Band.zipCompleteWith nop ops bands = .ok paires) :
    paires.length = bands.length ∧ ∀ k b, bands[k]? = some b → paires[k]? = some (ops.getD k nop, b) := by
  induction ops, bands using Band.zipCompleteWith.induct generalizing paires with
  | case1 =>
    obtain rfl := Except.ok.inj h
    exact ⟨rfl, by simp⟩
  | case2 o ops b bands ih =>
    obtain ⟨suite, hs, rfl⟩ := ok_of_map h
    obtain ⟨hlen, hget⟩ := ih hs
    refine ⟨by simp [hlen], ?_⟩
    intro k c hk
    cases k with
    | zero => simpa using hk
    | succ k => simpa using hget k c (by simpa using hk)
  | case3 b bands ih =>
    obtain ⟨suite, hs, rfl⟩ := ok_of_map h
    obtain ⟨hlen, hget⟩ := ih hs
    refine ⟨by simp [hlen], ?_⟩
    intro k c hk
    cases k with
    | zero => simpa using hk
    | succ k => simpa using hget k c (by simpa using hk)
  | case4 => cases h

/-- as many bands, each after what the operations of its number do to it -/
def SuiteBandes (ops : ℕ → List (Operation Symbol)) (bands bands' : List (Band Color Alphabet)) : Prop :=
  bands'.length = bands.length ∧ ∀ k b, bands[k]? = some b → ∃ b', bands'[k]? = some b' ∧ Suit (ops k) b b'

/-- one action -/
theorem perform_simule (h : Action.perform action bands = .ok bands') :
    SuiteBandes (fun k => [action.composante k]) bands bands' := by
  cases action with
  | nop =>
    obtain rfl := Except.ok.inj h
    exact ⟨rfl, fun k b hb => ⟨b, hb, Suit.rien b⟩⟩
  | simultaneous actions =>
    obtain ⟨paires, hz, hm⟩ := ok_of_bind h
    obtain ⟨hlen, hzip⟩ := zipCompleteWith_ok hz
    obtain ⟨hlen', hmap⟩ := ok_of_mapM hm
    refine ⟨hlen'.trans hlen, ?_⟩
    intro k b hb
    obtain ⟨b', hb', hp⟩ := hmap k _ (hzip k b hb)
    exact ⟨b', hb', performOnOneBand_suit hp⟩
  | rwm reading writing moving =>
    match bands with
    | [] => cases h
    | b :: bands =>
      obtain rfl := Except.ok.inj h
      refine ⟨rfl, ?_⟩
      intro k c hc
      cases k with
      | zero =>
        obtain rfl : b = c := by simpa using hc
        exact ⟨_, rfl, suit_rwm writing moving b⟩
      | succ k => exact ⟨c, hc, Suit.rien c⟩

/-- **The bands follow the tapes**: along every sequence of actions that does not fail, the k-th band is the tape of a
machine that performs the k-th components. -/
theorem performs_simule {actions : List (Action Pattern)} (h : Action.performs bands actions = .ok bands') :
    SuiteBandes (fun k => actions.map (Action.composante k)) bands bands' := by
  induction actions generalizing bands with
  | nil =>
    obtain rfl := Except.ok.inj h
    exact ⟨rfl, fun k b hb => ⟨b, hb, Suit.nil b⟩⟩
  | cons action actions ih =>
    obtain ⟨bands₁, h₁, h⟩ := ok_of_bind h
    obtain ⟨hlen, hstep⟩ := perform_simule h₁
    obtain ⟨hlen', hrun⟩ := ih h
    refine ⟨hlen'.trans hlen, ?_⟩
    intro k b hb
    obtain ⟨b₁, hb₁, hs⟩ := hstep k b hb
    obtain ⟨b', hb', hs'⟩ := hrun k b₁ hb₁
    exact ⟨b', hb', hs.append hs'⟩

/-- the first band goes left over its end, the second one is not in the list of the actions -/
theorem performs_simule_deux :
    SuiteBandes (fun k => [Action.composante k (.simultaneous [.rwm (.Match ()) (.write .U) .left])])
      [(⟨[], .B, [], (), ()⟩ : Band Unit Unit), ⟨[.Z], .U, [], (), ()⟩]
      [⟨[], .B, [.U], (), ()⟩, ⟨[.Z], .U, [], (), ()⟩] :=
  @performs_simule _ _ Unit _ _ [.simultaneous [.rwm (.Match ()) (.write .U) .left]] rfl

end Semestre6.Turing
