import NaturalDeduction.Deduction.Basic
import NaturalDeduction.Expression.Matching

/-!
# Proof states

A proof state is a stack of open deductions. The innermost one is current: every step works on it.
The outermost one is never closed, so it is kept apart from the question whether the stack is empty:
a state is a current frame and the frames around it, innermost first.

With each deduction its frame keeps the rules and abbreviations that were registered while it was
current; both are forgotten with the deduction. A rule pairs a pattern with a tactic. Tactics are
data, so that states are; the one sort that is not known here is `external`, which a user of the
library answers for. An abbreviation is any function from the arguments of its head symbol to an
expansion, which may draw variables.

The counters of names and variables are never set back.
-/

namespace NaturalDeduction

/-- How a rule proves what its pattern matched. -/
inductive Tactic where
  /-- Specialize the named statement to the values, in which the holes of the pattern are filled,
  and discharge its conditions. -/
  | specialize (source : String) (values : List Expression)
  /-- Turn around an equation that is known, between what the two holes matched. -/
  | turnAround (left right : Variable)
  /-- Find the values for the named statement from the goal, and discharge its conditions. -/
  | backwards (source : String)
  /-- A tactic of the library's user. -/
  | external (key : Nat)
  deriving Inhabited

/-- A tactic and the pattern of the goals that it is tried on. -/
structure Rule where
  name : String
  pattern : Expression
  tactic : Tactic
  deriving Inhabited

/-- A way to write the applications of one symbol out. -/
structure Abbreviation where
  head : String
  /-- The expansion for given arguments, if they have one. -/
  expand : List Expression → Fresh (Option Expression)

/-- An open deduction and what was registered while it was current, oldest first. -/
structure Frame where
  deduction : Deduction
  rules : List Rule := []
  abbreviations : List Abbreviation := []

instance : Inhabited Frame := ⟨{ deduction := .empty "" }⟩

/-- A stack of open deductions. -/
structure ProofState where
  current : Frame
  /-- The frames around the current one, innermost first. -/
  enclosing : List Frame
  /-- The number from which the next generated name is looked for. -/
  nextName : Nat
  /-- The number of the next variable that is drawn. -/
  nextVariable : Nat
  /-- How many searches for a proof may be under way inside one another. -/
  searchLimit : Nat
  /-- How many searches for a proof are under way. -/
  searching : Nat

/-- Which statement is meant: one with a name, or one at a distance from the end. The most recent
statement is at −1. -/
inductive Reference where
  | name (name : String)
  | relative (k : Int)
  deriving DecidableEq, Inhabited

/-- What to return to when a step is taken back: the depth, and the sizes of what the current frame
holds. -/
structure Checkpoint where
  depth : Nat
  entries : Nat
  parameters : Nat
  rules : Nat
  abbreviations : Nat
  deriving DecidableEq, Inhabited

/-- How deep searches may nest unless the user says otherwise. -/
def defaultSearchLimit : Nat := 16

namespace ProofState

/-- A state in which nothing has happened; variables are numbered from `nextVariable` on. -/
def initial (nextVariable : Nat) (searchLimit : Nat) : ProofState where
  current := { deduction := .empty "root" }
  enclosing := []
  nextName := 0
  nextVariable := nextVariable
  searchLimit := searchLimit
  searching := 0

/-- The frames, innermost first. -/
def frames (s : ProofState) : List Frame := s.current :: s.enclosing

/-- The number of open deductions. -/
def depth (s : ProofState) : Nat := s.enclosing.length + 1

/-- The outermost frame. -/
def root (s : ProofState) : Frame := s.enclosing.getLastD s.current

/-- Changes the current deduction. -/
def mapDeduction (s : ProofState) (f : Deduction → Deduction) : ProofState :=
  { s with current := { s.current with deduction := f s.current.deduction } }

/-! ### Looking things up -/

/-- The entry with a name: the innermost deduction that has the name decides. -/
def find? (s : ProofState) (name : String) : Option Entry :=
  s.frames.findSome? (·.deduction.find? name)

/-- The statement with a name. -/
def get? (s : ProofState) (name : String) : Option Expression := (s.find? name).map (·.statement)

/-- Every visible entry, most recent first. -/
def history (s : ProofState) : List Entry := s.frames.flatMap (·.deduction.entries)

/-- The name of the entry at distance `k`: −1 is the most recent. -/
def nameAt? (s : ProofState) (k : Int) : Option String :=
  if k < 0 then (s.history[k.natAbs - 1]?).map (·.name) else none

/-- The name of a visible statement equal to `e`, the most recent one. -/
def «recall?» (s : ProofState) (e : Expression) : Option String :=
  (s.history.find? (·.statement.alphaEq e)).map (·.name)

/-- The frame with an index, counted from the root. -/
def frameAt? (s : ProofState) (index : Nat) : Option Frame := s.frames.reverse[index]?

/-- Replaces the frame with an index, counted from the root. -/
def setFrameAt (s : ProofState) (index : Nat) (frame : Frame) : ProofState :=
  if index = s.enclosing.length then { s with current := frame }
  else { s with enclosing := s.enclosing.set (s.enclosing.length - 1 - index) frame }

/-- Whether a variable may become a parameter: no enclosing deduction has it as a parameter or in a
statement. Otherwise, what is in the way, looked for from the root inwards. -/
def parameterObstacle? (s : ProofState) (v : Variable) : Option (Option String) :=
  s.enclosing.reverse.findSome? fun frame ↦
    if frame.deduction.parameters.any (·.id == v.id) then some none
    else (frame.deduction.entries.reverse.find? (·.statement.occursFree v)).map fun e ↦
      some e.name

/-! ### Names -/

/-- The generated name with a number. -/
def generatedName (n : Nat) : String := "#" ++ toString n

/-- The first number from `n` on whose generated name is not taken, if `budget` steps suffice. -/
def firstFree (taken : String → Bool) : (budget : Nat) → (n : Nat) → Nat
  | 0, n => n
  | budget + 1, n => if taken (generatedName n) then firstFree taken budget (n + 1) else n

/-- The number of the next generated name. The search ends, as there are no more taken names than
visible entries. -/
def freeNumber (s : ProofState) : Nat :=
  firstFree (fun name ↦ (s.find? name).isSome) s.history.length s.nextName

/-! ### Going back -/

/-- Drops the innermost deductions until at most `depth` are left, but never the root. -/
def truncate (s : ProofState) (depth : Nat) : ProofState :=
  match s.frames.drop (s.depth - max depth 1) with
  | [] => s
  | frame :: rest => { s with current := frame, enclosing := rest }

/-- What `rollback` needs to return here. -/
def checkpoint (s : ProofState) : Checkpoint where
  depth := s.depth
  entries := s.current.deduction.entries.length
  parameters := s.current.deduction.parameters.length
  rules := s.current.rules.length
  abbreviations := s.current.abbreviations.length

/-- Forgets what was opened and added since a checkpoint. -/
def rollback (s : ProofState) (c : Checkpoint) : ProofState :=
  let s := s.truncate c.depth
  { s with
    current :=
      { deduction := s.current.deduction.truncate c.entries c.parameters
        rules := s.current.rules.take c.rules
        abbreviations := s.current.abbreviations.take c.abbreviations } }

/-! ### Registering -/

/-- Registers a rule in the current frame. -/
def addRule (s : ProofState) (r : Rule) : ProofState :=
  { s with current := { s.current with rules := s.current.rules ++ [r] } }

/-- Registers an abbreviation in the current frame. -/
def addAbbreviation (s : ProofState) (a : Abbreviation) : ProofState :=
  { s with current := { s.current with abbreviations := s.current.abbreviations ++ [a] } }

end ProofState

end NaturalDeduction
