import NaturalDeduction.Automation.Attempt

/-!
# Search for proofs

`prove` looks for a statement among what is known, then asks the evaluator, then tries the rules of
all open deductions, from the innermost outwards and in the order of registration. Whatever a rule
did that did not prove the goal is rolled back. A tactic that discharges conditions searches again,
so searches nest; how deep is limited.

Everything that a tactic is made of takes the search for the next level as an argument (`Prover`).
So `proveAt` is a recursion on the number of levels that may still be opened, and the tactics are
ordinary functions, which a user's tactics can share. Two bounds have no effect on what is found.
A level is only opened while the limit of the proof state allows it, and `prove` starts with as many
levels as the limit will ever be (`External.reach` is how far a user's tactics may raise it). A rule
has as many conditions to discharge as its statement has, unless a user's tactic meanwhile hides its
name behind another rule (`External.slack` is how many more conditions can come in that way).
-/

namespace NaturalDeduction

/-- How often an abbreviation is written out in search of a quantifier. -/
def maxExpansions : Nat := 8

/-- The search for proofs that tactics may use. -/
structure Prover (μ : Type) where
  prove : Expression → Attempt μ String
  /-- How many conditions a rule may have beyond those of its statement. -/
  slack : Nat

/-- What a user's tactics do. -/
structure External (μ : Type) where
  /-- The tactic with a key, on the bindings of its rule's pattern and the goal. -/
  run : Nat → Prover μ → Bindings → Expression → Attempt μ String
  /-- The largest search limit that one of the tactics sets. -/
  reach : Nat
  /-- How many conditions the tactics can slip into a rule that is being applied. -/
  slack : Nat

/-- No tactics of a user's own. -/
def External.none {μ : Type} : External μ where
  run _ _ _ goal := Attempt.fail goal .noRule
  reach := 0
  slack := 0

/-! ### Writing abbreviations out -/

/-- The expansion by the first abbreviation of a list that expands the application. -/
def Abbreviation.expandFirst (head : String) (args : List Expression) :
    List Abbreviation → Fresh (Option Expression)
  | [] => return none
  | a :: rest => do
    if a.head = head then
      match ← a.expand args with
      | some e => return some e
      | none => expandFirst head args rest
    else expandFirst head args rest

/-- The expansion by the innermost frame that has one, and the index of that frame from the root. -/
def Frame.expandInnermost (head : String) (args : List Expression) :
    List Frame → Fresh (Option (Nat × Expression))
  | [] => return none
  | frame :: enclosing => do
    match ← Abbreviation.expandFirst head args frame.abbreviations with
    | some e => return some (enclosing.length, e)
    | none => expandInnermost head args enclosing

/-- Writes an abbreviated application out once. -/
def Building.expand? (e : Expression) : Building (Option (Nat × Expression)) := do
  match e.head? with
  | none => return none
  | some head => Building.draw (Frame.expandInnermost head e.args (← get).frames)

/-! ### Equations -/

namespace Building

/-- The sides of the equation with a name. -/
def sides (name : String) : Building (Expression × Expression) := do
  match ← lookup name with
  | .equals left right => return (left, right)
  | found => throw (.notAnEquation name found)

/-- Specializes quantifiers to values, one after the other. -/
def bindAll (target : String) : List Expression → Building String
  | [] => return target
  | value :: rest => do bindAll (← bind (.name target) value) rest

/-- From an equation and its left side, its right side. -/
def eliminate (equation target : String) : Building String := do
  let (left, right) ← sides equation
  let rule ← bindAll "eq_elim" [left, right]
  let rule ← apply (.name rule) (.name equation)
  apply (.name rule) (.name target)

/-- From a statement and an equation, the statement with the selected occurrences of the left side
replaced by the right side. -/
def replaceEqual (target equation : Reference) (chosen : Occurrences) : Building String := do
  let target ← resolve target
  let equation ← resolve equation
  let statement ← lookup target
  let (a, b) ← sides equation
  -- the record of the replacement equals the result
  let reduction ← substitute statement [⟨a, b⟩] chosen
  let (record, result) ← sides reduction
  -- the record equals the statement
  let congruence ← bindAll "subst_congruence" [statement, a, b, .ofOccurrences chosen]
  let unchanged ← apply (.name congruence) (.name equation)
  -- the statement equals the record
  let symmetry ← bindAll "eq_sym" [record, statement]
  let flipped ← apply (.name symmetry) (.name unchanged)
  -- the statement equals the result
  let transitivity ← bindAll "eq_trans" [statement, record, result]
  let transitivity ← apply (.name transitivity) (.name flipped)
  let bridge ← apply (.name transitivity) (.name reduction)
  eliminate bridge target

end Building

/-! ### Tactics -/

namespace Prover

open Attempt

variable {μ : Type}

/-- Turns a named statement into a universal quantification by writing abbreviations out, at most
`budget` times. Each definition that is used is proved, or else supposed in the frame of its
abbreviation. -/
def exposeWithin (p : Prover μ) : (budget : Nat) → (name : String) → Attempt μ String
  | 0, name => do fail (← step (Building.lookup name)) .tooManyExpansions
  | budget + 1, name => do
    let statement ← step (Building.lookup name)
    match statement with
    | .binder .universal _ _ => return name
    | _ => do
      match ← step (Building.expand? statement) with
      | none => throw (.refused (.notAQuantification name statement))
      | some (index, expansion) => do
        let definition := Expression.equals statement expansion
        let equation ←
          match ← outcome (p.prove definition) with
          | .ok equation => pure equation
          | .error (.failed _ _) => step (Building.supposeAt index definition)
          | .error e => throw e
        exposeWithin p budget (← step (Building.eliminate equation name))

/-- Specializes leading quantifiers to values, writing abbreviations out where necessary. -/
def bindEach (p : Prover μ) (current : String) : List Expression → Attempt μ String
  | [] => return current
  | value :: rest => do
    let exposed ← exposeWithin p maxExpansions current
    let bound ← step (Building.bind (.name exposed) value)
    bindEach p bound rest

/-- Specializes the statement that is meant to values, one for each quantifier. -/
def autobind (p : Prover μ) (target : Reference) (values : List Expression) :
    Attempt μ String := do
  bindEach p (← step (Building.resolve target)) values

/-- Discharges the conditions of a named rule, at most `budget` of them. -/
def dischargeWithin (p : Prover μ) : (budget : Nat) → (current : String) → Attempt μ String
  | 0, current => return current
  | budget + 1, current => do
    match ← step (Building.lookup current) with
    | .implies condition _ => do
      let evidence ← p.prove condition
      dischargeWithin p budget (← step (Building.apply (.name current) (.name evidence)))
    | _ => return current

/-- Discharges the conditions of the rule that is meant until its conclusion is no rule. -/
def autoapply (p : Prover μ) (target : Reference) : Attempt μ String := do
  let name ← step (Building.resolve target)
  let statement ← step (Building.lookup name)
  dischargeWithin p (statement.splitRules.1.length + p.slack) name

/-- Proves a goal from a statement whose conclusion it is an instance of. -/
def backwards (p : Prover μ) (source : Reference) (goal : Expression) : Attempt μ String := do
  let source ← step (Building.resolve source)
  let statement ← step (Building.lookup source)
  let (slots, body) ← step (Building.draw statement.openAlls)
  match body.splitRules.2.match? goal with
  | none => fail goal (.otherConclusion source)
  | some bindings =>
    match slots.mapM bindings.get? with
    | none => fail goal (.undetermined source)
    | some values => do
      let bound ← autobind p (.name source) values
      let applied ← autoapply p (.name bound)
      if (← step (Building.lookup applied)).alphaEq goal then return applied
      else fail goal (.otherResult source)

/-- Specializes a named statement to values in which the holes of a pattern are filled, and
discharges its conditions. -/
def specialize (p : Prover μ) (source : String) (values : List Expression) (bindings : Bindings) :
    Attempt μ String := do
  let values ← step (Building.draw (values.mapM (·.fill bindings)))
  let bound ← autobind p (.name source) values
  autoapply p (.name bound)

/-- Turns a known equation around to prove `left = right`. -/
def turnAround (p : Prover μ) (goal left right : Expression) : Attempt μ String := do
  match (← proofState).«recall?» (.equals right left) with
  | none => fail goal .reverseUnknown
  | some known => do
    let rule ← autobind p (.name "eq_sym") [right, left]
    step (Building.apply (.name rule) (.name known))

/-- Runs the tactic of a rule that matched. -/
def runTactic (p : Prover μ) (external : External μ) (tactic : Tactic) (bindings : Bindings)
    (goal : Expression) : Attempt μ String :=
  match tactic with
  | .specialize source values => specialize p source values bindings
  | .turnAround left right =>
    match bindings.get? left, bindings.get? right with
    | some l, some r => turnAround p goal l r
    | _, _ => fail goal (.stated "unbound pattern")
  | .backwards source => backwards p (.name source) goal
  | .external key => external.run key p bindings goal

end Prover

/-- Registers a rule that proves instances of a statement's conclusion from the statement. -/
def Building.hint (source : Reference) : Building Unit := do
  let source ← resolve source
  let (_, body) ← draw (← lookup source).openAlls
  modify (·.addRule ⟨source, body.splitRules.2, .backwards source⟩)

/-! ### The search -/

namespace Search

open Attempt

variable {μ : Type}

/-- Tries rules in turn. A rule counts if the name that its tactic answers stands for the goal;
otherwise what it did is undone. -/
def tryRules (run : Rule → Bindings → Attempt μ String) (goal : Expression) :
    List Rule → Attempt μ String
  | [] => fail goal .noRule
  | rule :: rest =>
    match rule.pattern.match? goal with
    | none => tryRules run goal rest
    | some bindings => do
      let checkpoint := (← proofState).checkpoint
      match ← outcome (run rule bindings) with
      | .ok name =>
        if ((← proofState).get? name).any (·.alphaEq goal) then return name
        else
          modifyState (·.rollback checkpoint)
          tryRules run goal rest
      | .error (.failed _ _) =>
        modifyState (·.rollback checkpoint)
        tryRules run goal rest
      | .error e =>
        modifyState (·.rollback checkpoint)
        throw e

/-- Counts a search as under way while `act` runs. -/
def counted (act : Attempt μ String) : Attempt μ String := do
  modifyState fun s ↦ { s with searching := s.searching + 1 }
  let result ← outcome act
  modifyState fun s ↦ { s with searching := s.searching - 1 }
  ofOutcome result

/-- Searches for a proof, with at most `levels` searches inside this one. -/
def proveAt (external : External μ) (levels : Nat) (goal : Expression) : Attempt μ String := do
  let s ← proofState
  match s.«recall?» goal with
  | some name => return name
  | none =>
    -- a statement that does not hold would prove its negation, which is of no use here
    if goal.evaluate matches .ok true then step (Building.verify goal)
    else if s.searchLimit ≤ s.searching then fail goal .searchLimit
    else
      match levels with
      | 0 => fail goal .searchLimit
      | levels + 1 =>
        let inner : Prover μ := ⟨proveAt external levels, external.slack⟩
        let run := fun (rule : Rule) bindings ↦
          inner.runTactic external rule.tactic bindings goal
        counted (tryRules run goal (s.frames.flatMap (·.rules)))

/-- Searches for a proof within the limit of the proof state. -/
def prove (external : External μ) (goal : Expression) : Attempt μ String := do
  let s ← proofState
  proveAt external (max s.searchLimit external.reach - s.searching) goal

/-- The search as tactics use it. -/
def prover (external : External μ) : Prover μ := ⟨prove external, external.slack⟩

end Search

end NaturalDeduction
