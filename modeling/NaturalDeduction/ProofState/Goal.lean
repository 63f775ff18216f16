import NaturalDeduction.ProofState.Steps

/-!
# Goals

A goal is a statement to be proved and the deduction that is to prove it. Introductions peel the
statement: a universal quantifier becomes a parameter of the deduction, which is always a fresh
variable, and the condition of a rule becomes a condition of the deduction. What is left is what has
to be derived. The theorem of the deduction then has the stated form, as far as the order of
quantifiers and conditions allows; this is checked when the goal is concluded, and the order of
conjuncts, disjuncts and sides of equations is left open.
-/

namespace NaturalDeduction

/-- How far a goal has come. -/
inductive GoalPhase where
  /-- Nothing has been introduced. -/
  | untouched
  /-- Something has been introduced. -/
  | peeling
  | concluded
  deriving DecidableEq, Inhabited

/-- A statement to be proved, and where. -/
structure Goal where
  /-- The name for the theorem; the name of the deduction if there is none. -/
  name : Option String
  /-- What is to be proved. -/
  statement : Expression
  /-- What is left to be derived. -/
  remaining : Expression
  phase : GoalPhase
  /-- The depth of the goal's deduction. -/
  depth : Nat
  deriving Inhabited

/-- What an introduction did. -/
inductive Introduction where
  /-- A quantifier became a parameter. -/
  | parameter (v : Variable)
  /-- A condition was supposed. -/
  | hypothesis (name : String) (statement : Expression)
  /-- There was nothing to introduce. -/
  | done
  deriving Inhabited

/-- Computations on a goal and the proof state that it belongs to. -/
abbrev GoalBuilding := ExceptT Refusal (StateM (Goal × ProofState))

namespace Goal

/-- A step on the proof state alone. -/
def step {α : Type} (act : Building α) : GoalBuilding α :=
  fun (g, s) ↦ let (result, s') := act.run.run s; (result, (g, s'))

/-- Opens a deduction for a goal. -/
def start (name : Option String) (statement : Expression) : Building Goal := do
  let depth ← Building.push name
  return ⟨name, statement, statement, .untouched, depth⟩

/-- Records that something was introduced. -/
def peeled (remaining : Expression) : GoalBuilding Unit :=
  modify fun (g, s) ↦ ({ g with remaining := remaining, phase := .peeling }, s)

/-- Peels one quantifier or one condition. A condition is supposed under the given name. -/
def introduce (name : Option String) : GoalBuilding Introduction := do
  let (g, _) ← get
  if g.phase = .concluded then throw (.goalClosed g.statement)
  match g.remaining with
  | .binder .universal v body => do
    let w ← step (Building.draw v.refresh)
    let body' ← step (Building.draw (body.substitute [⟨.var v, .var w⟩] .all))
    step (Building.addParameter w)
    peeled body'
    return .parameter w
  | .implies condition conclusion => do
    let name ← step (Building.suppose name condition)
    peeled conclusion
    return .hypothesis name condition
  | _ => return .done

/-- Introduces until nothing is left to peel, at most `budget` times. -/
def introsWithin : (budget : Nat) → GoalBuilding (List Introduction)
  | 0 => return []
  | budget + 1 => do
    match ← introduce none with
    | .done => return []
    | introduction => return introduction :: (← introsWithin budget)

/-- Introduces until nothing is left to peel. There are no more layers than nodes. -/
def intros : GoalBuilding (List Introduction) := do
  let (g, _) ← get
  introsWithin (g.remaining.size + 1)

/-- Checks that the goal's deduction proves the statement, and closes it. If it does not, or cannot
be closed, the deduction is discarded. -/
def conclude (g : Goal) : Building String := do
  if g.phase = .concluded then throw (.goalClosed g.statement)
  Building.closing g.depth do
    let actual ← Building.currentTheorem
    if !actual.equalUpTo .all g.statement then throw (.goalMissed g.statement actual)
    Building.close g.name

end Goal

end NaturalDeduction
