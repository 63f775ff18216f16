import NaturalDeduction.ProofState.Basic
import NaturalDeduction.ProofState.Refusal
import NaturalDeduction.Inference

/-!
# Steps of construction

The ways to add to a proof state. A step either succeeds or answers a refusal, and the state that it
has reached stays in both cases: variables drawn and names generated by a refused step are used up.

Every inference computes its conclusion before a name is generated for it. Closing a deduction asks
for its theorem before anything is taken off the stack; from then on the deduction is closed, even
if the name of its theorem turns out to be taken.
-/

namespace NaturalDeduction

/-- Computations on a proof state that may be refused. The state reached is kept either way. -/
abbrev Building := ExceptT Refusal (StateM ProofState)

namespace Building

/-- Draws variables. -/
def draw {α : Type} (f : Fresh α) : Building α :=
  modifyGet fun s ↦ let (a, next) := f.run s.nextVariable; (a, { s with nextVariable := next })

/-- A name that no visible statement has. -/
def freshName : Building String :=
  modifyGet fun s ↦
    let n := s.freeNumber
    (ProofState.generatedName n, { s with nextName := n + 1 })

/-- The given name, or a generated one. -/
def nameOrFresh : Option String → Building String
  | some name => pure name
  | none => freshName

/-- The statement with a name. -/
def lookup (name : String) : Building Expression := do
  match (← get).get? name with
  | some e => return e
  | none => throw (.unknownName name)

/-- The name that a reference means. -/
def resolve : Reference → Building String
  | .name name => do
    let _ ← lookup name
    return name
  | .relative k => do
    match (← get).nameAt? k with
    | some name => return name
    | none => throw (.badIndex k)

/-- The statement that a reference means. -/
def proposition (r : Reference) : Building Expression := do lookup (← resolve r)

/-- Adds an entry to the current deduction. -/
def install (name : String) (statement : Expression) (justification : Justification) :
    Building String := do
  let s ← get
  match s.current.deduction.insert ⟨name, statement, justification⟩ with
  | .ok d => set (s.mapDeduction fun _ ↦ d)
  | .error existing => throw (.nameTaken name existing statement)
  return name

/-- Adds a conclusion to the current deduction under a generated name. -/
def conclude (statement : Expression) (justification : Justification) : Building String := do
  let name ← freshName
  install name statement justification

/-! ### Conditions and parameters -/

/-- Supposes a statement in the current deduction. To suppose an equal statement under the same name
again does nothing. -/
def suppose (name : Option String) (statement : Expression) : Building String := do
  let name ← nameOrFresh name
  install name statement .supposition

/-- Supposes a statement in the deduction with an index, counted from the root. -/
def supposeAt (index : Nat) (statement : Expression) : Building String := do
  let name ← freshName
  let s ← get
  match s.frameAt? index with
  | none => throw .rootStays
  | some frame =>
    match frame.deduction.insert ⟨name, statement, .supposition⟩ with
    | .ok d => set (s.setFrameAt index { frame with deduction := d })
    | .error existing => throw (.nameTaken name existing statement)
  return name

/-- Draws a variable and makes it a parameter of the current deduction. -/
def newParameter (hint : String) : Building Variable := do
  let v ← draw (Variable.fresh hint)
  modify (·.mapDeduction (·.addParameter v))
  return v

/-- Makes a variable a parameter of the current deduction, unless an enclosing one mentions it. -/
def addParameter (v : Variable) : Building Unit := do
  let s ← get
  match s.parameterObstacle? v with
  | some none => throw (.parameterShared v)
  | some (some name) => throw (.parameterFree v name)
  | none => set (s.mapDeduction (·.addParameter v))

/-! ### Inferences -/

/-- Specializes a universal quantification. -/
def bind (target : Reference) (value : Expression) : Building String := do
  let target ← resolve target
  let statement ← lookup target
  match ← draw (Inference.specialize? statement value) with
  | some conclusion => conclude conclusion (.specialization target value)
  | none => throw (.notAQuantification target statement)

/-- Applies a rule to its condition. -/
def apply (rule condition : Reference) : Building String := do
  let rule ← resolve rule
  let condition ← resolve condition
  let ruleStatement ← lookup rule
  let given ← lookup condition
  match Inference.detach ruleStatement given with
  | .ok conclusion => conclude conclusion (.detachment rule condition)
  | .error .notARule => throw (.notARule rule ruleStatement)
  | .error (.otherCondition expected) => throw (.otherCondition rule expected given)

/-- Equates the record of a replacement with its result. -/
def substitute (target : Expression) (replacements : List Replacement) (chosen : Occurrences) :
    Building String := do
  let conclusion ← draw (Inference.replacement target replacements chosen)
  conclude conclusion (.replacement target replacements chosen)

/-- Proves a ground statement, or its negation if it does not hold. -/
def verify (e : Expression) : Building String := do
  match Inference.verify e with
  | .ok (conclusion, holds) => conclude conclusion (.verification e holds)
  | .error error => throw (.undecided error)

/-! ### Opening and closing deductions -/

/-- Opens a deduction inside the current one and answers the new depth. -/
def push (name : Option String) : Building Nat := do
  let name ← nameOrFresh name
  modifyGet fun s ↦
    let s' := { s with current := { deduction := .empty name }, enclosing := s.frames }
    (s'.depth, s')

/-- Closes the current deduction and hands it out. -/
def pop : Building Deduction := do
  let s ← get
  match s.enclosing with
  | [] => throw .rootStays
  | frame :: rest =>
    set { s with current := frame, enclosing := rest }
    return s.current.deduction

/-- The theorem of the current deduction. -/
def currentTheorem : Building Expression := do
  let d := (← get).current.deduction
  match d.closedTheorem? with
  | some e => return e
  | none => throw (.nothingDerived d.name)

/-- Closes the current deduction and installs its theorem around it, under the given name or under
the name of the deduction. -/
def close (name : Option String) : Building String := do
  if (← get).enclosing.isEmpty then throw .rootStays
  let statement ← currentTheorem
  let d ← pop
  install (name.getD d.name) statement (.deduction d)

/-! ### Guarded deductions

A deduction that is opened for a purpose is never left open: it is closed at the depth it was opened
at, and if that fails, or if it is not closed at all, it is discarded with all that was opened
inside it. -/

/-- Discards the deduction that was opened at `depth`. -/
def abandon (depth : Nat) : Building Unit := modify (·.truncate (depth - 1))

/-- Runs the closing of the deduction that was opened at `depth`. -/
def closing {α : Type} (depth : Nat) (act : Building α) : Building α := do
  modify (·.truncate depth)
  tryCatch act fun refusal ↦ do
    abandon depth
    throw refusal

/-- Closes the deduction that was opened at `depth` with its theorem. -/
def closeAt (depth : Nat) (name : Option String) : Building String := closing depth (close name)

/-- Closes the deduction that was opened at `depth` and hands it out. -/
def finishAt (depth : Nat) : Building Deduction := closing depth pop

end Building

end NaturalDeduction
