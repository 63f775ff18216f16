import NaturalDeduction.Script.Basic

/-!
# Running scripts

Commands are run one at a time. Besides the session, a run keeps the names that the script gave to
variables, its output, and how many goals and deductions it is inside of.

A command may take effect in part before it stops: what is read is read in the order in which it
stands, except that the target of `bind` is looked up before the values are read and the targets of
the other tactics after. The names that are defined in a goal or a deduction are forgotten behind
it; those defined in a `try` block are forgotten only if the block is aborted.
-/

namespace NaturalDeduction.Script

/-- A script in the middle of its run. -/
structure Run (μ : Type) where
  session : Session μ
  scope : Scope
  output : Output
  /-- How many goals and deductions are around the current command. -/
  nesting : Nat

/-- A run that begins. -/
def Run.start {μ : Type} (session : Session μ) : Run μ := ⟨session, [], {}, 0⟩

/-- Computations of a run. What was done before a stop stays done. -/
abbrev Running (μ : Type) := ExceptT Stop (StateM (Run μ))

namespace Running

variable {μ α : Type}

/-! ### Steps -/

/-- Makes an attempt for a command at a place. -/
def attempt (position : Position) (act : Attempt μ α) : Running μ α :=
  fun run ↦
    let (result, session) := act.run.run run.session
    (result.mapError (.ofSetback position), { run with session := session })

/-- A step of construction for a command at a place. -/
def step (position : Position) (act : Building α) : Running μ α := attempt position (.step act)

/-- Changes the proof state. -/
def modifyState (f : ProofState → ProofState) : Running μ Unit :=
  modify fun run ↦
    { run with session := { run.session with state := f run.session.state } }

/-- Runs and reports how it ended. -/
def outcome (act : Running μ α) : Running μ (Except Stop α) :=
  fun run ↦ let (result, run') := act.run.run run; (.ok result, run')

/-- Ends like a reported run. -/
def ofOutcome : Except Stop α → Running μ α
  | .ok a => return a
  | .error stop => throw stop

/-- Counts a command. -/
def count : Running μ Unit :=
  modify fun run ↦ { run with output.commands := run.output.commands + 1 }

/-- Gives a name to a variable. -/
def define (name : String) (v : Variable) : Running μ Unit :=
  modify fun run ↦ { run with scope := (name, v) :: run.scope }

/-- Reports a theorem, if no goal or deduction is around it. -/
def record (name : String) : Running μ Unit :=
  modify fun run ↦
    if run.nesting = 0 then { run with output.proved := run.output.proved ++ [name] } else run

/-- Runs `act` inside a goal or deduction that was opened at `depth`. The names that it defines are
forgotten behind it, and the deduction is discarded if it stops. -/
def inside (depth : Nat) (act : Running μ α) : Running μ α := do
  let scope := (← get).scope
  modify fun run ↦ { run with nesting := run.nesting + 1 }
  let result ← outcome act
  modify fun run ↦ { run with nesting := run.nesting - 1, scope := scope }
  if result matches .error _ then modifyState (·.truncate (depth - 1))
  ofOutcome result

/-! ### Parts of commands -/

/-- A word that is needed. -/
def word (e : SExpr) (fault : Fault) : Running μ String :=
  match e.word? with
  | some text => return text
  | none => throw (.malformed fault e.position)

/-- An expression, with holes of its own. -/
def expression (e : SExpr) : Running μ Expression :=
  fun run ↦
    let state := run.session.state
    let (result, read) := (e.read run.scope).run.run ⟨[], state.nextVariable⟩
    (result.mapError .unreadable,
      { run with session.state := { state with nextVariable := read.next } })

/-- Expressions, each with holes of its own. -/
def expressions (es : List SExpr) : Running μ (List Expression) := es.mapM expression

end Running

/-- What a word refers to: a minus sign and a number of 64 bits go back from the end, anything else
is a name. -/
def referenceOf (text : String) : Reference :=
  match text.toList with
  | '-' :: rest =>
    match Number.natural? rest with
    | some n => if n ≤ UInt64.size / 2 then .relative (-n) else .name text
    | none => .name text
  | _ => .name text

/-- The index that a word denotes: a number of 64 bits, with or without a plus sign. -/
def indexOf? (text : String) : Option Nat := do
  let n ← Number.natural? (match text.toList with | '+' :: rest => rest | cs => cs)
  if n < UInt64.size then some n else none

namespace Running

variable {μ α : Type}

/-- A reference. -/
def reference (e : SExpr) : Running μ Reference := do
  return referenceOf (← word e .notAReference)

/-- A set of occurrences, given by its indices. -/
def occurrences (es : List SExpr) : Running μ Occurrences := do
  let indices ← es.mapM fun e ↦ do
    match indexOf? (← word e .notAnIndex) with
    | some i => return i
    | none => throw (.malformed .notAnIndex e.position)
  return .ofList indices

/-- The replacements of a list of keys and values. -/
def replacements (es : List SExpr) : Running μ (List Replacement) :=
  es.mapM fun e ↦ do
    match e.items? with
    | some [key, value] => return ⟨← expression key, ← expression value⟩
    | _ => throw (.malformed .notAReplacement e.position)

/-! ### Commands without inner commands -/

/-- Runs a command that contains no commands. -/
def simple (p : Prover μ) (e : SExpr) (head : String) (verb : Option Verb) (args : List SExpr) :
    Running μ Unit := do
  let place := e.position
  match verb, args with
  | some .posit, [name, statement] => do
    let name ← word name .notAName
    let statement ← expression statement
    discard (step place (Building.suppose (some name) statement))
  | some .suppose, [statement] => do
    let statement ← expression statement
    discard (step place (Building.suppose none statement))
  | some .suppose, [name, statement] => do
    let name ← word name .notAName
    let statement ← expression statement
    discard (step place (Building.suppose (some name) statement))
  | some .quantify, name :: names =>
    (name :: names).forM fun name ↦ do
      let name ← word name .notAVariableName
      define name (← step place (Building.newParameter name))
  | some .bind, target :: value :: values => do
    let target ← step place (Building.resolve (← reference target))
    let values ← expressions (value :: values)
    discard (step place (Building.bindAll target values))
  | some .apply, [rule, condition] => do
    let rule ← reference rule
    let condition ← reference condition
    discard (step place (Building.apply rule condition))
  | some .substitute, [target, pairs] => do
    let target ← expression target
    match pairs.items? with
    | none => throw (.malformed .notReplacements place)
    | some pairs => do
      let replacements ← replacements pairs
      discard (step place (Building.substitute target replacements .all))
  | some .substitute, [target, pairs, indices] => do
    let target ← expression target
    match pairs.items? with
    | none => throw (.malformed .notReplacements place)
    | some pairs => do
      let replacements ← replacements pairs
      match indices.items? with
      | none => throw (.malformed .notIndices indices.position)
      | some indices => do
        let chosen ← occurrences indices
        discard (step place (Building.substitute target replacements chosen))
  | some .verify, [statement] => do
    let statement ← expression statement
    discard (step place (Building.verify statement))
  | some .introduce, _ => throw (.malformed .notInAGoal place)
  | some .intros, _ => throw (.malformed .notInAGoal place)
  | some .autodeduce, [statement] => do
    let statement ← expression statement
    discard (attempt place (p.prove statement))
  | some .autobind, target :: value :: values => do
    let values ← expressions (value :: values)
    let target ← reference target
    discard (attempt place (p.autobind target values))
  | some .autoapply, [target] => do
    let target ← reference target
    discard (attempt place (p.autoapply target))
  | some .replaceEqual, target :: equation :: indices => do
    let target ← reference target
    let equation ← reference equation
    let chosen ← occurrences indices
    discard (step place (Building.replaceEqual target equation chosen))
  | some .backwards, [source, statement] => do
    let statement ← expression statement
    let source ← reference source
    discard (attempt place (p.backwards source statement))
  | some .hint, [source] => do
    let source ← reference source
    step place (Building.hint source)
  | some .expect, [target, statement] => do
    let expected ← expression statement
    let target ← reference target
    let actual ← step place (Building.proposition target)
    if !expected.alphaEq actual then throw (.unexpected expected actual place)
  | some .display, [target] => do
    let target ← reference target
    let name ← step place (Building.resolve target)
    let statement ← step place (Building.lookup name)
    modify fun run ↦
      { run with output.shown := run.output.shown ++ [name ++ ": " ++ statement.print] }
  | some .abort, [] => throw (.aborted ⟨"abort", none⟩)
  | some .abort, [reason] =>
    match reason with
    | .word text _ => throw (.aborted ⟨text, none⟩)
    | .quotation text _ => throw (.aborted ⟨text, none⟩)
    | .list position _ => throw (.malformed .notAReason position)
  | _, _ => throw (.malformed (.unknown head) place)

/-! ### Goals -/

/-- Peels one layer of a goal. Answers the goal and whether there was anything to peel. A parameter
is defined under the given name, or under its hint. -/
def introduce (g : Goal) (name : Option String) (position : Position) :
    Running μ (Goal × Bool) := do
  let act : Building (Introduction × Goal) := fun s ↦
    let (result, (g', s')) := (Goal.introduce name).run.run (g, s)
    (result.map (·, g'), s')
  let (introduction, g') ← step position act
  match introduction with
  | .parameter v => do
    define (name.getD v.hint) v
    return (g', true)
  | .hypothesis _ _ => return (g', true)
  | .done => return (g', false)

/-- Peels a layer for each name; there has to be one. -/
def introduceNamed (g : Goal) (position : Position) : List SExpr → Running μ Goal
  | [] => return g
  | e :: rest => do
    let name ← word e .notAName
    match ← introduce g (some name) position with
    | (g', true) => introduceNamed g' position rest
    | (_, false) => throw (.malformed .nothingToIntroduce e.position)

/-- Peels until nothing is left, at most `budget` layers. -/
def introduceRest (position : Position) : (budget : Nat) → Goal → Running μ Goal
  | 0, g => return g
  | budget + 1, g => do
    match ← introduce g none position with
    | (g', true) => introduceRest position budget g'
    | (g', false) => return g'

/-! ### Commands -/

mutual

/-- Runs a command. -/
def command (p : Prover μ) : SExpr → Running μ Unit
  | .list position (.word head place :: args) => do
    count
    match Verb.ofWord? head, args with
    | some .deduction, .word name _ :: body => do
      let depth ← step position (Building.push (some name))
      inside depth (block p body)
      record (← step position (Building.closeAt depth none))
    | some .deduction, body => do
      let depth ← step position (Building.push none)
      inside depth (block p body)
      record (← step position (Building.closeAt depth none))
    | some .goal, name :: statement :: body => do
      let name ← word name .notAName
      let statement ← expression statement
      let g ← step position (Goal.start (some name) statement)
      let g ← inside g.depth (goalBlock p g body)
      record (← step position g.conclude)
    | some .attempt, body => do
      let run ← get
      let checkpoint := run.session.state.checkpoint
      match ← outcome (block p body) with
      | .ok () => return
      | .error (.aborted _) => do
        modifyState (·.rollback checkpoint)
        modify fun run' ↦ { run' with scope := run.scope }
      | .error stop => throw stop
    | verb, args => simple p (.list position (.word head place :: args)) head verb args
  | e => throw (.malformed .notACommand e.position)
termination_by e => 3 * e.size
decreasing_by all_goals simp only [SExpr.size, SExpr.sizes]; omega

/-- Runs commands one after the other. -/
def block (p : Prover μ) : List SExpr → Running μ Unit
  | [] => return
  | e :: rest => do
    command p e
    block p rest
termination_by es => 3 * SExpr.sizes es + 1
decreasing_by all_goals have := e.size_pos; simp only [SExpr.sizes]; omega

/-- Runs a command directly inside a goal, where introductions are possible. -/
def goalCommand (p : Prover μ) (g : Goal) (e : SExpr) : Running μ Goal := do
  let (head, args) := e.form?.getD ("", [])
  match Verb.ofWord? head, args with
  | some .introduce, [] => do
    count
    return (← introduce g none e.position).1
  | some .introduce, [name] => do
    count
    let name ← word name .notAName
    return (← introduce g (some name) e.position).1
  | some .intros, names => do
    count
    let g ← introduceNamed g e.position names
    introduceRest e.position (g.remaining.size + 1) g
  | _, _ => do
    command p e
    return g
termination_by 3 * e.size + 1
decreasing_by all_goals omega

/-- Runs commands inside a goal. -/
def goalBlock (p : Prover μ) (g : Goal) : List SExpr → Running μ Goal
  | [] => return g
  | e :: rest => do
    let g ← goalCommand p g e
    goalBlock p g rest
termination_by es => 3 * SExpr.sizes es + 2
decreasing_by all_goals have := e.size_pos; simp only [SExpr.sizes]; omega

end

end Running

/-- Runs the commands of a script from the outside: an abort ends the script, and so does any other
stop; either way every deduction that the script opened is discarded. -/
def runCommands {μ : Type} (p : Prover μ) (depth : Nat) : List SExpr → Running μ Output
  | [] => do return (← get).output
  | e :: rest => do
    match ← Running.outcome (Running.command p e) with
    | .ok () => runCommands p depth rest
    | .error (.aborted abort) => do
      Running.modifyState (·.truncate depth)
      return { (← get).output with aborted := some abort }
    | .error stop => do
      Running.modifyState (·.truncate depth)
      throw stop

/-- Runs a script in a session. -/
def run {μ : Type} (p : Prover μ) (text : String) (session : Session μ) :
    Except Stop Output × Session μ :=
  match SExpr.parse text with
  | .error e => (.error (.unreadable e), session)
  | .ok commands =>
    let (result, r) := (runCommands p session.state.depth commands).run.run (.start session)
    (result, r.session)

end NaturalDeduction.Script
