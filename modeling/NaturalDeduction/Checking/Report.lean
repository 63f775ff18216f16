import NaturalDeduction.Checking.FileTree
import NaturalDeduction.Prelude
import NaturalDeduction.Script.Interpreter
import NaturalDeduction.Json

/-!
# Checking script files

Every script is run in a proof state of its own. What is kept from one script to the next is the
counter of variables, so no two scripts of a run speak of the same variable.

Files that are named are checked whatever they are called; directories are searched for scripts. A
path without a file, a directory or a script, or a file that is not text, ends the whole run.
-/

namespace NaturalDeduction.Checking

/-- How scripts are to be checked. -/
structure Config where
  /-- The extension of the files that are scripts. -/
  extension : String := "nd"
  searchLimit : Nat := defaultSearchLimit
  /-- Whether a script starts with the prelude. -/
  prelude : Bool := true

/-- How a script ended. -/
inductive Outcome where
  | verified
  | aborted
  | failed
  deriving DecidableEq, Inhabited

/-- The outcome in one word. -/
def Outcome.word : Outcome → String
  | verified => "Verified"
  | aborted => "Aborted"
  | failed => "Failed"

/-- What happened to one script. -/
structure Event where
  path : String
  outcome : Outcome
  /-- The theorems of the outermost goals and deductions. -/
  proved : List String := []
  /-- What the script showed. -/
  shown : List String := []
  /-- Why the script did not run to its end. -/
  message : Option String := none
  /-- The line that it stopped at. -/
  line : Option Nat := none
  deriving Inhabited

/-- How a run went as a whole. -/
inductive Status where
  /-- All scripts ran to their ends. -/
  | good
  /-- Some script was aborted. -/
  | warning
  /-- Some script failed. -/
  | error
  deriving DecidableEq, Inhabited

namespace Status

/-- The status in one word. -/
def word : Status → String
  | good => "Good"
  | warning => "Warning"
  | error => "Error"

/-- What a run with this status did. -/
def verb : Status → String
  | good => "succeeded"
  | warning => "warned"
  | error => "errored"

/-- The status after one more script. -/
def after : Status → Outcome → Status
  | s, .verified => s
  | good, .aborted => warning
  | s, .aborted => s
  | _, .failed => error

end Status

/-- Counts over all scripts of a run. -/
structure Metrics where
  total : Nat := 0
  verified : Nat := 0
  aborted : Nat := 0
  failed : Nat := 0
  commands : Nat := 0
  theorems : Nat := 0
  deriving DecidableEq, Inhabited

/-- The counts after one more script that ran the given number of commands. -/
def Metrics.after (m : Metrics) (event : Event) (commands : Nat) : Metrics :=
  let m := { m with
    total := m.total + 1
    commands := m.commands + commands
    theorems := m.theorems + event.proved.length }
  match event.outcome with
  | .verified => { m with verified := m.verified + 1 }
  | .aborted => { m with aborted := m.aborted + 1 }
  | .failed => { m with failed := m.failed + 1 }

/-- What a run reports. -/
structure Report where
  status : Status
  metrics : Metrics
  events : List Event
  deriving Inhabited

/-- Why a run ended without a report. -/
inductive Failure where
  /-- A file cannot be read. -/
  | unreadable (path message : String)
  /-- There is nothing to check. -/
  | noScripts (paths : List String)
  deriving DecidableEq, Inhabited

/-- The failure in words. -/
def Failure.message : Failure → String
  | unreadable path message => "error reading " ++ path ++ ": " ++ message
  | noScripts paths => "no scripts found in " ++ ", ".intercalate paths

/-! ### One script -/

/-- The message for a script that stopped. The place is named first only if the text is at fault. -/
def stopMessage (stop : Script.Stop) : String :=
  match stop with
  | .unreadable _ => stop.message
  | .malformed _ _ => stop.message
  | _ => stop.kind ++ ": " ++ stop.message

/-- Checks the text of a script, and counts its commands. Of a script that failed none are
counted. -/
def checkText (config : Config) (path text : String) : Fresh (Event × Nat) := fun next ↦
  let state := ProofState.initial next config.searchLimit
  let (installed, state) :=
    if config.prelude then Prelude.install.run.run state else (.ok (), state)
  match installed with
  | .error refusal =>
    ((⟨path, .failed, [], [], some refusal.message, none⟩, 0), state.nextVariable)
  | .ok () =>
    let (result, session) :=
      Script.run (Search.prover External.none) text (⟨state, ()⟩ : Session Unit)
    let report : Event × Nat :=
      match result with
      | .ok output =>
        match output.aborted with
        | none => (⟨path, .verified, output.proved, output.shown, none, none⟩, output.commands)
        | some abort =>
          (⟨path, .aborted, output.proved, output.shown, some abort.reason, none⟩,
            output.commands)
      | .error stop => (⟨path, .failed, [], [], some (stopMessage stop), stop.line?⟩, 0)
    (report, session.state.nextVariable)

/-! ### Many scripts -/

/-- The scripts under paths, in the order of the paths, each with what `look` finds there. -/
def collect (config : Config) (look : String → Option FileTree) :
    List String → Except Failure (List (String × FileTree))
  | [] => .ok []
  | path :: rest => do
    match look path with
    | none => .error (.unreadable path "no such file or directory")
    | some tree => do
      let here := if tree.isDirectory then tree.scripts config.extension path "" else [(path, tree)]
      return here ++ (← collect config look rest)

/-- Checks files in turn. -/
def checkFiles (config : Config) (report : Report) :
    List (String × FileTree) → ExceptT Failure Fresh Report
  | [] => return report
  | (path, tree) :: rest => do
    match tree.text with
    | .error message => throw (.unreadable path message)
    | .ok text => do
      let (event, commands) ← checkText config path text
      checkFiles config
        ⟨report.status.after event.outcome, report.metrics.after event commands,
          report.events ++ [event]⟩ rest

/-- Checks all scripts under paths. -/
def run (config : Config) (look : String → Option FileTree) (paths : List String) :
    ExceptT Failure Fresh Report := do
  match collect config look paths with
  | .error failure => throw failure
  | .ok [] => throw (.noScripts paths)
  | .ok files => checkFiles config ⟨.good, {}, []⟩ files

/-! ### Reports as JSON -/

/-- An event as JSON. -/
def Event.toJson (e : Event) : Json :=
  .object [
    ("path", .string e.path),
    ("outcome", .string e.outcome.word),
    ("proved", .strings e.proved),
    ("shown", .strings e.shown),
    ("message", .ofOption .string e.message),
    ("line", .ofOption (fun n ↦ .number n) e.line)]

/-- Counts as JSON. -/
def Metrics.toJson (m : Metrics) : Json :=
  .object [
    ("files_total", .number m.total),
    ("files_verified", .number m.verified),
    ("files_aborted", .number m.aborted),
    ("files_failed", .number m.failed),
    ("commands", .number m.commands),
    ("theorems", .number m.theorems)]

/-- A report as JSON. -/
def Report.toJson (r : Report) : Json :=
  .object [
    ("status", .string r.status.word),
    ("metrics", r.metrics.toJson),
    ("events", .array (r.events.map Event.toJson))]

end NaturalDeduction.Checking
