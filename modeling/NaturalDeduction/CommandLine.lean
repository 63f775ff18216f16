import NaturalDeduction.Checking.Report

/-!
# The command line

`check` runs script files and reports on them, as text or as JSON; `show` reads an expression and
prints it back, with its truth value if it has one.

Arguments are taken apart here as well. An option may stand before or behind the paths, but not
twice at one level; its value is the next argument, or follows an equality sign; behind two dashes
everything is a path. Arguments that make no sense end the program with code 2 before anything is
done. Code 1 says that something was found wrong, code 0 that nothing was.
-/

namespace NaturalDeduction.CommandLine

/-- What the program is asked for. -/
inductive Request where
  | check (paths : List String) (searchLimit : Option Nat) (withPrelude json verbose : Bool)
  | display (expression : String)
  | version
  | help
  deriving Inhabited

/-- What the program answers: its exit code and its output. -/
structure Answer where
  code : Nat
  output : String
  deriving DecidableEq, Inhabited

/-! ### Arguments -/

/-- What has been read of the arguments of a subcommand. -/
structure Options where
  verbose : Bool := false
  json : Bool := false
  noPrelude : Bool := false
  searchLimit : Option Nat := none
  /-- Arguments that are no options, newest first. -/
  operands : List String := []

/-- The number that an option has as its value: 64 bits, with or without a plus sign. -/
def limit? (text : String) : Option Nat := Script.indexOf? text

/-- What to do after an argument has been read. -/
inductive Progress where
  | more (options : Options)
  | help
  | wrong

/-- Reads letters behind a single dash. -/
def readLetters (options : Options) : List Char → Progress
  | [] => .more options
  | 'v' :: rest =>
    if options.verbose then .wrong else readLetters { options with verbose := true } rest
  | 'h' :: _ => .help
  | _ :: _ => .wrong

/-- Reads the arguments of a subcommand. `checking` says whether the options of `check` apply.
Behind two dashes, `literal`, there are no options. -/
def readArguments (checking : Bool) : (literal : Bool) → Options → List String → Option Progress
  | _, options, [] => some (.more options)
  | true, options, arg :: rest =>
    readArguments checking true { options with operands := arg :: options.operands } rest
  | false, options, "--" :: rest => readArguments checking true options rest
  | false, options, "--verbose" :: rest =>
    if options.verbose then some .wrong
    else readArguments checking false { options with verbose := true } rest
  | false, _, "--help" :: _ => some .help
  | false, options, "--json" :: rest =>
    if !checking || options.json then some .wrong
    else readArguments checking false { options with json := true } rest
  | false, options, "--no-prelude" :: rest =>
    if !checking || options.noPrelude then some .wrong
    else readArguments checking false { options with noPrelude := true } rest
  | false, options, "--max-depth" :: value :: rest =>
    if !checking || options.searchLimit.isSome then some .wrong
    else
      match limit? value with
      | none => some .wrong
      | some n => readArguments checking false { options with searchLimit := some n } rest
  | false, options, arg :: rest =>
    match arg.toList with
    | '-' :: '-' :: name =>
      match Number.splitOnce '=' name with
      | some (key, value) =>
        if String.ofList key ≠ "max-depth" ∨ !checking ∨ options.searchLimit.isSome then
          some .wrong
        else
          match limit? (String.ofList value) with
          | none => some .wrong
          | some n => readArguments checking false { options with searchLimit := some n } rest
      | none => some .wrong
    | '-' :: c :: letters =>
      match readLetters options (c :: letters) with
      | .more options => readArguments checking false options rest
      | progress => some progress
    | name =>
      -- `show` takes just one expression, and a path has a name
      if (!checking && !options.operands.isEmpty) || (checking && name.isEmpty) then some .wrong
      else readArguments checking false { options with operands := arg :: options.operands } rest

/-- The request that the arguments behind a subcommand make. -/
def subcommand (verbose checking : Bool) (args : List String) : Option Request :=
  match readArguments checking false {} args with
  | some .help => some .help
  | some (.more options) =>
    if checking then
      if options.operands.isEmpty ∨ options.operands.any (·.isEmpty) then none
      else
        some (.check options.operands.reverse options.searchLimit (!options.noPrelude)
          options.json (verbose || options.verbose))
    else
      match options.operands with
      | [e] => some (.display e)
      | _ => none
  | _ => none

/-- The request that all arguments make, if they make sense. -/
def request? (verbose : Bool) : List String → Option Request
  | [] => none
  | "check" :: rest => subcommand verbose true rest
  | "show" :: rest => subcommand verbose false rest
  | ["help"] => some .help
  | ["help", topic] => if topic ∈ ["check", "show", "help"] then some .help else none
  | "--version" :: _ => some .version
  | "--help" :: _ => some .help
  | "--verbose" :: rest => if verbose then none else request? true rest
  | arg :: rest =>
    match arg.toList with
    | '-' :: c :: letters => letterOptions verbose (c :: letters) rest
    | _ => none
where
  /-- Reads letters behind a single dash in front of the subcommand. -/
  letterOptions (verbose : Bool) : List Char → List String → Option Request
    | [], rest => request? verbose rest
    | 'v' :: letters, rest => if verbose then none else letterOptions true letters rest
    | 'V' :: _, _ => some .version
    | 'h' :: _, _ => some .help
    | _ :: _, _ => none

/-! ### Answers -/

/-- The lines for one script. -/
def eventLines (verbose : Bool) (e : Checking.Event) : List String :=
  let message := e.message.getD ""
  let head :=
    match e.outcome with
    | .verified => if verbose then [e.path ++ s!": {e.proved.length} proved"] else []
    | .aborted => [e.path ++ ": aborted: " ++ message]
    | .failed => [e.path ++ ": " ++ message]
  head ++ e.shown.map fun line ↦ "  " ++ line

/-- The lines that close a report. -/
def summaryLines (r : Checking.Report) : List String :=
  let m := r.metrics
  ["",
    s!"{m.total} files: {m.verified} verified, {m.aborted} aborted, {m.failed} failed",
    s!"{m.commands} commands run, {m.theorems} theorems proved",
    "verification " ++ r.status.verb]

/-- Lines as output. -/
def unlines (lines : List String) : String := String.join (lines.map (· ++ "\n"))

/-- What `check` answers. -/
def answerCheck (result : Except Checking.Failure Checking.Report) (json verbose : Bool) : Answer :=
  match result with
  | .error failure => ⟨1, unlines [failure.message]⟩
  | .ok report =>
    let output :=
      if json then unlines [report.toJson.print]
      else unlines (report.events.flatMap (eventLines verbose) ++ summaryLines report)
    ⟨if report.status = .error then 1 else 0, output⟩

/-- What `show` answers. -/
def answerShow (text : String) : Fresh Answer := do
  match ← Expression.ofText text with
  | .error e => return ⟨1, unlines [e.message]⟩
  | .ok e =>
    let verdict :=
      match e.evaluate with
      | .ok true => ["evaluates to true"]
      | .ok false => ["evaluates to false"]
      | .error _ => []
    return ⟨0, unlines (e.print :: verdict)⟩

/-- The number of the first variable that a run of the program draws. -/
def firstVariable : Nat := 1

/-- What the program answers to its arguments, given what `look` finds under a path. -/
def answer (look : String → Option FileTree) (args : List String) : Answer :=
  match request? false args with
  | none => ⟨2, ""⟩
  | some .help => ⟨0, ""⟩
  | some .version => ⟨0, "natded 0.1.0\n"⟩
  | some (.display text) => ((answerShow text).run firstVariable).1
  | some (.check paths searchLimit withPrelude json verbose) =>
    let config : Checking.Config :=
      { searchLimit := searchLimit.getD defaultSearchLimit, prelude := withPrelude }
    let (result, _) := (Checking.run config look paths).run.run firstVariable
    answerCheck result json verbose

/-- The paths that the program is going to look at. -/
def paths (args : List String) : List String :=
  match request? false args with
  | some (.check paths _ _ _ _) => paths
  | _ => []

end NaturalDeduction.CommandLine
