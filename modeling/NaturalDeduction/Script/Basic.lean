import NaturalDeduction.Automation.Search
import NaturalDeduction.Expression.Reader

/-!
# Scripts

A script is a sequence of commands, each of them a list that starts with the word for what to do.
Here are the words, the ways in which a script can stop, and what a script reports. An error has the
place of the command that it comes from, or of the part of a command that is not understood. An
abort that nobody caught has no place.
-/

namespace NaturalDeduction.Script

/-- What a command does. -/
inductive Verb where
  /-- Suppose under a name. -/
  | posit
  /-- Suppose, with or without a name. -/
  | suppose
  /-- Take parameters. -/
  | quantify
  | bind
  | apply
  | substitute
  | verify
  | deduction
  | goal
  | introduce
  | intros
  | autodeduce
  | autobind
  | autoapply
  | replaceEqual
  | backwards
  | hint
  | expect
  | display
  | attempt
  | abort
  deriving DecidableEq, Inhabited

/-- What the first word of a command means. -/
def Verb.ofWord? : String → Option Verb
  | "axiom" => some posit
  | "suppose" => some suppose
  | "forall" => some quantify
  | "bind" => some bind
  | "apply" => some apply
  | "substitute" => some substitute
  | "verify" => some verify
  | "deduction" => some deduction
  | "goal" => some goal
  | "introduce" => some introduce
  | "intros" => some intros
  | "autodeduce" => some autodeduce
  | "autobind" => some autobind
  | "autoapply" => some autoapply
  | "rewrite" => some replaceEqual
  | "by-lemma" => some backwards
  | "hint" => some hint
  | "expect" => some expect
  | "show" => some display
  | "try" => some attempt
  | "abort" => some abort
  | _ => none

/-- What is wrong with a command. -/
inductive Fault where
  | notACommand
  | notAName
  | notAReference
  | notAnIndex
  | notAVariableName
  | notReplacements
  | notAReplacement
  | notIndices
  | notInAGoal
  | notAReason
  | nothingToIntroduce
  | unknown (head : String)
  deriving DecidableEq, Inhabited

/-- The fault in words. -/
def Fault.message : Fault → String
  | notACommand => "expected a command"
  | notAName => "expected a name"
  | notAReference => "expected a name or a negative index"
  | notAnIndex => "expected an occurrence index"
  | notAVariableName => "expected a variable name"
  | notReplacements => "expected a list of replacements"
  | notAReplacement => "expected (key value)"
  | notIndices => "expected a list of indices"
  | notInAGoal => "introductions only work inside a goal"
  | notAReason => "expected a reason"
  | nothingToIntroduce => "nothing left to introduce"
  | unknown head => s!"unknown command or wrong arguments for '{head}'"

/-- Why a script stopped. -/
inductive Stop where
  /-- The text cannot be read. -/
  | unreadable (error : SyntaxError)
  /-- The text can be read but is no command. -/
  | malformed (fault : Fault) (position : Position)
  | refused (refusal : Refusal) (position : Position)
  | failed (goal : Expression) (reason : FailureReason) (position : Position)
  /-- A statement is not the one that was expected. -/
  | unexpected (expected actual : Expression) (position : Position)
  /-- An abort that nobody caught. -/
  | aborted (abort : Abort)
  deriving Inhabited

namespace Stop

/-- The stop in words. -/
def message : Stop → String
  | unreadable error => "syntax error at " ++ error.message
  | malformed fault position => "bad command at " ++ position.locate fault.message
  | refused refusal position => position.locate refusal.message
  | failed goal reason position => position.locate (Setback.failed goal reason).message
  | unexpected expected actual position =>
    position.locate ("expected " ++ expected.print ++ " but found " ++ actual.print)
  | aborted abort => abort.message

/-- The sort of stop, in one word. -/
def kind : Stop → String
  | unreadable _ => "Syntax"
  | malformed .. => "Malformed"
  | refused refusal _ => refusal.kind
  | failed .. => "Failed"
  | unexpected .. => "Expectation"
  | aborted _ => "Aborted"

/-- The line of the stop, if it has one. -/
def line? : Stop → Option Nat
  | unreadable error => some error.position.line
  | malformed _ position => some position.line
  | refused _ position => some position.line
  | failed _ _ position => some position.line
  | unexpected _ _ position => some position.line
  | aborted _ => none

/-- How a setback stops a script at a place. -/
def ofSetback (position : Position) : Setback → Stop
  | .failed goal reason => failed goal reason position
  | .aborted abort => aborted abort
  | .refused refusal => refused refusal position

end Stop

/-- What a script reports. -/
structure Output where
  /-- What was to be shown, in order. -/
  shown : List String := []
  /-- The names of the theorems of goals and deductions that are in no other one. -/
  proved : List String := []
  /-- How many commands were run, inner ones included. -/
  commands : Nat := 0
  /-- The abort that ended the script. -/
  aborted : Option Abort := none
  deriving Inhabited

end NaturalDeduction.Script
