import NaturalDeduction.Expression.Evaluation

/-!
# Refusals

Why a proof state does not take a step. A refusal is final: no search for a proof tries to get
around it.
-/

namespace NaturalDeduction

/-- Why a step was not taken. -/
inductive Refusal where
  /-- The name stands for another statement already. -/
  | nameTaken (name : String) (existing statement : Expression)
  /-- No visible statement has the name. -/
  | unknownName (name : String)
  /-- The relative index is not negative, or reaches back too far. -/
  | badIndex (k : Int)
  | notARule (name : String) (found : Expression)
  | otherCondition (rule : String) (expected found : Expression)
  | notAQuantification (name : String) (found : Expression)
  | notAnEquation (name : String) (found : Expression)
  /-- The evaluator does not decide the statement. -/
  | undecided (error : EvaluationError)
  /-- The variable is a parameter of an enclosing deduction already. -/
  | parameterShared (parameter : Variable)
  /-- The variable occurs free in a statement of an enclosing deduction. -/
  | parameterFree (parameter : Variable) (name : String)
  /-- The deduction has no theorem yet. -/
  | nothingDerived (name : String)
  /-- The outermost deduction cannot be closed. -/
  | rootStays
  | goalMissed (expected actual : Expression)
  | goalClosed (goal : Expression)
  deriving Inhabited

/-- The sort of refusal, in one word. -/
def Refusal.kind : Refusal → String
  | nameTaken .. => "DuplicateName"
  | unknownName _ => "MissingProposition"
  | badIndex _ => "BadRelativeIndex"
  | notARule .. => "NotARule"
  | otherCondition .. => "ConditionMismatch"
  | notAQuantification .. => "NotAQuantification"
  | notAnEquation .. => "NotAnEquality"
  | undecided _ => "Evaluation"
  | parameterShared _ => "ParameterNotFresh"
  | parameterFree .. => "ParameterNotFresh"
  | nothingDerived _ => "EmptyDeduction"
  | rootStays => "RootDeduction"
  | goalMissed .. => "GoalMismatch"
  | goalClosed _ => "GoalClosed"

/-- The refusal in words. -/
def Refusal.message : Refusal → String
  | nameTaken name existing statement =>
    s!"the name '{name}' already refers to " ++ existing.print ++ ", cannot reuse it for " ++
      statement.print
  | unknownName name => s!"missing proposition: '{name}'"
  | badIndex k => s!"no proposition at relative index {k}"
  | notARule name found => s!"'{name}' is not a rule: " ++ found.print
  | otherCondition rule expected found =>
    s!"rule '{rule}' needs the condition " ++ expected.print ++ " but was given " ++ found.print
  | notAQuantification name found =>
    s!"'{name}' is not a universal quantification: " ++ found.print
  | notAnEquation name found => s!"'{name}' is not an equality: " ++ found.print
  | undecided error => "elementary verification failed: " ++ error.message
  | parameterShared parameter =>
    "cannot generalize over " ++ parameter.text ++ ": an enclosing deduction already does"
  | parameterFree parameter name =>
    "cannot generalize over " ++ parameter.text ++ s!": it occurs free in '{name}'"
  | nothingDerived name => s!"deduction '{name}' did not derive anything"
  | rootStays => "the root deduction cannot be closed"
  | goalMissed expected actual =>
    "the proof established\n  " ++ actual.print ++ "\nbut the goal was\n  " ++ expected.print
  | goalClosed goal => "the goal " ++ goal.print ++ " is already concluded"

end NaturalDeduction
