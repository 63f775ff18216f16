import NaturalDeduction.Expression.Evaluation
import NaturalDeduction.Expression.Substitution

/-!
# Rules of inference

What follows from premises, apart from where the premises are kept. There are four rules: detachment
takes a rule and its condition to the rule's conclusion; specialization puts a value for the
variable of a universal quantification; replacement equates the record of a replacement with its
result; verification decides a ground statement, and concludes the statement or its negation.

Each rule says what it needs by the error it answers when that is missing.
-/

namespace NaturalDeduction.Inference

/-- Why detachment does not apply. -/
inductive DetachmentError where
  | notARule
  /-- The rule's condition is another one. -/
  | otherCondition (expected : Expression)

/-- From a rule and something equal to its condition, the conclusion. -/
def detach (rule condition : Expression) : Except DetachmentError Expression :=
  match rule with
  | .implies expected conclusion =>
    if expected.alphaEq condition then .ok conclusion else .error (.otherCondition expected)
  | _ => .error .notARule

/-- From a universal quantification, its body with a value for the variable. -/
def specialize? (target value : Expression) : Fresh (Option Expression) :=
  match target with
  | .binder .universal _ _ => target.instantiate? value
  | _ => pure none

/-- The equation between the record of a replacement and its result. -/
def replacement (target : Expression) (replacements : List Replacement) (chosen : Occurrences) :
    Fresh Expression := do
  let result ← target.substitute replacements chosen
  return .equals (target.recorded replacements chosen) result

/-- What a decided ground statement proves: itself if it holds, and its negation otherwise. -/
def verdict (e : Expression) (holds : Bool) : Expression := if holds then e else e.negation

/-- Decides a ground statement. Answers what is proved and whether the statement holds. -/
def verify (e : Expression) : Except EvaluationError (Expression × Bool) := do
  let holds ← e.evaluate
  return (verdict e holds, holds)

end NaturalDeduction.Inference
