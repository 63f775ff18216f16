import NaturalDeduction.Expression.Substitution

/-!
# Matching a pattern against a term

Matching is one way: only the holes of the pattern are given values, and the term stays as it is.
Bound variables are paired as in the comparison of expressions. A hole takes any subterm that
mentions no variable which the term binds above it; a hole that has a value already takes only what
is equal to that value up to bound names.

A pattern can come from a statement: its leading universal quantifiers are opened into holes.
-/

namespace NaturalDeduction

/-- Values of holes. Each hole has at most one entry. -/
abbrev Bindings := List (Variable × Expression)

namespace Bindings

/-- The value of a hole. -/
def get? (bindings : Bindings) (slot : Variable) : Option Expression :=
  (bindings.find? (·.1.id == slot.id)).map (·.2)

/-- The bindings as replacements of the holes. -/
def replacements (bindings : Bindings) : List Replacement :=
  bindings.map fun (slot, value) ↦ ⟨.hole slot, value⟩

end Bindings

namespace Expression

mutual

/-- Matches a pattern against a term under the pairs `pairs`, and extends what is known. -/
def matchUnder (pairs : Pairing) (known : Bindings) : Expression → Expression → Option Bindings
  | atom (.hole slot), term =>
    if pairs.any fun (_, inner) ↦ term.occursFree inner then none
    else
      match known.get? slot with
      | some value => if value.alphaEq term then some known else none
      | none => some ((slot, term) :: known)
  | atom (.var v), atom (.var w) => if pairs.relates v w then some known else none
  | atom a, atom b => if a.same b then some known else none
  | binder k v a, binder l w b =>
    if k = l then matchUnder ((v, w) :: pairs) known a b else none
  | implies a b, implies c d => do matchUnder pairs (← matchUnder pairs known a c) b d
  | equals a b, equals c d => do matchUnder pairs (← matchUnder pairs known a c) b d
  | application as, application bs => matchAllUnder pairs known as bs
  | _, _ => none

/-- Matches lists of the same length, item by item. -/
def matchAllUnder (pairs : Pairing) (known : Bindings) :
    List Expression → List Expression → Option Bindings
  | [], [] => some known
  | a :: as, b :: bs => do matchAllUnder pairs (← matchUnder pairs known a b) as bs
  | _, _ => none

end

/-- Matches a pattern against a term, and extends what is known about the holes. -/
def matchWith (pattern term : Expression) (known : Bindings) : Option Bindings :=
  matchUnder [] known pattern term

/-- Matches a pattern against a term. -/
def match? (pattern term : Expression) : Option Bindings := pattern.matchWith term []

/-- Puts the values of holes in their places. Holes without a value stay. -/
def fill (pattern : Expression) (bindings : Bindings) : Fresh Expression :=
  pattern.substitute bindings.replacements .all

/-- Opens the leading universal quantifiers of a statement: a hole for each variable, outermost
first, and what is below the quantifiers with these holes in place of the variables. -/
def openAlls (statement : Expression) : Fresh (List Variable × Expression) := do
  let (vs, body) := statement.splitAlls
  let slots ← vs.mapM Variable.refresh
  let replacements := (vs.zip slots).map fun (v, slot) ↦ ⟨var v, hole slot⟩
  return (slots, ← body.substitute replacements .all)

end Expression

end NaturalDeduction
