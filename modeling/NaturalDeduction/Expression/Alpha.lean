import NaturalDeduction.Expression.Basic

/-!
# Equality up to the names of bound variables

Two expressions are compared under a list of pairs, innermost first: entering a binder on both
sides adds the pair of their variables. An occurrence on one side and an occurrence on the other
stand for the same thing when the innermost pair that mentions either of them mentions both, each
on its own side, or when no pair mentions either and they are one free variable. So a variable that
is bound on one side only never counts as free there, however often a number is reused.

`Leeway` lists what may differ beyond bound names: the order of the two parts of a conjunction or a
disjunction, and of the two sides of an equation, at any depth.
-/

namespace NaturalDeduction

/-- Variables of two expressions that stand for each other, innermost first. -/
abbrev Pairing := List (Variable × Variable)

namespace Pairing

/-- Whether occurrences of `v` on the left and `w` on the right stand for the same thing. -/
def relates : Pairing → Variable → Variable → Bool
  | [], v, w => v.id == w.id
  | (a, b) :: outer, v, w =>
    if a.id = v.id ∨ b.id = w.id then a.id == v.id && b.id == w.id else relates outer v w

@[simp] theorem relates_nil (v w : Variable) : relates [] v w = (v.id == w.id) := rfl

theorem relates_cons_iff {a b v w : Variable} {outer : Pairing} :
    relates ((a, b) :: outer) v w = true ↔
      a.id = v.id ∧ b.id = w.id ∨ a.id ≠ v.id ∧ b.id ≠ w.id ∧ relates outer v w = true := by
  rw [relates]
  split <;> rename_i h
  · simp only [Bool.and_eq_true, beq_iff_eq]
    grind
  · simp only [not_or] at h
    simp [h]

end Pairing

/-- What two equal expressions may differ in besides the names of bound variables. -/
structure Leeway where
  /-- The order of the parts of a conjunction of two. -/
  conjunction : Bool := false
  /-- The order of the parts of a disjunction of two. -/
  disjunction : Bool := false
  /-- The order of the sides of an equation. -/
  equation : Bool := false
  deriving DecidableEq, Inhabited

namespace Leeway

/-- Nothing but bound names may differ. -/
def none : Leeway := {}

/-- Everything that is an equivalence whatever the parts mean. A goal may be met this far. -/
def all : Leeway := ⟨true, true, true⟩

/-- Whether the two arguments of `head` may be exchanged. -/
def commutes (leeway : Leeway) (head : String) : Bool :=
  head == "and" && leeway.conjunction || head == "or" && leeway.disjunction

end Leeway

namespace Expression

mutual

/-- Equality under the pairs `pairs`, up to `leeway`. Two lists are first compared item by item. -/
def equalUnder (leeway : Leeway) (pairs : Pairing) : Expression → Expression → Bool
  | atom (.var v), atom (.var w) => pairs.relates v w
  | atom a, atom b => a.same b
  | binder k v a, binder l w b => k == l && equalUnder leeway ((v, w) :: pairs) a b
  | implies a b, implies c d => equalUnder leeway pairs a c && equalUnder leeway pairs b d
  | equals a b, equals c d =>
    equalUnder leeway pairs a c && equalUnder leeway pairs b d ||
      leeway.equation && equalUnder leeway pairs a d && equalUnder leeway pairs b c
  | application as, application bs =>
    equalAllUnder leeway pairs as bs || equalCrossedUnder leeway pairs as bs
  | _, _ => false

/-- Equality of lists, item by item. -/
def equalAllUnder (leeway : Leeway) (pairs : Pairing) : List Expression → List Expression → Bool
  | [], [] => true
  | a :: as, b :: bs => equalUnder leeway pairs a b && equalAllUnder leeway pairs as bs
  | _, _ => false

/-- Equality of two applications of one connective with their two arguments exchanged. -/
def equalCrossedUnder (leeway : Leeway) (pairs : Pairing) :
    List Expression → List Expression → Bool
  | [atom (.symbol f), a, b], [atom (.symbol g), c, d] =>
    leeway.commutes f && f == g && equalUnder leeway pairs a d && equalUnder leeway pairs b c
  | _, _ => false

end

theorem equalCrossedUnder_none (pairs : Pairing) (as bs : List Expression) :
    equalCrossedUnder .none pairs as bs = false := by
  unfold equalCrossedUnder
  split <;> simp [Leeway.none, Leeway.commutes]

theorem equalUnder_none_equals (pairs : Pairing) (a b c d : Expression) :
    equalUnder .none pairs (equals a b) (equals c d) =
      (equalUnder .none pairs a c && equalUnder .none pairs b d) := by
  rw [equalUnder]
  simp [Leeway.none]

theorem equalUnder_none_application (pairs : Pairing) (as bs : List Expression) :
    equalUnder .none pairs (application as) (application bs) =
      equalAllUnder .none pairs as bs := by
  rw [equalUnder, equalCrossedUnder_none, Bool.or_false]

/-- Equality up to the names of bound variables and up to `leeway`. -/
def equalUpTo (leeway : Leeway) (a b : Expression) : Bool := equalUnder leeway [] a b

/-- Equality up to the names of bound variables. This is what it means for two statements to be
the same wherever a deduction compares them. -/
def alphaEq (a b : Expression) : Bool := equalUpTo .none a b

end Expression

end NaturalDeduction
