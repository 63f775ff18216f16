/-!
# Sets of code points

A set of code points is given by the increasing list of the places where membership changes: it
starts outside, and each listed code point is the first of a run inside or of a run outside. This is
how the properties of characters that printing needs are tabulated.
-/

namespace NaturalDeduction

/-- A set of code points, as the places where membership changes. -/
structure CodePoints where
  changes : List Nat

namespace CodePoints

/-- Whether `n` is in the set, if membership is `inside` before the first listed place. -/
def containsFrom (inside : Bool) (n : Nat) : List Nat → Bool
  | [] => inside
  | c :: rest => if n < c then inside else containsFrom (!inside) n rest

/-- Whether a character is in the set. -/
def contains (s : CodePoints) (c : Char) : Bool := containsFrom false c.toNat s.changes

end CodePoints

end NaturalDeduction
