/-!
# Exact numbers as text

Numbers are exact rationals (`Rat`). They are read from three forms, each with an optional minus
sign in front: digits, digits with a decimal point between them, and two digit strings with a slash
between them. Digits are the ten ASCII ones; there is no exponent, no plus sign and no bare point.

The canonical text of a number is an integer, a decimal or a quotient, whichever comes first. It is
a decimal if nothing but twos and fives divides the denominator, and its places are as many as there
are twos or fives, whichever are more.

Decimal places are counted in 32 bits. Text with more of them is not read as a number. In writing,
twos and fives are counted one by one, and a number for which such a count overflows has no
canonical text (`canonical?`): the program stops there. Such a denominator has more than a billion
digits. The printer nevertheless is a function of all expressions, so it takes `canonical`, which
agrees with `canonical?` wherever there is a text at all.
-/

namespace NaturalDeduction.Number

/-- The largest number of decimal places that can be counted, 2³² - 1. -/
def maxPlaces : Nat := 4294967295

/-! ### Reading -/

/-- The number that a non-empty string of ASCII digits denotes. -/
def natural? (cs : List Char) : Option Nat :=
  if cs ≠ [] ∧ cs.all Char.isDigit then some (Nat.ofDigitChars 10 cs 0) else none

/-- The text before and after the first occurrence of `mark`, if there is one. -/
def splitOnce (mark : Char) : List Char → Option (List Char × List Char)
  | [] => none
  | c :: rest =>
    if c = mark then some ([], rest) else (splitOnce mark rest).map fun (l, r) ↦ (c :: l, r)

theorem splitOnce_eq_some_iff {mark : Char} {cs l r : List Char} :
    splitOnce mark cs = some (l, r) ↔ cs = l ++ mark :: r ∧ mark ∉ l := by
  induction cs generalizing l with
  | nil => simp [splitOnce]
  | cons c rest ih =>
    unfold splitOnce
    split
    · rename_i h
      subst h
      cases l <;> simp
      grind
    · rename_i h
      cases l with
      | nil => simp; grind
      | cons d l => simp [ih]; grind

/-- A number without sign. A slash decides for a quotient before a point is looked for. -/
def unsigned? (cs : List Char) : Option Rat :=
  match splitOnce '/' cs with
  | some (above, below) => do
    let p ← natural? above
    let q ← natural? below
    if q = 0 then none else some (mkRat p q)
  | none =>
    match splitOnce '.' cs with
    | some (whole, fraction) => do
      let _ ← natural? fraction
      let _ ← natural? whole
      if maxPlaces < fraction.length then none
      else some (mkRat (Nat.ofDigitChars 10 (whole ++ fraction) 0) (Nat.pow 10 fraction.length))
    | none => (natural? cs).map fun n ↦ (n : Rat)

/-- A number with an optional minus sign. -/
def signed? : List Char → Option Rat
  | '-' :: rest => (unsigned? rest).map (- ·)
  | cs => unsigned? cs

/-- Reads a whole text as a number. -/
def parse? (text : String) : Option Rat := signed? text.toList

/-! ### Writing -/

/-- The minus sign of a negative number. -/
def sign (n : Int) : List Char := if n < 0 then ['-'] else []

/-- The text of an integer. -/
def integerChars (n : Int) : List Char := sign n ++ Nat.toDigits 10 n.natAbs

/-- The text of a number as a quotient. -/
def quotientChars (q : Rat) : List Char := integerChars q.num ++ '/' :: Nat.toDigits 10 q.den

/-- Puts zeros in front until there are `width` characters. -/
def padLeft (width : Nat) (cs : List Char) : List Char :=
  List.replicate (width - cs.length) '0' ++ cs

/-- The digits of `n` with a point in front of the last `scale`, and one digit before it at least.
-/
def pointed (n scale : Nat) : List Char :=
  let digits := padLeft (scale + 1) (Nat.toDigits 10 n)
  let whole := digits.length - scale
  digits.take whole ++ '.' :: digits.drop whole

/-- The text of a number with `scale` decimal places. What is smaller than a unit in the last place
is cut off. -/
def decimalChars (q : Rat) (scale : Nat) : List Char :=
  let shifted := q * (Nat.pow 10 scale : Nat)
  sign q.num ++ pointed (shifted.num.tdiv shifted.den).natAbs scale

/-- Divides `rest` by `factor` as long as nothing remains, and counts the divisions on from `count`.
Gives the count and what is left, and nothing if the count would overflow. -/
def divideOut (factor count rest : Nat) : Option (Nat × Nat) :=
  if rest % factor = 0 then
    if count < maxPlaces then divideOut factor (count + 1) (rest / factor) else none
  else some (count, rest)
termination_by maxPlaces - count

/-- The canonical text of a number, as characters. An integer is written as one. For any other
number, twos and then fives are divided out of the denominator: if one is left, the larger count is
the number of decimal places, and otherwise the number is written as a quotient. There is no text
if a count overflows. -/
def canonicalChars? (q : Rat) : Option (List Char) :=
  if q.den = 1 then some (integerChars q.num)
  else do
    let (twos, rest) ← divideOut 2 0 q.den
    let (fives, rest) ← divideOut 5 0 rest
    if rest = 1 then some (decimalChars q (max twos fives)) else some (quotientChars q)

/-- The canonical text of a number, if no count overflows. -/
def canonical? (q : Rat) : Option String := (canonicalChars? q).map String.ofList

/-- The characters that stand for a number where every number has to have a text: its canonical
text, or a quotient if it has none. -/
def canonicalChars (q : Rat) : List Char := (canonicalChars? q).getD (quotientChars q)

/-- The text that stands for a number where every number has to have one. -/
def canonical (q : Rat) : String := String.ofList (canonicalChars q)

end NaturalDeduction.Number
