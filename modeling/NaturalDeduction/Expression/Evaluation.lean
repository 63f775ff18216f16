import NaturalDeduction.Expression.Layout

/-!
# Deciding ground statements

Arithmetic, comparison, membership in the usual number domains, strings and connectives have values.
Numbers are exact, so what is decided here is decided for good.

`and`, `or` and `->` look at their parts from left to right and stop as soon as the answer is known;
a part that is not looked at need not have a value. Every other operator takes the values of its
arguments from left to right, except that division and remainder look at the divisor first. An
operator with the wrong number of arguments is not recognized, and neither is an argument of the
wrong sort; the error names the expression that is at fault.
-/

namespace NaturalDeduction

/-- The value of a ground expression. -/
inductive Value where
  | number (q : Rat)
  | text (s : String)
  | truth (b : Bool)
  deriving DecidableEq, Inhabited

/-- The printed form of a value. -/
def Value.print : Value → String
  | number q => Number.canonical q
  | text s => quoted s
  | truth true => "true"
  | truth false => "false"

/-- Why an operation has no value for its arguments. -/
inductive Undefinedness where
  | divisionByZero
  | remainderByZero
  | fractionalExponent
  | hugeExponent
  | zeroToNegativePower
  deriving DecidableEq, Inhabited

/-- The reason in words. -/
def Undefinedness.message : Undefinedness → String
  | divisionByZero => "division by zero"
  | remainderByZero => "remainder by zero"
  | fractionalExponent => "the exponent is not an integer"
  | hugeExponent => "the exponent is too large"
  | zeroToNegativePower => "zero to a negative power"

/-- Why an expression has no value. -/
inductive EvaluationError where
  /-- A variable or a hole occurs. -/
  | notGround (e : Expression)
  /-- Nothing is known about expressions of this shape. -/
  | unrecognized (e : Expression)
  /-- The operation is known and has no value here. -/
  | undefined (e : Expression) (why : Undefinedness)
  deriving Inhabited

/-- The error in words. -/
def EvaluationError.message : EvaluationError → String
  | notGround e => "not a ground expression: " ++ e.print
  | unrecognized e => "no evaluation rule for: " ++ e.print
  | undefined e why => e.print ++ " is undefined: " ++ why.message

/-! ### Operators -/

/-- The operators that have an evaluation rule. -/
inductive Operator where
  | negation
  | conjunction
  | disjunction
  | membership
  | unequal
  | less
  | lessEqual
  | greater
  | greaterEqual
  | sum
  | product
  | minus
  | quotient
  | remainder
  | power
  | absolute
  | minimum
  | maximum
  | concatenation
  | length
  deriving DecidableEq

/-- The operator that a symbol names. -/
def Operator.ofName? : String → Option Operator
  | "not" => some negation
  | "and" => some conjunction
  | "or" => some disjunction
  | "in" => some membership
  | "!=" => some unequal
  | "<" => some less
  | "<=" => some lessEqual
  | ">" => some greater
  | ">=" => some greaterEqual
  | "+" => some sum
  | "*" => some product
  | "-" => some minus
  | "/" => some quotient
  | "%" => some remainder
  | "^" => some power
  | "abs" => some absolute
  | "min" => some minimum
  | "max" => some maximum
  | "concat" => some concatenation
  | "len" => some length
  | _ => none

/-- Whether a number lies in the domain with the given name, if the domain is known. Every number
that can be written is real. -/
def inDomain? (domain : String) (q : Rat) : Option Bool :=
  if domain = "N" ∨ domain = "ℕ" then some (q.isInt && 0 ≤ q.num)
  else if domain = "N+" ∨ domain = "ℕ+" then some (q.isInt && 0 < q.num)
  else if domain = "Z" ∨ domain = "ℤ" then some q.isInt
  else if domain = "R" ∨ domain = "ℝ" then some true
  else none

/-- The largest exponent, in size, that a power is computed for. -/
def maxExponent : Nat := 4096

/-- A whole power, within the bound on exponents. -/
def power? (base exponent : Rat) : Except Undefinedness Rat :=
  if !exponent.isInt then .error .fractionalExponent
  else if maxExponent < exponent.num.natAbs then .error .hugeExponent
  else if base = 0 ∧ exponent.num < 0 then .error .zeroToNegativePower
  else
    let result := base ^ exponent.num.natAbs
    .ok (if exponent.num < 0 then result⁻¹ else result)

/-- What is left of `a` after whole multiples of the size of `b`: at least zero and below that
size. -/
def remainderOf (a b : Rat) : Rat := a - b.abs * (a / b.abs).floor

namespace Expression

/-- Results of evaluation. -/
abbrev Evaluated := Except EvaluationError

/-- An argument of an operator: the expression, and its value when it is asked for. -/
structure Argument where
  source : Expression
  value : Unit → Evaluated Value

namespace Argument

/-- The truth value of an argument, if its value is one. -/
def truth (a : Argument) : Evaluated Bool := do
  match ← a.value () with
  | .truth b => return b
  | _ => .error (.unrecognized a.source)

/-- The number that an argument has as its value, if it is one. -/
def number (a : Argument) : Evaluated Rat := do
  match ← a.value () with
  | .number q => return q
  | _ => .error (.unrecognized a.source)

/-- The string that an argument has as its value, if it is one. -/
def text (a : Argument) : Evaluated String := do
  match ← a.value () with
  | .text s => return s
  | _ => .error (.unrecognized a.source)

/-- Whether all arguments are true, up to the first that is false. -/
def allTrue : List Argument → Evaluated Bool
  | [] => return true
  | a :: rest => do if ← a.truth then allTrue rest else return false

/-- Whether one argument is true, up to the first that is. -/
def anyTrue : List Argument → Evaluated Bool
  | [] => return false
  | a :: rest => do if ← a.truth then return true else anyTrue rest

/-- Compares two arguments that are numbers. -/
def compare (holds : Rat → Rat → Bool) (a b : Argument) : Evaluated Value := do
  let x ← a.number
  let y ← b.number
  return .truth (holds x y)

/-- Computes with two arguments that are numbers. -/
def compute (result : Rat → Rat → Rat) (a b : Argument) : Evaluated Value := do
  let x ← a.number
  let y ← b.number
  return .number (result x y)

end Argument

/-- The value of an operation as a part of the expression `whole`. -/
def operate (whole : Expression) : Operator → List Argument → Evaluated Value
  | .negation, [a] => do return .truth (!(← a.truth))
  | .conjunction, a :: rest => .truth <$> Argument.allTrue (a :: rest)
  | .disjunction, a :: rest => .truth <$> Argument.anyTrue (a :: rest)
  | .membership, [a, ⟨atom (.symbol domain), _⟩] => do
    match inDomain? domain (← a.number) with
    | some b => return .truth b
    | none => .error (.unrecognized whole)
  | .unequal, [a, b] => do
    let x ← a.value ()
    let y ← b.value ()
    return .truth (x != y)
  | .less, [a, b] => a.compare (fun x y ↦ x < y) b
  | .lessEqual, [a, b] => a.compare (fun x y ↦ x ≤ y) b
  | .greater, [a, b] => a.compare (fun x y ↦ y < x) b
  | .greaterEqual, [a, b] => a.compare (fun x y ↦ y ≤ x) b
  | .sum, a :: rest => do return .number ((← (a :: rest).mapM (·.number)).foldl (· + ·) 0)
  | .product, a :: rest => do return .number ((← (a :: rest).mapM (·.number)).foldl (· * ·) 1)
  | .minus, [a] => do return .number (-(← a.number))
  | .minus, [a, b] => a.compute (· - ·) b
  | .quotient, [a, b] => do
    let divisor ← b.number
    if divisor = 0 then .error (.undefined whole .divisionByZero)
    else return .number ((← a.number) / divisor)
  | .remainder, [a, b] => do
    let divisor ← b.number
    if divisor = 0 then .error (.undefined whole .remainderByZero)
    else return .number (remainderOf (← a.number) divisor)
  | .power, [a, b] => do
    let base ← a.number
    let exponent ← b.number
    match power? base exponent with
    | .ok q => return .number q
    | .error why => .error (.undefined whole why)
  | .absolute, [a] => do return .number (← a.number).abs
  | .minimum, [a, b] => a.compute (fun x y ↦ if x ≤ y then x else y) b
  | .maximum, [a, b] => a.compute (fun x y ↦ if x ≤ y then y else x) b
  | .concatenation, parts => do return .text (String.join (← parts.mapM (·.text)))
  | .length, [a] => do return .number ((← a.text).length : Nat)
  | _, _ => .error (.unrecognized whole)

mutual

/-- The value of an expression. -/
def value : Expression → Evaluated Value
  | atom (.number q) => return .number q
  | atom (.text s) => return .text s
  | atom (.symbol s) =>
    if s = "true" then return .truth true
    else if s = "false" then return .truth false
    else .error (.unrecognized (symbol s))
  | atom a => .error (.notGround (atom a))
  | binder kind v body => .error (.unrecognized (binder kind v body))
  | equals a b => do
    let x ← value a
    let y ← value b
    return .truth (x == y)
  | implies a b => do
    let condition : Argument := ⟨a, fun _ ↦ value a⟩
    let conclusion : Argument := ⟨b, fun _ ↦ value b⟩
    if ← condition.truth then return .truth (← conclusion.truth) else return .truth true
  | application items =>
    match (application items).head?.bind Operator.ofName?, arguments items with
    | some op, _ :: args => operate (application items) op args
    | _, _ => .error (.unrecognized (application items))

/-- The expressions as arguments. -/
def arguments : List Expression → List Argument
  | [] => []
  | e :: rest => ⟨e, fun _ ↦ value e⟩ :: arguments rest

end

theorem arguments_eq_map (es : List Expression) :
    arguments es = es.map fun e ↦ ⟨e, fun _ ↦ e.value⟩ := by
  induction es with
  | nil => rfl
  | cons e rest ih => simp [arguments, ih]

/-- The truth value of a ground statement. -/
def evaluate (e : Expression) : Evaluated Bool :=
  if e.isGround then Argument.truth ⟨e, fun _ ↦ e.value⟩ else .error (.notGround e)

end Expression

end NaturalDeduction
