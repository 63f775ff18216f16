import NaturalDeduction.Variable
import NaturalDeduction.Number

/-!
# Expressions

The term language. Statements and objects are not told apart: an expression is an atom, a binder
over one variable, an implication (printed with the arrow and called a rule), an equation, or any
other list, which by convention starts with a symbol that is applied to the rest.

Holes are the slots of a pattern; only matching gives them a meaning. They are variables of a
second sort, so a hole and a variable of one number have nothing to do with each other.

Each function over expressions is a pair of mutually recursive definitions, one on expressions and
one on lists of them; the lemma below each pair says what the second one is in terms of the first.
-/

namespace NaturalDeduction

/-- What a binder does with its variable. -/
inductive BinderKind where
  | universal
  | existential
  | lambda
  deriving DecidableEq, Inhabited

namespace BinderKind

/-- The word that opens a binder, both when it is read and when it is printed. -/
def keyword : BinderKind → String
  | universal => "forall"
  | existential => "exists"
  | lambda => "lambda"

/-- The kind that a word opens. -/
def ofKeyword? : String → Option BinderKind
  | "forall" => some universal
  | "exists" => some existential
  | "lambda" => some lambda
  | _ => none

theorem ofKeyword?_keyword (k : BinderKind) : ofKeyword? k.keyword = some k := by
  cases k <;> rfl

end BinderKind

/-- Expressions without inner structure. -/
inductive Atom where
  /-- The name of a constant, a function or a connective. -/
  | symbol (name : String)
  /-- A quoted string. -/
  | text (contents : String)
  /-- An exact number. -/
  | number (value : Rat)
  /-- A variable: bound by a binder, a parameter of a deduction, or free. -/
  | var (v : Variable)
  /-- A slot of a pattern. -/
  | hole (v : Variable)
  deriving DecidableEq, Inhabited

/-- The term language. -/
inductive Expression where
  | atom (a : Atom)
  /-- The variable is bound in the body. -/
  | binder (kind : BinderKind) (bound : Variable) (body : Expression)
  /-- A rule: the condition, then the conclusion. -/
  | implies (condition conclusion : Expression)
  | equals (left right : Expression)
  /-- Any other list. -/
  | application (items : List Expression)
  deriving Inhabited

namespace Atom

/-- Equality of atoms with variables and holes compared by number. -/
def same : Atom → Atom → Bool
  | symbol a, symbol b => a == b
  | text a, text b => a == b
  | number a, number b => a == b
  | var a, var b => a.id == b.id
  | hole a, hole b => a.id == b.id
  | _, _ => false

/-- An unquoted word as an atom: a number if it starts like one and is one, otherwise a symbol. -/
def ofWord (word : String) : Atom :=
  let numeric : Bool :=
    match word.toList with
    | [] => false
    | ['-'] => false
    | c :: _ => c.isDigit || c == '-'
  match if numeric then Number.parse? word else none with
  | some q => number q
  | none => symbol word

end Atom

namespace Expression

/-! ### Building -/

/-- The symbol `name` alone. -/
def symbol (name : String) : Expression := atom (.symbol name)

/-- A quoted string alone. -/
def text (contents : String) : Expression := atom (.text contents)

/-- A whole number alone. -/
def int (n : Int) : Expression := atom (.number n)

/-- A variable alone. -/
def var (v : Variable) : Expression := atom (.var v)

/-- A hole alone. -/
def hole (v : Variable) : Expression := atom (.hole v)

/-- A universal quantification. -/
def all (v : Variable) (body : Expression) : Expression := binder .universal v body

/-- Quantifies over each variable, the first one outermost. -/
def alls (vs : List Variable) (body : Expression) : Expression := vs.foldr all body

/-- Nests rules to the right, the first condition outermost. -/
def rules (conditions : List Expression) (conclusion : Expression) : Expression :=
  conditions.foldr implies conclusion

/-- The application of a symbol. -/
def call (head : String) (args : List Expression) : Expression :=
  application (symbol head :: args)

/-- The negation of `e`. -/
def negation (e : Expression) : Expression := call "not" [e]

/-- Binds each variable with a binder of one kind, the first one outermost. -/
def binders (kind : BinderKind) (vs : List Variable) (body : Expression) : Expression :=
  vs.foldr (binder kind) body

/-! ### Taking apart -/

/-- The symbol that an application starts with. -/
def head? : Expression → Option String
  | application (atom (.symbol name) :: _) => some name
  | _ => none

/-- What follows the first item of an application. -/
def args : Expression → List Expression
  | application (_ :: rest) => rest
  | _ => []

/-- The expression that a negation negates. -/
def negated? : Expression → Option Expression
  | application [atom (.symbol "not"), e] => some e
  | _ => none

/-- The variable of an expression that is just a variable. -/
def var? : Expression → Option Variable
  | atom (.var v) => some v
  | _ => none

/-- The variable and body of a binder of the given kind. -/
def binder? (kind : BinderKind) : Expression → Option (Variable × Expression)
  | binder k v body => if k = kind then some (v, body) else none
  | _ => none

/-- The leading universal quantifiers, outermost first, and what is below them. -/
def splitAlls : Expression → List Variable × Expression
  | binder .universal v body => let (vs, e) := body.splitAlls; (v :: vs, e)
  | e => ([], e)

theorem alls_splitAlls (e : Expression) : alls e.splitAlls.1 e.splitAlls.2 = e := by
  fun_induction splitAlls e with
  | case1 v body vs e h ih => rw [h] at ih; simp only [alls, List.foldr_cons] at ih ⊢; rw [ih]; rfl
  | case2 => rfl

/-- The conditions of nested rules, outermost first, and the final conclusion. -/
def splitRules : Expression → List Expression × Expression
  | implies c d => let (cs, e) := d.splitRules; (c :: cs, e)
  | e => ([], e)

theorem rules_splitRules (e : Expression) : rules e.splitRules.1 e.splitRules.2 = e := by
  fun_induction splitRules e with
  | case1 c d cs e h ih => rw [h] at ih; simp only [rules, List.foldr_cons] at ih ⊢; rw [ih]
  | case2 => rfl

/-- The immediate parts, in order. -/
def children : Expression → List Expression
  | atom _ => []
  | binder _ _ body => [body]
  | implies a b => [a, b]
  | equals a b => [a, b]
  | application items => items

/-! ### Size -/

mutual

/-- The number of nodes. -/
def size : Expression → Nat
  | atom _ => 1
  | binder _ _ body => 1 + body.size
  | implies a b => 1 + a.size + b.size
  | equals a b => 1 + a.size + b.size
  | application items => 1 + sizes items

/-- The number of nodes in a list of expressions. -/
def sizes : List Expression → Nat
  | [] => 0
  | e :: rest => e.size + sizes rest

end

theorem size_pos (e : Expression) : 0 < e.size := by
  cases e <;> simp only [size] <;> omega

/-! ### Free variables and holes -/

mutual

/-- Whether `v` occurs free. -/
def occursFree (v : Variable) : Expression → Bool
  | atom (.var w) => w.id == v.id
  | atom _ => false
  | binder _ w body => w.id != v.id && occursFree v body
  | implies a b => occursFree v a || occursFree v b
  | equals a b => occursFree v a || occursFree v b
  | application items => occursFreeIn v items

/-- Whether `v` occurs free in one of the expressions. -/
def occursFreeIn (v : Variable) : List Expression → Bool
  | [] => false
  | e :: rest => occursFree v e || occursFreeIn v rest

end

theorem occursFreeIn_eq_any (v : Variable) (es : List Expression) :
    occursFreeIn v es = es.any (occursFree v) := by
  induction es with
  | nil => rfl
  | cons e rest ih => simp [occursFreeIn, ih]

mutual

/-- The variables that occur outside the scope of `bound` and of inner binders, in the order in
which they are met. -/
def unbound (bound : List Variable) : Expression → List Variable
  | atom (.var v) => if bound.any (·.id == v.id) then [] else [v]
  | atom _ => []
  | binder _ v body => unbound (v :: bound) body
  | implies a b => unbound bound a ++ unbound bound b
  | equals a b => unbound bound a ++ unbound bound b
  | application items => unboundIn bound items

/-- The same for a list of expressions, one after the other. -/
def unboundIn (bound : List Variable) : List Expression → List Variable
  | [] => []
  | e :: rest => unbound bound e ++ unboundIn bound rest

end

/-- The free variables, each once, sorted by number. Of several hints for one number the first
that is met stays. -/
def freeVariables (e : Expression) : List Variable :=
  (e.unbound []).foldl (fun vs v ↦ v.insertById vs) []

mutual

/-- Whether a hole occurs. -/
def hasHoles : Expression → Bool
  | atom (.hole _) => true
  | atom _ => false
  | binder _ _ body => hasHoles body
  | implies a b => hasHoles a || hasHoles b
  | equals a b => hasHoles a || hasHoles b
  | application items => haveHoles items

/-- Whether a hole occurs in one of the expressions. -/
def haveHoles : List Expression → Bool
  | [] => false
  | e :: rest => hasHoles e || haveHoles rest

end

theorem haveHoles_eq_any (es : List Expression) : haveHoles es = es.any hasHoles := by
  induction es with
  | nil => rfl
  | cons e rest ih => simp [haveHoles, ih]

/-- Without free variables and without holes. -/
def isGround (e : Expression) : Bool := e.freeVariables.isEmpty && !e.hasHoles

/-! ### Identity -/

mutual

/-- Equality of form: binders over different numbers differ, hints do not matter. -/
def same : Expression → Expression → Bool
  | atom a, atom b => a.same b
  | binder k v a, binder l w b => k == l && v.id == w.id && same a b
  | implies a b, implies c d => same a c && same b d
  | equals a b, equals c d => same a c && same b d
  | application as, application bs => sameAll as bs
  | _, _ => false

/-- The same for lists of expressions. -/
def sameAll : List Expression → List Expression → Bool
  | [], [] => true
  | a :: as, b :: bs => same a b && sameAll as bs
  | _, _ => false

end

end Expression

end NaturalDeduction
