import NaturalDeduction.SExpr.Basic
import NaturalDeduction.Expression.Basic

/-!
# Reading expressions

A word is a variable if a binder around it or the given scope has its name; otherwise a word that
starts with a question mark is a hole, and any other word is a number or a symbol. One name means
one hole wherever it occurs in a reading.

A list that starts with the word of a binder, with the arrow or with the equality sign is read as
such, whatever these words are in scope. A binder takes a list of variables, or a single one without
brackets, and draws a variable for each. An arrow nests to the right.

The scope is an argument and not a state: what a binder adds to it is known in its body alone.
-/

namespace NaturalDeduction

/-- The variables that words stand for, the innermost first. -/
abbrev Scope := List (String × Variable)

/-- The variable that a word stands for. -/
def Scope.lookup? (scope : Scope) (name : String) : Option Variable :=
  (scope.find? (·.1 == name)).map (·.2)

/-- What a reading has drawn: the holes by name, and the next unused number. -/
structure ReadState where
  holes : List (String × Variable)
  next : Nat

/-- Computations that read expressions. What was drawn before an error stays drawn. -/
abbrev Reading := ExceptT SyntaxError (StateM ReadState)

namespace Reading

/-- Draws a variable. -/
def fresh (hint : String) : Reading Variable :=
  modifyGet fun s ↦
    let (v, next) := (Variable.fresh hint).run s.next
    (v, { s with next := next })

/-- The hole with a name, drawn when the name is met first. -/
def hole (name : String) : Reading Variable := do
  match (← get).holes.find? (·.1 == name) with
  | some (_, v) => return v
  | none => do
    let v ← fresh name
    modify fun s ↦ { s with holes := (name, v) :: s.holes }
    return v

/-- Reads a word. -/
def word (scope : Scope) (text : String) (position : Position) : Reading Expression := do
  match scope.lookup? text with
  | some v => return .var v
  | none =>
    match text.toList with
    | ['?'] => throw ⟨.unnamedHole, position⟩
    | '?' :: name => return .hole (← hole (String.ofList name))
    | _ => return .atom (.ofWord text)

/-- Draws a variable for each name, and adds them to the scope. -/
def bindNames (scope : Scope) : List SExpr → Reading (Scope × List Variable)
  | [] => return (scope, [])
  | .word name _ :: rest => do
    let v ← fresh name
    let (inner, vs) ← bindNames ((name, v) :: scope) rest
    return (inner, v :: vs)
  | e :: _ => throw ⟨.notAVariableName, e.position⟩

/-- The names that a binder binds. -/
def binderNames : SExpr → List SExpr
  | .list _ items => items
  | e => [e]

end Reading

namespace SExpr

open Reading

mutual

/-- Reads an expression in a scope. -/
def read (scope : Scope) : SExpr → Reading Expression
  | .quotation contents _ => return .text contents
  | .word text position => Reading.word scope text position
  | .list position items =>
    match items with
    | [] => return .application []
    | head :: args =>
      match head.word?.bind BinderKind.ofKeyword? with
      | some kind =>
        match args with
        | [vars, body] => do
          if (binderNames vars).isEmpty then throw ⟨.binderWithoutVariables, vars.position⟩
          let (inner, vs) ← bindNames scope (binderNames vars)
          return .binders kind vs (← read inner body)
        | _ => throw ⟨.binderShape, position⟩
      | none =>
        if head.word? = some "->" then do
          if args.length < 2 then throw ⟨.ruleShape, position⟩
          let parts ← readAll scope args
          return .rules parts.dropLast (parts.getLastD default)
        else if head.word? = some "=" then
          match args with
          | [left, right] => return .equals (← read scope left) (← read scope right)
          | _ => throw ⟨.equationShape, position⟩
        else return .application (← readAll scope (head :: args))
termination_by e => 2 * e.size
decreasing_by all_goals simp only [size, sizes]; omega

/-- Reads expressions one after the other. -/
def readAll (scope : Scope) : List SExpr → Reading (List Expression)
  | [] => return []
  | e :: rest => return (← read scope e) :: (← readAll scope rest)
termination_by es => 2 * sizes es + 1
decreasing_by all_goals have := size_pos e; simp only [sizes]; omega

end

end SExpr

/-- Reads the one expression of a text with nothing in scope. -/
def Expression.ofText (text : String) : Fresh (Except SyntaxError Expression) :=
  fun next ↦
    match SExpr.parseOne text with
    | .error e => (.error e, next)
    | .ok e =>
      let (result, s) := (e.read []).run.run ⟨[], next⟩
      (result, s.next)

end NaturalDeduction
