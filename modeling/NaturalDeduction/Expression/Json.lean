import NaturalDeduction.Json
import NaturalDeduction.Expression.Basic

/-!
# Expressions as JSON

Each node is an object with one field, which is named for the sort of node and holds its parts: a
single part as it is, several as a list of just that many. Variables keep their numbers, so reading
draws none. Numbers are written as text, in canonical form, and read from any text of a number.
-/

namespace NaturalDeduction

/-- A variable as JSON. -/
def Variable.toJson (v : Variable) : Json :=
  .object [("hint", .string v.hint), ("id", .number v.id)]

/-- Reads a variable: an object with a hint and a number, or a list of the two. -/
def Variable.ofJson? : Json → Option Variable
  | .array [hint, id] => do return ⟨← hint.string?, ← id.natural?⟩
  | .array _ => none
  | j => do return ⟨← (j.field "hint").string?, ← (j.field "id").natural?⟩

/-- The name of a kind of binder. -/
def BinderKind.tag : BinderKind → String
  | universal => "Forall"
  | existential => "Exists"
  | lambda => "Lambda"

/-- The kind of binder with a name. -/
def BinderKind.ofTag? : String → Option BinderKind
  | "Forall" => some universal
  | "Exists" => some existential
  | "Lambda" => some lambda
  | _ => none

/-- Reads a kind of binder: its name, or an object whose one field has the name and is empty. -/
def BinderKind.ofJson? : Json → Option BinderKind
  | .string s => ofTag? s
  | .object [(s, .null)] => ofTag? s
  | _ => none

/-- An atom as JSON. -/
def Atom.toJson : Atom → Json
  | symbol name => .object [("Symbol", .string name)]
  | text contents => .object [("Str", .string contents)]
  | number q => .object [("Number", .string (Number.canonical q))]
  | var v => .object [("Variable", v.toJson)]
  | hole v => .object [("PatternVariable", v.toJson)]

/-- Reads an atom. -/
def Atom.ofJson? : Json → Option Atom
  | .object [("Symbol", j)] => symbol <$> j.string?
  | .object [("Str", j)] => text <$> j.string?
  | .object [("Number", j)] => do return number (← Number.parse? (← j.string?))
  | .object [("Variable", j)] => var <$> Variable.ofJson? j
  | .object [("PatternVariable", j)] => hole <$> Variable.ofJson? j
  | _ => none

namespace Expression

mutual

/-- An expression as JSON. -/
def toJson : Expression → Json
  | atom a => .object [("Atom", a.toJson)]
  | binder kind v body =>
    .object [("Binder", .array [.string kind.tag, v.toJson, toJson body])]
  | implies a b => .object [("Rule", .array [toJson a, toJson b])]
  | equals a b => .object [("Equality", .array [toJson a, toJson b])]
  | application items => .object [("Application", .array (toJsons items))]

/-- Expressions as JSON values. -/
def toJsons : List Expression → List Json
  | [] => []
  | e :: rest => toJson e :: toJsons rest

end

mutual

/-- Reads an expression. -/
def ofJson? : Json → Option Expression
  | .object [("Atom", j)] => atom <$> Atom.ofJson? j
  | .object [("Binder", .array [kind, v, body])] => do
    return binder (← BinderKind.ofJson? kind) (← Variable.ofJson? v) (← ofJson? body)
  | .object [("Rule", .array [a, b])] => do return implies (← ofJson? a) (← ofJson? b)
  | .object [("Equality", .array [a, b])] => do return equals (← ofJson? a) (← ofJson? b)
  | .object [("Application", .array items)] => application <$> ofJsons? items
  | _ => none

/-- Reads expressions. -/
def ofJsons? : List Json → Option (List Expression)
  | [] => some []
  | j :: rest => do return (← ofJson? j) :: (← ofJsons? rest)

end

end Expression

end NaturalDeduction
