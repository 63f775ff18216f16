/-!
# JSON values

The data format that results are handed out in. Numbers are whole. The fields of an object keep the
order they are given in.

Printed values are indented by two spaces for each level; an empty list or object stays on its line.
In strings the quote, the backslash and the controls are escaped, and nothing else.
-/

namespace NaturalDeduction

/-- A JSON value. -/
inductive Json where
  | null
  | bool (b : Bool)
  | number (n : Int)
  | string (s : String)
  | array (items : List Json)
  | object (fields : List (String × Json))
  deriving Inhabited

namespace Json

/-- A value that may be missing. -/
def ofOption {α : Type} (f : α → Json) : Option α → Json
  | some a => f a
  | none => null

/-- A list of strings. -/
def strings (ss : List String) : Json := array (ss.map string)

/-- The value of a field; `null` for a field that is not there. -/
def field (name : String) : Json → Json
  | object fields => ((fields.find? (·.1 == name)).map (·.2)).getD null
  | _ => null

/-- The contents of a string. -/
def string? : Json → Option String
  | string s => some s
  | _ => none

/-- A number of 64 bits without sign. -/
def natural? : Json → Option Nat
  | number n => if 0 ≤ n ∧ n < UInt64.size then some n.toNat else none
  | _ => none

/-- The items of a list. -/
def items? : Json → Option (List Json)
  | array items => some items
  | _ => none

/-! ### Printing -/

/-- Four hexadecimal digits. -/
def hex4 (n : Nat) : List Char :=
  let digits := Nat.toDigits 16 n
  List.replicate (4 - digits.length) '0' ++ digits

/-- The characters that stand for one character in a string. -/
def escape (c : Char) : List Char :=
  if c = '"' then ['\\', '"']
  else if c = '\\' then ['\\', '\\']
  else if c = '\n' then ['\\', 'n']
  else if c = '\r' then ['\\', 'r']
  else if c = '\t' then ['\\', 't']
  else if c = '\x08' then ['\\', 'b']
  else if c = '\x0c' then ['\\', 'f']
  else if c.toNat < 0x20 then '\\' :: 'u' :: hex4 c.toNat
  else [c]

/-- A string between quotes. -/
def printString (s : String) : String :=
  String.ofList ('"' :: s.toList.flatMap escape ++ ['"'])

/-- A new line with the indentation of a level. -/
def newline (level : Nat) : String :=
  "\n" ++ String.ofList (List.replicate (2 * level) ' ')

mutual

/-- The printed form of a value that stands at a level. -/
def printAt (level : Nat) : Json → String
  | null => "null"
  | bool true => "true"
  | bool false => "false"
  | number n => toString n
  | string s => printString s
  | array [] => "[]"
  | array (item :: rest) =>
    "[" ++ newline (level + 1) ++ printAt (level + 1) item ++ printItems (level + 1) rest ++
      newline level ++ "]"
  | object [] => "\x7b\x7d"
  | object ((name, value) :: rest) =>
    "\x7b" ++ newline (level + 1) ++ printString name ++ ": " ++ printAt (level + 1) value ++
      printFields (level + 1) rest ++ newline level ++ "\x7d"

/-- The printed form of items that follow another one. -/
def printItems (level : Nat) : List Json → String
  | [] => ""
  | item :: rest => "," ++ newline level ++ printAt level item ++ printItems level rest

/-- The printed form of fields that follow another one. -/
def printFields (level : Nat) : List (String × Json) → String
  | [] => ""
  | (name, value) :: rest =>
    "," ++ newline level ++ printString name ++ ": " ++ printAt level value ++
      printFields level rest

end

/-- The printed form of a value. -/
def print (j : Json) : String := printAt 0 j

end Json

end NaturalDeduction
