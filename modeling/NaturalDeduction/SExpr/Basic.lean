import NaturalDeduction.SExpr.Token
import NaturalDeduction.Text.Quoted

/-!
# S-expressions

Words, quoted strings and bracketed lists, each with the place where it starts. Lists are built with
a stack of the lists that are still open, so every token is looked at once. A closing bracket
without an opening one is an error where it stands; if lists are open at the end, the error is at
the innermost of them.
-/

namespace NaturalDeduction

/-- What a text is made of. -/
inductive SExpr where
  | word (text : String) (position : Position)
  | quotation (contents : String) (position : Position)
  /-- A list; the place is that of its opening bracket. -/
  | list (position : Position) (items : List SExpr)
  deriving Inhabited

namespace SExpr

/-- Where an s-expression starts. -/
def position : SExpr → Position
  | word _ p => p
  | quotation _ p => p
  | list p _ => p

/-- The text of a word. -/
def word? : SExpr → Option String
  | word text _ => some text
  | _ => none

/-- The items of a list. -/
def items? : SExpr → Option (List SExpr)
  | list _ items => some items
  | _ => none

/-- The leading word of a list, and the items behind it. -/
def form? : SExpr → Option (String × List SExpr)
  | list _ (word head _ :: args) => some (head, args)
  | _ => none

mutual

/-- The number of nodes. -/
def size : SExpr → Nat
  | word _ _ => 1
  | quotation _ _ => 1
  | list _ items => 1 + sizes items

/-- The number of nodes of all items. -/
def sizes : List SExpr → Nat
  | [] => 0
  | e :: rest => e.size + sizes rest

end

theorem size_pos (e : SExpr) : 0 < e.size := by
  cases e <;> simp only [size] <;> omega

/-! ### Printing -/

mutual

/-- The text of an s-expression on one line. -/
def print : SExpr → String
  | word text _ => text
  | quotation contents _ => quoted contents
  | list _ items => "(" ++ printItems items ++ ")"

/-- The texts of items, a space between each two. -/
def printItems : List SExpr → String
  | [] => ""
  | [e] => print e
  | e :: rest => print e ++ " " ++ printItems rest

end

/-! ### Building lists -/

/-- A list that is still open: where it starts, and its items so far, newest first. -/
structure OpenList where
  position : Position
  items : List SExpr

/-- The lists that are open, innermost first, and the finished items around them, newest first. -/
structure Builder where
  openLists : List OpenList
  items : List SExpr

namespace Builder

/-- Nothing read. -/
def start : Builder := ⟨[], []⟩

/-- Adds a finished item to the innermost open list. -/
def add (b : Builder) (e : SExpr) : Builder :=
  match b.openLists with
  | [] => { b with items := e :: b.items }
  | l :: outer => { b with openLists := { l with items := e :: l.items } :: outer }

/-- Takes one token. -/
def step (b : Builder) (t : Token) : Except SyntaxError Builder :=
  match t.kind with
  | .word => .ok (b.add (.word t.text t.position))
  | .quotation => .ok (b.add (.quotation t.text t.position))
  | .opening => .ok { b with openLists := ⟨t.position, []⟩ :: b.openLists }
  | .closing =>
    match b.openLists with
    | [] => .error ⟨.unmatchedClosing, t.position⟩
    | l :: outer =>
      .ok (Builder.add { b with openLists := outer } (.list l.position l.items.reverse))

/-- The items of a text that ends here, in order. -/
def finish (b : Builder) : Except SyntaxError (List SExpr) :=
  match b.openLists with
  | [] => .ok b.items.reverse
  | l :: _ => .error ⟨.unmatchedOpening, l.position⟩

end Builder

/-- The s-expressions that tokens spell. -/
def ofTokens (ts : List Token) : Except SyntaxError (List SExpr) := do
  (← ts.foldlM Builder.step Builder.start).finish

/-- The s-expressions of a text. -/
def parse (text : String) : Except SyntaxError (List SExpr) := do
  ofTokens (← tokens text)

/-- The s-expression of a text that holds just one. -/
def parseOne (text : String) : Except SyntaxError SExpr := do
  match ← parse text with
  | [] => .error ⟨.noExpression, .start⟩
  | [e] => .ok e
  | _ :: second :: _ => .error ⟨.severalExpressions, second.position⟩

end SExpr

end NaturalDeduction
