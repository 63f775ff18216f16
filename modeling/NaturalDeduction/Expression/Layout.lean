import NaturalDeduction.Expression.Basic
import NaturalDeduction.Text.Quoted
import NaturalDeduction.Text.Width

/-!
# Printing expressions

An expression is printed as a list in the syntax it is read from. Nested universal quantifiers share
one list of variables, nested implications one arrow.

A `Layout` is what is left to print once these decisions are made: pieces of text that are never
broken, and lists of a head and items. A list that fits on the rest of its line is written there
with single spaces. Any other puts every item on a line of its own, two columns further in than the
list itself. A line with nothing but closing brackets, which an empty last item leaves, is indented
like the list instead. A list fits if it and the brackets that close right behind it end within the
width; the item that follows a list never counts, as it can go to the next line.

The printed form is a sequence of `Ink`, in which a place that may break is either a `gap` or a
`newline`. So what a layout decides can be compared with what it would print on one endless line.
-/

namespace NaturalDeduction

/-- The printed form of an atom. -/
def Atom.print : Atom → String
  | symbol name => name
  | text contents => quoted contents
  | number q => Number.canonical q
  | var v => v.text
  | hole v => "?" ++ v.text

/-- What is printed, with the places that may break still in it. -/
inductive Layout where
  /-- Text that stays together. -/
  | piece (s : String)
  /-- A bracketed list: the head, then the items, with a place to break before each item. -/
  | list (head : Layout) (items : List Layout)
  deriving Inhabited

/-- The printed form, place by place. -/
inductive Ink where
  | piece (s : String)
  /-- A place to break that was not used. -/
  | gap
  /-- A place to break that was used, and the indentation of the new line. -/
  | newline (indent : Nat)
  deriving DecidableEq, Inhabited

/-- The characters that ink puts on the page. -/
def Ink.text : Ink → String
  | piece s => s
  | gap => " "
  | newline indent => "\n" ++ String.ofList (List.replicate indent ' ')

namespace Layout

/-- Whether nothing is printed. -/
def isEmpty : Layout → Bool
  | piece s => s.isEmpty
  | list _ _ => false

/-! ### On one line -/

mutual

/-- Everything on one line. -/
def flat : Layout → List Ink
  | piece s => [.piece s]
  | list head items => .piece "(" :: flat head ++ flatItems items ++ [.piece ")"]

/-- Items on one line, a gap before each. -/
def flatItems : List Layout → List Ink
  | [] => []
  | l :: rest => .gap :: flat l ++ flatItems rest

end

mutual

/-- The columns that everything takes on one line. -/
def flatWidth : Layout → Nat
  | piece s => textWidth s
  | list head items => 1 + flatWidth head + flatItemsWidth items + 1

/-- The columns that items take on one line, with the gaps. -/
def flatItemsWidth : List Layout → Nat
  | [] => 0
  | l :: rest => 1 + flatWidth l + flatItemsWidth rest

end

/-! ### Within a width -/

mutual

/-- Prints from `column` on, with `closers` brackets to follow before the next place to break.
Answers the ink and the column behind it. -/
def place (width indent closers column : Nat) : Layout → List Ink × Nat
  | piece s => ([.piece s], column + textWidth s)
  | list head items =>
    if column + flatWidth (list head items) + closers ≤ width then
      (flat (list head items), column + flatWidth (list head items))
    else
      let headClosers := if items.isEmpty then closers + 1 else 0
      let (headInk, column₁) := place width (indent + 2) headClosers (column + 1) head
      let (itemInk, column₂) := placeItems width indent (closers + 1) column₁ items
      (.piece "(" :: headInk ++ itemInk ++ [.piece ")"], column₂ + 1)

/-- Prints the items of a list that is indented by `indent`, each on a line of its own; `closers`
brackets follow the last one. -/
def placeItems (width indent closers column : Nat) : List Layout → List Ink × Nat
  | [] => ([], column)
  | l :: rest =>
    let own := if rest.isEmpty then closers else 0
    let lineIndent := if rest.isEmpty && l.isEmpty then indent else indent + 2
    let (ink, column₁) := place width lineIndent own lineIndent l
    let (restInk, column₂) := placeItems width indent closers column₁ rest
    (.newline lineIndent :: ink ++ restInk, column₂)

end

/-- The widest line that a list is printed on if it can be broken instead. -/
def pageWidth : Nat := 80

/-- The printed form of a layout at the start of a line. -/
def ink (l : Layout) : List Ink := (place pageWidth 0 0 0 l).1

/-- The text of printed ink. -/
def print (ink : List Ink) : String := String.join (ink.map Ink.text)

end Layout

namespace Expression

/-- The head of a binder over the given variables. -/
def binderHead (kind : BinderKind) (vs : List Variable) : Layout :=
  .piece (kind.keyword ++ " (" ++ " ".intercalate (vs.map Variable.text) ++ ")")

mutual

/-- What is printed for an expression. -/
def layout : Expression → Layout
  | atom a => .piece a.print
  | binder .universal v body => layoutAlls [v] body
  | binder kind v body => .list (binderHead kind [v]) [layout body]
  | implies c d => .list (.piece "->") (layout c :: layoutRules d)
  | equals a b => .list (.piece "=") [layout a, layout b]
  | application [] => .piece "()"
  | application (head :: rest) => .list (layout head) (layoutItems rest)
termination_by e => 2 * e.size
decreasing_by all_goals simp only [size, sizes]; omega

/-- What is printed for an expression under quantifiers over `vs`, which are given outermost
first. -/
def layoutAlls (vs : List Variable) : Expression → Layout
  | binder .universal v body => layoutAlls (vs ++ [v]) body
  | e => .list (binderHead .universal vs) [layout e]
termination_by e => 2 * e.size + 1
decreasing_by
  · simp only [size]; omega
  · omega

/-- What is printed for the conclusion of a rule: its conditions, if it is a rule, and its
conclusion. -/
def layoutRules : Expression → List Layout
  | implies c d => layout c :: layoutRules d
  | e => [layout e]
termination_by e => 2 * e.size + 1
decreasing_by
  · simp only [size]; omega
  · simp only [size]; omega
  · omega

/-- What is printed for each expression of a list. -/
def layoutItems : List Expression → List Layout
  | [] => []
  | e :: rest => layout e :: layoutItems rest
termination_by es => 2 * sizes es + 1
decreasing_by all_goals have := size_pos e; simp only [sizes]; omega

end

/-- The printed form of an expression. -/
def print (e : Expression) : String := Layout.print e.layout.ink

end Expression

end NaturalDeduction
