import NaturalDeduction.Text.Blank

/-!
# Tokens

Text is cut into brackets, quoted strings and words. Blank characters separate tokens, a semicolon
starts a comment that lasts to the end of its line, and a word ends before the first blank, bracket,
quote or semicolon. In a quoted string a backslash takes the next character as it is, except that
`n` and `t` stand for a line feed and a tab.

The scanner reads one character at a time and never looks ahead, so scanning a text in two parts is
scanning the second from where the first ended. The only error is a string without an end, and it is
known at the end of the text.

Lines and columns are counted from one; a column is a character. Both are kept in 32 bits and go on
with zero behind the largest number, so a place is exact in every text of fewer than 2³² characters.
-/

namespace NaturalDeduction

/-- A place in a text. -/
structure Position where
  line : Nat
  column : Nat
  deriving DecidableEq, Inhabited

namespace Position

/-- The first place of a text. -/
def start : Position := ⟨1, 1⟩

/-- The number of values that 32 bits hold, 2³². -/
def width : Nat := 4294967296

/-- The place behind a character. -/
def after (p : Position) (c : Char) : Position :=
  if c = '\n' then ⟨(p.line + 1) % width, 1⟩ else ⟨p.line, (p.column + 1) % width⟩

end Position

/-- What is wrong with a text. -/
inductive SyntaxFault where
  | unterminatedString
  | unmatchedClosing
  | unmatchedOpening
  | noExpression
  | severalExpressions
  | unnamedHole
  | binderShape
  | binderWithoutVariables
  | notAVariableName
  | ruleShape
  | equationShape
  deriving DecidableEq, Inhabited

/-- The fault in words. -/
def SyntaxFault.message : SyntaxFault → String
  | unterminatedString => "unterminated string"
  | unmatchedClosing => "unmatched right parenthesis"
  | unmatchedOpening => "unmatched left parenthesis"
  | noExpression => "expected an expression"
  | severalExpressions => "expected a single expression"
  | unnamedHole => "a pattern variable needs a name"
  | binderShape => "a binder needs variables and a body"
  | binderWithoutVariables => "a binder needs at least one variable"
  | notAVariableName => "expected a variable name"
  | ruleShape => "a rule needs a condition and a conclusion"
  | equationShape => "an equality needs exactly two sides"

/-- A fault and its place. -/
structure SyntaxError where
  fault : SyntaxFault
  position : Position
  deriving DecidableEq, Inhabited

/-- A message with the place in front of it. -/
def Position.locate (p : Position) (message : String) : String :=
  s!"{p.line}:{p.column}: " ++ message

/-- The error in words, with its place. -/
def SyntaxError.message (e : SyntaxError) : String := e.position.locate e.fault.message

/-- The sorts of tokens. -/
inductive TokenKind where
  | opening
  | closing
  | word
  /-- A quoted string. The text of the token is what the string stands for. -/
  | quotation
  deriving DecidableEq, Inhabited

/-- A token and where it starts. -/
structure Token where
  kind : TokenKind
  text : String
  position : Position
  deriving DecidableEq, Inhabited

/-- What the scanner is inside of. Characters read so far are kept in reverse. -/
inductive ScanMode where
  | between
  | comment
  | word (start : Position) (read : List Char)
  | quotation (start : Position) (read : List Char)
  /-- Behind a backslash in a quoted string. -/
  | escape (start : Position) (read : List Char)
  deriving DecidableEq, Inhabited

/-- A scanner in the middle of a text. -/
structure Scanner where
  /-- The finished tokens, newest first. -/
  tokens : List Token
  mode : ScanMode
  /-- The place of the next character. -/
  position : Position
  deriving DecidableEq, Inhabited

namespace Scanner

/-- A scanner at the start of a text. -/
def start : Scanner := ⟨[], .between, .start⟩

/-- The token that ends a word or a quoted string. -/
def finished (kind : TokenKind) (start : Position) (read : List Char) : Token :=
  ⟨kind, String.ofList read.reverse, start⟩

/-- Reads a character between tokens. -/
def enter (tokens : List Token) (position : Position) (c : Char) : List Token × ScanMode :=
  if c = ';' then (tokens, .comment)
  else if isBlank c then (tokens, .between)
  else if c = '(' then (⟨.opening, "(", position⟩ :: tokens, .between)
  else if c = ')' then (⟨.closing, ")", position⟩ :: tokens, .between)
  else if c = '"' then (tokens, .quotation position [])
  else (tokens, .word position [c])

/-- Whether a word ends before a character. -/
def isDelimiter (c : Char) : Bool := isBlank c || c == '(' || c == ')' || c == '"' || c == ';'

/-- What a character stands for behind a backslash. -/
def unescape (c : Char) : Char := if c = 'n' then '\n' else if c = 't' then '\t' else c

/-- Reads one character. -/
def step (s : Scanner) (c : Char) : Scanner :=
  let (tokens, mode) :=
    match s.mode with
    | .between => enter s.tokens s.position c
    | .comment => (s.tokens, if c = '\n' then .between else .comment)
    | .word start read =>
      if isDelimiter c then enter (finished .word start read :: s.tokens) s.position c
      else (s.tokens, .word start (c :: read))
    | .quotation start read =>
      if c = '"' then (finished .quotation start read :: s.tokens, .between)
      else if c = '\\' then (s.tokens, .escape start read)
      else (s.tokens, .quotation start (c :: read))
    | .escape start read => (s.tokens, .quotation start (unescape c :: read))
  ⟨tokens, mode, s.position.after c⟩

/-- The tokens of a text that ends here, in order. -/
def finish (s : Scanner) : Except SyntaxError (List Token) :=
  match s.mode with
  | .between => .ok s.tokens.reverse
  | .comment => .ok s.tokens.reverse
  | .word start read => .ok (finished .word start read :: s.tokens).reverse
  | .quotation start _ => .error ⟨.unterminatedString, start⟩
  | .escape start _ => .error ⟨.unterminatedString, start⟩

/-- Reads characters. -/
def run (s : Scanner) (cs : List Char) : Scanner := cs.foldl step s

theorem run_append (s : Scanner) (cs ds : List Char) :
    s.run (cs ++ ds) = (s.run cs).run ds := List.foldl_append

end Scanner

/-- The tokens of a text. -/
def tokens (text : String) : Except SyntaxError (List Token) :=
  (Scanner.start.run text.toList).finish

end NaturalDeduction
