import NaturalDeduction.Expression.Layout
import NaturalDeduction.Occurrences
import NaturalDeduction.Expression.Substitution

/-!
# Deductions

A deduction takes parameters and conditions and derives statements from them. Each entry has a
name, a statement and a justification: the entry is a condition if it was just supposed, and
otherwise the justification names the premises it was inferred from. A finished deduction can itself
be a justification, so the three types are defined together.

Entries are kept newest first, as everything that is asked of them is asked of the newest: which
statement a name or a relative index means, and what was derived last. Forgetting is dropping from
the front.

The closed theorem of a deduction says that its conditions, oldest outermost, imply what was derived
last, for all values of the parameters.
-/

namespace NaturalDeduction

mutual

/-- How an entry was established. -/
inductive Justification where
  /-- Taken for granted: an axiom at the root, a hypothesis elsewhere. -/
  | supposition
  /-- The conclusion of the rule with the first name, whose condition has the second name. -/
  | detachment (rule condition : String)
  /-- The universal quantification with the given name, for one value. -/
  | specialization (target : String) (value : Expression)
  /-- The equation between a recorded replacement and its result. -/
  | replacement (target : Expression) (replacements : List Replacement) (chosen : Occurrences)
  /-- A decided ground statement; the entry is its negation if it does not hold. -/
  | verification (e : Expression) (holds : Bool)
  /-- The closed theorem of a finished deduction. -/
  | deduction (d : Deduction)

/-- A named statement with its justification. -/
structure Entry where
  name : String
  statement : Expression
  justification : Justification

/-- A proof under construction, or a finished one. -/
structure Deduction where
  name : String
  /-- The variables that the theorem will quantify over, outermost first. -/
  parameters : List Variable
  /-- What is supposed and derived, newest first. -/
  entries : List Entry

end

instance : Inhabited Justification := ⟨.supposition⟩
instance : Inhabited Deduction := ⟨⟨"", [], []⟩⟩
instance : Inhabited Entry := ⟨⟨"", default, default⟩⟩

namespace Justification

/-- Whether the entry is a condition. -/
def isSupposition : Justification → Bool
  | supposition => true
  | _ => false

/-- The sort of justification, in words. -/
def kind : Justification → String
  | supposition => "supposition"
  | detachment .. => "modus ponens"
  | specialization .. => "binding"
  | replacement .. => "substitution"
  | verification .. => "elementary verification"
  | deduction _ => "deduction"

/-- The justification in words. -/
def describe : Justification → String
  | supposition => "supposition"
  | detachment rule condition => s!"modus ponens on '{rule}' with '{condition}'"
  | specialization target value => s!"binding '{target}' to " ++ value.print
  | replacement target _ _ => "substitution in " ++ target.print
  | verification e holds => "elementary verification of " ++ e.print ++ s!" ({holds})"
  | deduction d => s!"deduction '{d.name}'"

end Justification

namespace Entry

/-- Whether the entry was just supposed. -/
def isCondition (e : Entry) : Bool := e.justification.isSupposition

end Entry

namespace Deduction

/-- A deduction in which nothing has happened. -/
def empty (name : String) : Deduction := ⟨name, [], []⟩

/-- The entry with a name. -/
def find? (d : Deduction) (name : String) : Option Entry := d.entries.find? (·.name == name)

/-- The statement with a name. -/
def get? (d : Deduction) (name : String) : Option Expression := (d.find? name).map (·.statement)

/-- The names, oldest first. -/
def names (d : Deduction) : List String := (d.entries.map (·.name)).reverse

/-- Adds an entry. Nothing happens if its name stands for an equal statement already; if it stands
for another one, that statement is the error. -/
def insert (d : Deduction) (e : Entry) : Except Expression Deduction :=
  match d.get? e.name with
  | some existing => if existing.alphaEq e.statement then .ok d else .error existing
  | none => .ok { d with entries := e :: d.entries }

/-- Adds a parameter, unless it is one already. -/
def addParameter (d : Deduction) (v : Variable) : Deduction :=
  if d.parameters.any (·.id == v.id) then d else { d with parameters := d.parameters ++ [v] }

/-- The conditions, oldest first. -/
def conditions (d : Deduction) : List Expression :=
  ((d.entries.filter (·.isCondition)).map (·.statement)).reverse

/-- The entry that was derived last. -/
def lastDerived? (d : Deduction) : Option Entry := d.entries.find? (!·.isCondition)

/-- The closed theorem, if something was derived. -/
def closedTheorem? (d : Deduction) : Option Expression :=
  d.lastDerived?.map fun e ↦ .alls d.parameters (.rules d.conditions e.statement)

/-- Forgets all but the oldest `numEntries` entries and the first `numParameters` parameters. -/
def truncate (d : Deduction) (numEntries numParameters : Nat) : Deduction :=
  { d with
    entries := d.entries.drop (d.entries.length - numEntries)
    parameters := d.parameters.take numParameters }

end Deduction

end NaturalDeduction
