import NaturalDeduction.Deduction.Basic
import NaturalDeduction.Expression.Json

/-!
# Deductions as JSON

A deduction is an object: its name, its parameters, its statements by name, its names from the
oldest to the newest, and its justifications by name. A justification is an object with one field
for its sort, which holds the parts by name; a supposition, which has no parts, is a string.
-/

namespace NaturalDeduction

/-- A replacement as JSON: the key and the value. -/
def Replacement.toJson (r : Replacement) : Json := .array [r.key.toJson, r.value.toJson]

/-- Reads a replacement. -/
def Replacement.ofJson? : Json → Option Replacement
  | .array [k, v] => do return ⟨← Expression.ofJson? k, ← Expression.ofJson? v⟩
  | _ => none

mutual

/-- A justification as JSON. -/
def Justification.toJson : Justification → Json
  | .supposition => .string "Supposition"
  | .detachment rule condition =>
    .object [("ModusPonens", .object [("rule", .string rule), ("condition", .string condition)])]
  | .specialization target value =>
    .object [("Binding", .object [("target", .string target), ("value", value.toJson)])]
  | .replacement target replacements chosen =>
    .object [("Substitution", .object [
      ("target", target.toJson),
      ("replacements", .array (replacements.map Replacement.toJson)),
      ("occurrences", .array (chosen.indices.map fun (i : Nat) ↦ .number i))])]
  | .verification e holds =>
    .object [("ElementaryVerification", .object [
      ("expression", e.toJson), ("holds", .bool holds)])]
  | .deduction d => .object [("Deduction", Deduction.toJson d)]

/-- The justifications of entries by name, in the order of the entries. -/
def Deduction.proofFields : List Entry → List (String × Json)
  | [] => []
  | ⟨name, _, justification⟩ :: rest =>
    (name, justification.toJson) :: Deduction.proofFields rest

/-- A deduction as JSON. -/
def Deduction.toJson : Deduction → Json
  | ⟨name, parameters, entries⟩ =>
    .object [
      ("name", .string name),
      ("parameters", .array (parameters.map Variable.toJson)),
      ("propositions", .object ((entries.map fun e ↦ (e.name, e.statement.toJson)).reverse)),
      ("order", .strings (entries.map (·.name)).reverse),
      ("proofs", .object (Deduction.proofFields entries).reverse)]

end

/-- Puts an entry together from its name and the tables of statements and justifications. -/
def Deduction.entry? (statements : List (String × Json)) (proofs : List (String × Justification))
    (name : String) : Option Entry := do
  let statement ← Expression.ofJson? (← (statements.find? (·.1 == name)).map (·.2))
  let justification ← (proofs.find? (·.1 == name)).map (·.2)
  return ⟨name, statement, justification⟩

mutual

/-- Reads a justification. -/
def Justification.ofJson? : Json → Option Justification
  | .string "Supposition" => some .supposition
  | .object [("ModusPonens", .object [("rule", .string rule), ("condition", .string condition)])] =>
    some (.detachment rule condition)
  | .object [("Binding", .object [("target", .string target), ("value", value)])] =>
    (Expression.ofJson? value).map (.specialization target)
  | .object [("Substitution", .object [("target", target), ("replacements", .array replacements),
      ("occurrences", .array occurrences)])] => do
    let target ← Expression.ofJson? target
    let replacements ← replacements.mapM Replacement.ofJson?
    let indices ← occurrences.mapM Json.natural?
    return .replacement target replacements (.ofList indices)
  | .object [("ElementaryVerification", .object [("expression", e), ("holds", .bool holds)])] =>
    (Expression.ofJson? e).map (.verification · holds)
  | .object [("Deduction", d)] => (Deduction.ofJson? d).map .deduction
  | _ => none

/-- Reads justifications by name. -/
def Deduction.proofsOfFields? : List (String × Json) → Option (List (String × Justification))
  | [] => some []
  | (name, j) :: rest => do
    return (name, ← Justification.ofJson? j) :: (← Deduction.proofsOfFields? rest)

/-- Reads a deduction. -/
def Deduction.ofJson? : Json → Option Deduction
  | .object [("name", .string name), ("parameters", .array parameters),
      ("propositions", .object statements), ("order", .array order),
      ("proofs", .object proofs)] => do
    let proofs ← Deduction.proofsOfFields? proofs
    let names ← order.mapM Json.string?
    let entries ← names.mapM (Deduction.entry? statements proofs)
    return ⟨name, ← parameters.mapM Variable.ofJson?, entries.reverse⟩
  | _ => none

end

end NaturalDeduction
