import NaturalDeduction.Expression.Alpha
import NaturalDeduction.Occurrences

/-!
# Replacing subterms

A replacement is a key and a value; keys are expressions of any shape. The walk goes through the
target from the outside in and from left to right. At each node the first replacement whose key is
equal to the node up to bound names makes it a match; matches are numbered over all keys, the
selected ones are replaced whole, and the walk never enters a match.

No capture. Under a binder the replacements whose key mentions the bound variable are out of force,
because there that name means something else. If a value still in force mentions the bound variable,
the binder first gets a fresh one. Renaming may itself have to rename inner binders, so it is a
computation in `Fresh`, and it keeps the number of nodes, which is why the walk ends.

A replacement carried out can also be recorded without being carried out, as an application of the
symbol `subst` to the target, the list of keys and values, and the list of selected indices.
-/

namespace NaturalDeduction

/-- What to look for and what to put in its place. -/
structure Replacement where
  key : Expression
  value : Expression
  deriving Inhabited

namespace Expression

/-! ### Renaming -/

mutual

/-- Renames the free occurrences of `old` to `new`. The size of the result is part of its type. -/
def renameSized (old new : Variable) :
    (e : Expression) → Fresh { r : Expression // r.size = e.size }
  | atom (.var v) => pure ⟨if v.id = old.id then var new else atom (.var v), by split <;> rfl⟩
  | atom (.symbol s) => pure ⟨atom (.symbol s), rfl⟩
  | atom (.text s) => pure ⟨atom (.text s), rfl⟩
  | atom (.number q) => pure ⟨atom (.number q), rfl⟩
  | atom (.hole v) => pure ⟨atom (.hole v), rfl⟩
  | binder kind v body =>
    if v.id = old.id then pure ⟨binder kind v body, rfl⟩
    else if v.id = new.id then do
      let w ← v.refresh
      let ⟨body₁, h₁⟩ ← renameSized v w body
      let ⟨body₂, h₂⟩ ← renameSized old new body₁
      pure ⟨binder kind w body₂, by simp [size, h₁, h₂]⟩
    else do
      let ⟨body', h⟩ ← renameSized old new body
      pure ⟨binder kind v body', by simp [size, h]⟩
  | implies a b => do
    let ⟨a', ha⟩ ← renameSized old new a
    let ⟨b', hb⟩ ← renameSized old new b
    pure ⟨implies a' b', by simp [size, ha, hb]⟩
  | equals a b => do
    let ⟨a', ha⟩ ← renameSized old new a
    let ⟨b', hb⟩ ← renameSized old new b
    pure ⟨equals a' b', by simp [size, ha, hb]⟩
  | application items => do
    let ⟨items', h⟩ ← renameAllSized old new items
    pure ⟨application items', by simp [size, h]⟩
termination_by e => 2 * e.size
decreasing_by all_goals simp only [size]; omega

/-- The same for a list of expressions. -/
def renameAllSized (old new : Variable) :
    (es : List Expression) → Fresh { rs : List Expression // sizes rs = sizes es }
  | [] => pure ⟨[], rfl⟩
  | e :: rest => do
    let ⟨e', he⟩ ← renameSized old new e
    let ⟨rest', hr⟩ ← renameAllSized old new rest
    pure ⟨e' :: rest', by simp [sizes, he, hr]⟩
termination_by es => 2 * sizes es + 1
decreasing_by all_goals have := size_pos e; simp only [sizes]; omega

end

/-- Renames the free occurrences of `old` to `new`, which should be fresh: an inner binder over
`new` gets a fresh variable of its own. -/
def rename (e : Expression) (old new : Variable) : Fresh Expression :=
  (·.val) <$> renameSized old new e

/-! ### The walk -/

/-- Computations that count the matches met so far and may draw variables. -/
abbrev Counting := StateT Nat Fresh

/-- The next match: whether it is selected. -/
def nextSelected (chosen : Occurrences) : Counting Bool := do
  let index ← get
  set (index + 1)
  return chosen.selects index

mutual

/-- Walks through an expression with the replacements that are in force. -/
def walk (chosen : Occurrences) (inForce : List Replacement) (e : Expression) :
    Counting Expression := do
  match inForce.find? (·.key.alphaEq e) with
  | some r => return if ← nextSelected chosen then r.value else e
  | none =>
    match e with
    | atom _ => return e
    | binder kind v body =>
      let inner := inForce.filter fun r ↦ !r.key.occursFree v
      if inner.any fun r ↦ r.value.occursFree v then
        let w ← v.refresh
        let ⟨body', _⟩ ← renameSized v w body
        return binder kind w (← walk chosen inner body')
      else
        return binder kind v (← walk chosen inner body)
    | implies a b => return implies (← walk chosen inForce a) (← walk chosen inForce b)
    | equals a b => return equals (← walk chosen inForce a) (← walk chosen inForce b)
    | application items => return application (← walkAll chosen inForce items)
termination_by 2 * e.size
decreasing_by all_goals simp only [size]; omega

/-- Walks through a list of expressions, one after the other. -/
def walkAll (chosen : Occurrences) (inForce : List Replacement) (es : List Expression) :
    Counting (List Expression) := do
  match es with
  | [] => return []
  | e :: rest => return (← walk chosen inForce e) :: (← walkAll chosen inForce rest)
termination_by 2 * sizes es + 1
decreasing_by all_goals have := size_pos e; simp only [sizes]; omega

end

/-- Replaces the selected matches, and says how many matches the walk met, selected or not. -/
def substituteCounting (target : Expression) (replacements : List Replacement)
    (chosen : Occurrences) : Fresh (Expression × Nat) :=
  (walk chosen replacements target).run 0

/-- Replaces the selected matches. -/
def substitute (target : Expression) (replacements : List Replacement) (chosen : Occurrences) :
    Fresh Expression :=
  (·.1) <$> substituteCounting target replacements chosen

/-- The body of a binder with `value` for the bound variable. -/
def instantiate? : Expression → Expression → Fresh (Option Expression)
  | binder _ v body, value => some <$> body.substitute [⟨var v, value⟩] .all
  | _, _ => pure none

/-! ### Recorded replacements -/

/-- A set of indices as a list of numbers. Indices are written as signed 64-bit numbers, so they
wrap around from 2⁶³ on. -/
def ofOccurrences (chosen : Occurrences) : Expression :=
  application (chosen.indices.map fun (i : Nat) ↦ int (Int.bmod i UInt64.size))

/-- The record of a replacement: `(subst target ((key value) …) (index …))`. -/
def recorded (target : Expression) (replacements : List Replacement) (chosen : Occurrences) :
    Expression :=
  call "subst"
    [target, application (replacements.map fun r ↦ application [r.key, r.value]),
      ofOccurrences chosen]

end Expression

end NaturalDeduction
