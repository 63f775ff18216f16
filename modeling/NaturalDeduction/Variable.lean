/-!
# Variables and fresh names

A variable is known by its number alone. The hint beside the number is only printed, so nothing in
this library compares hints: every comparison of variables is a comparison of `id`s, and the
structural equality that Lean derives is kept for statements about whole states.

Numbers are handed out by a counter that never goes back. The counter is ordinary state (`Fresh`),
so that a computation says what it draws, and in which order.
-/

namespace NaturalDeduction

/-- A variable: the number that identifies it and a name for the reader. -/
structure Variable where
  /-- The name that is printed in front of the number. -/
  hint : String
  /-- The number that identifies the variable. -/
  id : Nat
  deriving DecidableEq, Inhabited

/-- Computations that may draw variables. The state is the next unused number. -/
abbrev Fresh := StateM Nat

namespace Variable

/-- Draws a variable that no earlier draw returned. -/
def fresh (hint : String) : Fresh Variable :=
  modifyGet fun next ↦ (⟨hint, next⟩, next + 1)

@[simp] theorem fresh_run (hint : String) (next : Nat) :
    (fresh hint).run next = (⟨hint, next⟩, next + 1) := rfl

/-- Draws a variable with the hint of `v`. -/
def refresh (v : Variable) : Fresh Variable := fresh v.hint

@[simp] theorem refresh_run (v : Variable) (next : Nat) :
    v.refresh.run next = (⟨v.hint, next⟩, next + 1) := rfl

/-- The printed form: hint, underscore, number. -/
def text (v : Variable) : String := v.hint ++ "_" ++ toString v.id

/-- Inserts a variable into a list sorted by number, unless its number is there already. -/
def insertById (v : Variable) : List Variable → List Variable
  | [] => [v]
  | w :: rest =>
    if v.id < w.id then v :: w :: rest
    else if v.id = w.id then w :: rest
    else w :: insertById v rest

theorem mem_ids_insertById {v : Variable} {n : Nat} {vs : List Variable} :
    n ∈ (insertById v vs).map id ↔ n = v.id ∨ n ∈ vs.map id := by
  induction vs with
  | nil => simp [insertById]
  | cons w rest ih =>
    unfold insertById
    split
    · simp
    · split
      · rename_i h
        simp only [List.map_cons, List.mem_cons, h]
        grind
      · simp only [List.map_cons, List.mem_cons, ih]
        grind

end Variable

end NaturalDeduction
