/-!
# Sets of occurrences

Which of the matches of a replacement are to be replaced: a finite set of indices, kept as a
strictly increasing list. The empty set stands for every match.
-/

namespace NaturalDeduction

/-- A finite set of match indices; empty means all matches. -/
structure Occurrences where
  /-- The indices, smallest first. -/
  indices : List Nat
  increasing : indices.Pairwise (· < ·) := by decide
  deriving DecidableEq

namespace Occurrences

instance : Inhabited Occurrences := ⟨⟨[], .nil⟩⟩

/-- Every match. -/
def all : Occurrences := ⟨[], .nil⟩

/-- Inserts an index into an increasing list. -/
def insertIndex (i : Nat) : List Nat → List Nat
  | [] => [i]
  | j :: rest =>
    if i < j then i :: j :: rest else if i = j then j :: rest else j :: insertIndex i rest

theorem mem_insertIndex {i k : Nat} {js : List Nat} :
    k ∈ insertIndex i js ↔ k = i ∨ k ∈ js := by
  induction js with
  | nil => simp [insertIndex]
  | cons j rest ih =>
    unfold insertIndex
    split
    · simp
    · split
      · simp_all
      · simp only [List.mem_cons, ih]
        grind

theorem insertIndex_increasing {i : Nat} {js : List Nat} (h : js.Pairwise (· < ·)) :
    (insertIndex i js).Pairwise (· < ·) := by
  induction js with
  | nil => simp [insertIndex]
  | cons j rest ih =>
    rw [List.pairwise_cons] at h
    unfold insertIndex
    split
    · simp only [List.pairwise_cons, List.mem_cons, forall_eq_or_imp]
      grind
    · split
      · exact List.pairwise_cons.mpr h
      · refine List.pairwise_cons.mpr ⟨fun k hk ↦ ?_, ih h.2⟩
        rcases mem_insertIndex.mp hk with rfl | hk
        · omega
        · exact h.1 k hk

/-- Adds an index to a set. -/
def insert (i : Nat) (o : Occurrences) : Occurrences :=
  ⟨insertIndex i o.indices, insertIndex_increasing o.increasing⟩

/-- The set of the listed indices, in whatever order and however often they are listed. -/
def ofList (is : List Nat) : Occurrences := is.foldr insert all

theorem mem_indices_ofList {k : Nat} {is : List Nat} : k ∈ (ofList is).indices ↔ k ∈ is := by
  induction is with
  | nil => simp [ofList, all]
  | cons i rest ih =>
    simp only [ofList, List.foldr_cons, insert, mem_insertIndex, List.mem_cons] at ih ⊢
    rw [ih]

/-- Whether the match with index `i` is to be replaced. -/
def selects (o : Occurrences) (i : Nat) : Bool := o.indices.isEmpty || o.indices.contains i

@[simp] theorem selects_all (i : Nat) : all.selects i = true := rfl

end Occurrences

end NaturalDeduction
