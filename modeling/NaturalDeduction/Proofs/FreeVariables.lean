import Mathlib.Data.List.Sort
import NaturalDeduction.Proofs.ReplacingValues

/-!
# Questions about free variables

An expression is asked about its variables in two ways. Whether one variable occurs free is decided
on the way down, and a binder over its number ends the search; the list of all free variables is
collected under the list of the variables that are bound so far. The two agree, and neither notices
the names of bound variables.

That the lists of two equal expressions are the same takes their order as well: `freeVariables` is
strictly increasing (`Expression.freeVariables_increasing`), and such a list is known from its
members. What is asked besides is carried by the comparison itself, part by part: whether holes
occur, and how many nodes there are, whatever leeway the comparison has
(`Expression.size_eq_of_equalUnder`).

Main statement: `Expression.freeVariables_isExact`.
-/

namespace NaturalDeduction

namespace Variable

/-- Insertion keeps the list in order and free of repetitions. -/
theorem insertById_increasing {v : Variable} {vs : List Variable}
    (h : (vs.map (·.id)).Pairwise (· < ·)) : ((insertById v vs).map (·.id)).Pairwise (· < ·) := by
  induction vs with
  | nil => exact List.pairwise_singleton _ _
  | cons w rest ih =>
    have hcons := h
    rw [List.map_cons, List.pairwise_cons] at hcons
    obtain ⟨hw, hrest⟩ := hcons
    unfold insertById
    split
    · rename_i hlt
      refine List.pairwise_cons.2 ⟨fun n hn ↦ ?_, h⟩
      rcases List.mem_cons.1 hn with rfl | hn
      · exact hlt
      · exact Nat.lt_trans hlt (hw n hn)
    · split
      · exact h
      · rename_i hle hne
        refine List.pairwise_cons.2 ⟨fun n hn ↦ ?_, ih hrest⟩
        rcases mem_ids_insertById.1 hn with rfl | hn
        · exact Nat.lt_of_le_of_ne (Nat.le_of_not_lt hle) (Ne.symm hne)
        · exact hw n hn

end Variable

namespace Expression

/-! ### The list of free variables -/

/-- Each number is listed once, and the numbers increase. -/
theorem freeVariables_increasing (e : Expression) :
    (e.freeVariables.map (·.id)).Pairwise (· < ·) := by
  have hfold : ∀ vs acc : List Variable, (acc.map (·.id)).Pairwise (· < ·) →
      ((vs.foldl (fun vs v ↦ v.insertById vs) acc).map (·.id)).Pairwise (· < ·) := by
    intro vs
    induction vs with
    | nil => exact fun acc h ↦ h
    | cons v rest ih => exact fun acc h ↦ ih _ (Variable.insertById_increasing h)
  exact hfold _ _ .nil

/-- Where the same variables occur free, the same numbers are listed. -/
theorem ids_freeVariables_eq {a b : Expression} (h : ∀ v, a.occursFree v = b.occursFree v) :
    a.freeVariables.map (·.id) = b.freeVariables.map (·.id) := by
  refine (freeVariables_increasing a).eq_of_mem_iff (freeVariables_increasing b) fun n ↦ ?_
  rw [mem_freeVariables_iff_occursFree (v := ⟨"", n⟩),
    mem_freeVariables_iff_occursFree (v := ⟨"", n⟩), h]

/-! ### The number of nodes -/

/-- Operands are counted one by one. -/
theorem sizes_congr {as bs : List Expression} (h : List.Forall₂ (fun a b ↦ a.size = b.size) as bs) :
    sizes as = sizes bs := by
  induction h with
  | nil => rfl
  | cons hab _ ih => rw [sizes, sizes, hab, ih]

/-- Expressions that are equal have equally many nodes, whatever they may differ in. -/
theorem size_eq_of_equalUnder {leeway : Leeway} {p : Pairing} {a b : Expression}
    (h : equalUnder leeway p a b = true) : a.size = b.size := by
  induction h using equalUnder_induction with
  | var | constant => rfl
  | binder _ ih => rw [size, size, ih]
  | implies _ _ ih ih' | equals _ _ ih ih' => rw [size, size, ih, ih']
  | turned _ _ _ ih ih' => rw [size, size, ih, ih', Nat.add_right_comm]
  | application _ ih =>
    rw [size, size, sizes_congr (ih.imp fun _ _ hab ↦ hab.elim fun _ ih ↦ ih)]
  | @crossed _ _ _ _ c d _ _ _ ih ih' =>
    simp only [size, sizes]
    rw [ih, ih', Nat.add_left_comm d.size]

/-! ### The theorem -/

/-- **What is asked about free variables.** A variable occurs free in an expression exactly if its
number is among those of the free variables. And expressions that are equal up to bound names have
the same free variables, are both ground or both not, have both holes or both none, and have equally
many nodes. -/
theorem freeVariables_isExact (a : Expression) :
    (∀ v, a.occursFree v = true ↔ v.id ∈ a.freeVariables.map (·.id)) ∧
    ∀ b, a.alphaEq b = true →
      a.freeVariables.map (·.id) = b.freeVariables.map (·.id) ∧ a.isGround = b.isGround ∧
        a.hasHoles = b.hasHoles ∧ a.size = b.size := by
  refine ⟨fun v ↦ mem_freeVariables_iff_occursFree.symm, fun b h ↦ ?_⟩
  have hopen := openAlike_of_alphaEq h
  exact ⟨ids_freeVariables_eq hopen.occursFree, hopen.isGround_eq, hopen.hasHoles,
    size_eq_of_equalUnder h⟩

/-- `(forall (x_0) (P x_0 z_7 (exists (x_0) (Q x_0 z_7))))`, and the same with two binders that are
over different numbers. -/
theorem freeVariables_isExact_shadowed :
    let z : Expression := .var ⟨"z", 7⟩
    let statement (v w : Variable) : Expression :=
      .all v (.call "P" [.var v, z, .binder .existential w (.call "Q" [.var w, z])])
    (statement ⟨"x", 0⟩ ⟨"x", 0⟩).alphaEq (statement ⟨"y", 1⟩ ⟨"w", 2⟩) = true ∧
      (statement ⟨"x", 0⟩ ⟨"x", 0⟩).freeVariables.map (·.id) =
        (statement ⟨"y", 1⟩ ⟨"w", 2⟩).freeVariables.map (·.id) ∧
      (statement ⟨"y", 1⟩ ⟨"w", 2⟩).isGround = false := by
  intro z statement
  have hsame :
      (statement ⟨"x", 0⟩ ⟨"x", 0⟩).alphaEq (statement ⟨"y", 1⟩ ⟨"w", 2⟩) = true := by decide
  obtain ⟨-, hall⟩ := freeVariables_isExact (statement ⟨"x", 0⟩ ⟨"x", 0⟩)
  obtain ⟨hfree, hground, -, -⟩ := hall _ hsame
  exact ⟨hsame, hfree, hground ▸ by decide⟩

end Expression

end NaturalDeduction
