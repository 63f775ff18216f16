import NaturalDeduction.Inference
import NaturalDeduction.Proofs.Replacement

/-!
# Records of replacements

A replacement can be recorded without being carried out: as a call of `subst` with the target, the
list of keys and values, and the list of the selected indices. This file shows that a record loses
nothing. Two records that are equal up to bound names come from targets, keys and values that are
equal up to bound names and from one and the same selection.

The selection is the part that could be lost. Indices are written as signed numbers, so the ones
from 2⁶³ on are written as negative numbers; but no two of them are written alike, as long as they
are words of 64 bits. And the empty selection, which stands for every match, is written as the empty
list, as which no other selection is written.

Main statements:

* `Expression.recorded_alphaEq_iff`: what it takes for two records to be equal up to bound names.
* `Inference.replacement_isFunctional`: what a record reduces to is a function of the record.
-/

namespace NaturalDeduction

/-! ### Written indices -/

namespace Occurrences

/-- Every index is a word of 64 bits. -/
def AreWords (chosen : Occurrences) : Prop := ∀ i ∈ chosen.indices, i < UInt64.size

instance (chosen : Occurrences) : Decidable chosen.AreWords :=
  inferInstanceAs (Decidable (∀ i ∈ chosen.indices, i < UInt64.size))

/-- Written with sign, words of 64 bits are still told apart. -/
theorem eq_of_bmod_eq {i j : Nat} (hi : i < UInt64.size) (hj : j < UInt64.size)
    (h : Int.bmod i UInt64.size = Int.bmod j UInt64.size) : i = j := by
  have hmod : (i : Int) % UInt64.size = j % UInt64.size := by
    rw [← Int.bmod_emod, h, Int.bmod_emod]
  rwa [Int.emod_eq_of_lt (Int.natCast_nonneg i) (Int.ofNat_lt.2 hi),
    Int.emod_eq_of_lt (Int.natCast_nonneg j) (Int.ofNat_lt.2 hj), Int.natCast_inj] at hmod

/-- So are lists of them. -/
theorem eq_of_map_bmod_eq {is js : List Nat} (his : ∀ i ∈ is, i < UInt64.size)
    (hjs : ∀ j ∈ js, j < UInt64.size)
    (h : is.map (fun i : Nat ↦ Int.bmod i UInt64.size) =
      js.map fun j : Nat ↦ Int.bmod j UInt64.size) : is = js := by
  induction is generalizing js with
  | nil => exact (List.map_eq_nil_iff.1 h.symm).symm
  | cons i rest ih =>
    obtain ⟨j, rest', rfl, hij, hrest⟩ := List.map_eq_cons_iff.1 h.symm
    obtain ⟨hi, hisrest⟩ := List.forall_mem_cons.1 his
    obtain ⟨hj, hjsrest⟩ := List.forall_mem_cons.1 hjs
    rw [eq_of_bmod_eq hi hj hij.symm, ih hisrest hjsrest hrest.symm]

end Occurrences

namespace Expression

/-! ### The form of a record -/

theorem namelessIn_int (scope : List Nat) (z : Int) : (int z).namelessIn scope = .number z := rfl

/-- No two selections are written alike. -/
theorem nameless_ofOccurrences_inj {chosen chosen' : Occurrences} (h : chosen.AreWords)
    (h' : chosen'.AreWords) :
    (ofOccurrences chosen).nameless = (ofOccurrences chosen').nameless ↔ chosen = chosen' := by
  have hform : ∀ o : Occurrences, (ofOccurrences o).nameless = .application
      ((o.indices.map fun i : Nat ↦ Int.bmod i UInt64.size).map fun z : Int ↦ .number z) := by
    intro o
    simp only [ofOccurrences, nameless, namelessIn, namelessAllIn_eq_map, List.map_map,
      Function.comp_def, namelessIn_int]
  have hnumber : Function.Injective fun z : Int ↦ Nameless.number z := fun y z hyz ↦ by
    simpa using hyz
  refine ⟨fun heq ↦ ?_, fun heq ↦ by rw [heq]⟩
  rw [hform, hform, Nameless.application.injEq, hnumber.list_map.eq_iff] at heq
  have hindices := Occurrences.eq_of_map_bmod_eq h h' heq
  cases chosen
  cases chosen'
  simpa using hindices

/-- The keys and values can be read off from how they are written. -/
theorem nameless_pairs_inj {replacements replacements' : List Replacement} :
    (application (replacements.map fun r ↦ application [r.key, r.value])).nameless =
        (application (replacements'.map fun r ↦ application [r.key, r.value])).nameless ↔
      replacements.map Replacement.forms = replacements'.map Replacement.forms := by
  have hform : ∀ rs : List Replacement,
      (application (rs.map fun r ↦ application [r.key, r.value])).nameless =
        .application ((rs.map Replacement.forms).map fun p ↦ .application [p.1, p.2]) := by
    intro rs
    rw [nameless, namelessIn, namelessAllIn_eq_map, List.map_map, List.map_map]
    rfl
  have hpair : Function.Injective fun p : Nameless × Nameless ↦ Nameless.application [p.1, p.2] :=
    fun p q hpq ↦ by simpa [Prod.ext_iff] using hpq
  rw [hform, hform, Nameless.application.injEq, hpair.list_map.eq_iff]

/-- **A record loses nothing.** Two records are equal up to bound names exactly if their targets,
keys and values are, and their selections are the same. -/
theorem recorded_alphaEq_iff {target target' : Expression}
    {replacements replacements' : List Replacement} {chosen chosen' : Occurrences}
    (h : chosen.AreWords) (h' : chosen'.AreWords) :
    (target.recorded replacements chosen).alphaEq (target'.recorded replacements' chosen') = true ↔
      target.alphaEq target' = true ∧
      replacements.map Replacement.forms = replacements'.map Replacement.forms ∧
      chosen = chosen' := by
  have hform : ∀ (target : Expression) (replacements : List Replacement) (chosen : Occurrences),
      (target.recorded replacements chosen).nameless = .application [.symbol "subst",
        target.nameless,
        (application (replacements.map fun r ↦ application [r.key, r.value])).nameless,
        (ofOccurrences chosen).nameless] := fun _ _ _ ↦ rfl
  rw [alphaEq_iff, alphaEq_iff, hform, hform, ← nameless_pairs_inj,
    ← nameless_ofOccurrences_inj h h']
  simp only [Nameless.application.injEq, List.cons.injEq, true_and, and_true]

end Expression

namespace Inference

/-! ### What a record reduces to -/

/-- **What a record reduces to is a function of the record.** Two replacements are carried out, each
from a counter that its target, keys and values are below. Each concludes the equation between its
record and its result; and if the two records are equal up to bound names, then so are the two
results, whatever variables were drawn on the way. -/
theorem replacement_isFunctional {target target' : Expression}
    {replacements replacements' : List Replacement} {chosen chosen' : Occurrences} {n n' : Nat}
    (htarget : target.Below n) (hbelow : ∀ r ∈ replacements, r.Below n) (hwords : chosen.AreWords)
    (htarget' : target'.Below n') (hbelow' : ∀ r ∈ replacements', r.Below n')
    (hwords' : chosen'.AreWords) :
    ∃ result m result' m',
      (replacement target replacements chosen).run n =
        (.equals (target.recorded replacements chosen) result, m) ∧
      (replacement target' replacements' chosen').run n' =
        (.equals (target'.recorded replacements' chosen') result', m') ∧
      ((target.recorded replacements chosen).alphaEq
          (target'.recorded replacements' chosen') = true →
        result.alphaEq result' = true) := by
  obtain ⟨result, m, hrun, -, -, hform⟩ := Expression.substitute_run htarget hbelow chosen
  obtain ⟨result', m', hrun', -, -, hform'⟩ := Expression.substitute_run htarget' hbelow' chosen'
  refine ⟨result, m, result', m', (Fresh.run_bind hrun).trans rfl,
    (Fresh.run_bind hrun').trans rfl, fun hsame ↦ ?_⟩
  obtain ⟨hsameTarget, hsameForms, rfl⟩ := (Expression.recorded_alphaEq_iff hwords hwords').1 hsame
  rw [Expression.alphaEq_iff, hform, hform', Expression.alphaEq_iff.1 hsameTarget, hsameForms]

/-- The target of `(subst (= c (f c)) ((c (forall (x) x))) (0 18446744073709551615))`, with two
names for the variable of the value. The second index is recorded as `-1`. -/
theorem replacement_isFunctional_one_match :
    let target : Expression := .equals (.symbol "c") (.call "f" [.symbol "c"])
    let value (v : Variable) : Replacement := ⟨.symbol "c", .all v (.var v)⟩
    let chosen : Occurrences := ⟨[0, 18446744073709551615], by decide⟩
    ∃ result m result' m',
      (replacement target [value ⟨"x", 0⟩] chosen).run 1 =
        (.equals (target.recorded [value ⟨"x", 0⟩] chosen) result, m) ∧
      (replacement target [value ⟨"y", 1⟩] chosen).run 2 =
        (.equals (target.recorded [value ⟨"y", 1⟩] chosen) result', m') ∧
      result.alphaEq result' = true := by
  intro target value chosen
  have hwords : chosen.AreWords := by decide
  have hbelow : ∀ i n : Nat, i < n → ∀ hint, ∀ r ∈ [value ⟨hint, i⟩], r.Below n := by
    intro i n hin hint r hr
    rw [List.mem_singleton.1 hr]
    exact ⟨trivial, hin, hin⟩
  have htarget : ∀ n, target.Below n := fun n ↦ ⟨trivial, trivial, trivial, trivial⟩
  obtain ⟨result, m, result', m', hrun, hrun', hsame⟩ := replacement_isFunctional
    (htarget 1) (hbelow 0 1 Nat.one_pos "x") hwords (htarget 2)
    (hbelow 1 2 Nat.one_lt_two "y") hwords
  refine ⟨result, m, result', m', hrun, hrun', hsame ?_⟩
  exact (Expression.recorded_alphaEq_iff hwords hwords).2 ⟨by decide, by decide, rfl⟩

end Inference

end NaturalDeduction
