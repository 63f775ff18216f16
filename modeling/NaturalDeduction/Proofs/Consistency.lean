import NaturalDeduction.Proofs.Steps
import NaturalDeduction.Proofs.Validity

/-!
# Consistency of a deduction

What is established holds wherever the open suppositions around it hold, and those of the outermost
deduction need not be asked if they are valid. So a root in which nothing is supposed but what the
prelude grants has valid statements only, and valid statements do not contradict the evaluator or
one another.

Replacements have to be licensed, in the root and in every finished deduction that justifies an
entry of it (`AllLicensed`). The record of a replacement is taken to denote what its target denotes:
that is what the congruence of the prelude says, and rewriting inside a record relies on it. The
equation between the record and the result then says that replacing changes nothing, which is wrong
for a key and a value that differ.

Main statements: `Established.holds` and `Deduction.Grounded.consistent`.

The induction is over `Established`. An entry that comes from a finished deduction needs the stack
of that deduction to entail first, which is why the statement is about a list of entries on top of
others that entail already.
-/

namespace NaturalDeduction

open Expression

/-! ### Licensed entries -/

/-- Whether all replacements are licensed that justify entries of a deduction or of the finished
deductions in it. What is known at an entry is what is older, in its deduction and in the deductions
`outer` around it. -/
inductive AllLicensed : List (List Entry) → List Entry → Prop
  | nil {outer : List (List Entry)} : AllLicensed outer []
  | cons {outer : List (List Entry)} {es : List Entry} {e : Entry} (older : AllLicensed outer es)
      (h : e.justification.Licensed (visible (es :: outer)) e.statement)
      (inner : ∀ d, e.justification = .deduction d → AllLicensed (es :: outer) d.entries) :
      AllLicensed outer (e :: es)

/-- Suppositions are no replacements. -/
theorem AllLicensed.of_suppositions {outer : List (List Entry)} {es : List Entry}
    (h : ∀ e ∈ es, e.isCondition = true) : AllLicensed outer es := by
  induction es with
  | nil => exact .nil
  | cons e rest ih =>
    obtain ⟨he, hrest⟩ := List.forall_mem_cons.1 h
    obtain ⟨name, statement, justification⟩ := e
    cases justification with
    | supposition => exact .cons (ih hrest) trivial fun d hd ↦ nomatch hd
    | _ => cases he

/-! ### What is established holds -/

/-- Whether every statement of a stack holds wherever its open suppositions hold. -/
def Entails (stack : List (List Entry)) : Prop :=
  ∀ ρ, (∀ a ∈ assumed true stack, Holds ρ a) → ∀ a ∈ visible stack, Holds ρ a

/-- One more entry, which holds wherever the suppositions that are open with it do. -/
theorem Entails.cons {e : Entry} {es : List Entry} {outer : List (List Entry)}
    (h : Entails (es :: outer))
    (he : ∀ ρ, (∀ a ∈ assumed true ((e :: es) :: outer), Holds ρ a) → Holds ρ e.statement) :
    Entails ((e :: es) :: outer) := by
  intro ρ hρ a ha
  rcases List.mem_cons.1 (visible_cons_cons e es outer ▸ ha) with rfl | ha
  · exact he ρ hρ
  · exact h ρ (fun b hb ↦ hρ b (assumed_cons_cons_subset e hb)) a ha

/-- The closed theorem of a deduction holds where its surroundings hold: no supposition around it
depends on the parameters. -/
theorem holds_closedTheorem {d : Deduction} {e : Expression} {stack : List (List Entry)}
    {ρ : Nat → Meaning} (h : d.closedTheorem? = some e)
    (hfree : Unmentioned true d.parameters stack) (hentails : Entails (d.entries :: stack))
    (hρ : ∀ a ∈ assumed true stack, Holds ρ a) : Holds ρ e := by
  obtain ⟨last, hlast, rfl⟩ := Option.map_eq_some_iff.1 h
  refine holds_alls_of fun σ hσ ↦ holds_rules.2 fun hconditions ↦ ?_
  have hassumed : ∀ a ∈ assumed true (d.entries :: stack), Holds σ a := by
    intro a ha
    rcases mem_assumed_cons.1 ha with ⟨-, c, hc, hcondition, rfl⟩ | ha
    · refine hconditions _ (List.mem_reverse.2 (List.mem_map_of_mem ?_))
      exact List.mem_filter.2 ⟨hc, hcondition⟩
    · rw [Holds, denote_of_sameBut hσ fun v hv ↦ hfree v hv a ha]
      exact hρ a ha
  refine hentails σ hassumed _ (mem_visible_cons.2 (.inl ⟨last, ?_, rfl⟩))
  exact List.mem_of_find?_eq_some hlast

/-- **What is established holds.** The suppositions of the outermost deduction are valid, and the
replacements are licensed. -/
theorem Established.holds {outer : List (List Entry)} {es : List Entry}
    (h : Established true outer es) (hlicensed : AllLicensed outer es)
    (hvalid : outer = [] → ∀ e ∈ es, e.isCondition = true → e.statement.Valid)
    (houter : Entails outer) : Entails (es :: outer) := by
  induction h with
  | nil =>
    intro ρ hρ a ha
    refine houter ρ (fun b hb ↦ hρ b (mem_assumed_cons.2 (.inr hb))) a ?_
    exact (mem_visible_cons.1 ha).resolve_left (by simp)
  | @supposition outer es _ name e ih =>
    obtain _ | ⟨hlicensed, -, -⟩ := hlicensed
    refine (ih hlicensed (fun hnil a ha ↦ hvalid hnil a (List.mem_cons_of_mem _ ha)) houter).cons
      fun ρ hρ ↦ ?_
    -- at the root the supposition is valid, further in it is among those that hold
    by_cases hnil : outer = []
    · exact hvalid hnil _ List.mem_cons_self rfl ρ
    · exact hρ e (mem_assumed_cons.2 (.inl ⟨fun _ ↦ hnil, _, List.mem_cons_self, rfl, rfl⟩))
  | @inference outer es e j _ h name ih =>
    obtain _ | ⟨hlicensed, hentry, -⟩ := hlicensed
    have hes := ih hlicensed (fun hnil a ha ↦ hvalid hnil a (List.mem_cons_of_mem _ ha)) houter
    refine hes.cons fun ρ hρ ↦ h.holds hentry fun a ha ↦ ?_
    exact hes ρ (fun b hb ↦ hρ b (assumed_cons_cons_subset _ hb)) a ha
  | @deduction outer es d e _ _ hfree h name ih ihinner =>
    obtain _ | ⟨hlicensed, -, hinner⟩ := hlicensed
    have hes := ih hlicensed (fun hnil a ha ↦ hvalid hnil a (List.mem_cons_of_mem _ ha)) houter
    have hd : Entails (d.entries :: es :: outer) :=
      ihinner (hinner d rfl) (fun hnil ↦ nomatch hnil) hes
    refine hes.cons fun ρ hρ ↦ holds_closedTheorem h hfree hd fun a ha ↦ ?_
    exact hρ a (assumed_cons_cons_subset _ ha)

/-! ### The root -/

namespace Prelude

/-- What the prelude grants: its statements, and the definitions of bounded quantifiers whose set
does not mention the variable of the function. The expansion would capture it in the set. -/
def Grants (e : Expression) : Prop :=
  (∃ n, ∃ p ∈ (statements.run n).1, e.alphaEq p.2 = true) ∨
    ∃ set x body, set.occursFree x = false ∧ e = boundedDefinition set x body

/-- What the prelude grants holds under every assignment. -/
theorem Grants.valid {e : Expression} (h : Grants e) : e.Valid := by
  rcases h with ⟨n, p, hp, h⟩ | ⟨set, x, body, hset, rfl⟩
  · exact fun ρ ↦ (holds_congr (alphaEq_iff.1 h)).2 (valid_statements n p hp ρ)
  · exact valid_boundedDefinition hset

end Prelude

/-- Whether nothing is supposed but what the prelude grants, and all replacements are licensed. -/
structure Deduction.Grounded (d : Deduction) : Prop where
  suppositions : ∀ e ∈ d.entries, e.isCondition = true → Prelude.Grants e.statement
  replacements : AllLicensed [] d.entries

/-- Whether every statement that can be decided is true, and none is the negation of another. -/
structure Deduction.Consistent (d : Deduction) : Prop where
  decided : ∀ e ∈ d.entries, ∀ holds, e.statement.evaluate = .ok holds → holds = true
  negations : ∀ e ∈ d.entries, ∀ f ∈ d.entries, f.statement.alphaEq e.statement.negation = false

/-- A root that supposes only what is granted has no open suppositions to ask for. -/
theorem Deduction.Grounded.valid {d : Deduction} (h : d.Grounded)
    (hestablished : Established true [] d.entries) {e : Entry} (he : e ∈ d.entries) :
    e.statement.Valid := by
  have hentails : Entails [d.entries] := by
    refine hestablished.holds h.replacements (fun _ f hf hcondition ↦ ?_) fun ρ _ a ha ↦ ?_
    · exact (h.suppositions f hf hcondition).valid
    · exact absurd ha List.not_mem_nil
  refine fun ρ ↦ hentails ρ (fun a ha ↦ ?_) _ (mem_visible_cons.2 (.inl ⟨e, he, rfl⟩))
  exact absurd ha List.not_mem_nil

/-- **A grounded root is consistent.** -/
theorem Deduction.Grounded.consistent {d : Deduction} (h : d.Grounded)
    (hestablished : Established true [] d.entries) : d.Consistent where
  decided e he holds heval := (h.valid hestablished he fun _ ↦ .other).evaluate heval
  negations e he f hf := by
    by_contra hsame
    have hnot : Holds (fun _ ↦ .other) e.statement.negation :=
      (holds_congr (alphaEq_iff.1 (by simpa using hsame))).1 (h.valid hestablished hf _)
    exact (h.valid hestablished he _).not_negation hnot

end NaturalDeduction
