import NaturalDeduction.Proofs.Balance
import NaturalDeduction.Proofs.Refused

/-!
# Failed searches leave no trace

A search undoes what did not prove its goal. Whatever ended a rule, the search goes back to where
the rule began, before it tries the next one or gives up: so a search that ends without a proof
leaves the current deduction exactly as it was (`Attempt.Undoes`). That this holds of one rule needs
that the rule is balanced; the induction over the rules then puts the single returns together.

Deductions around the current one may keep the definitions that were supposed in them to write an
abbreviation out. At the root there are none around, and nothing is left at all
(`frames_eq_of_prove_error`).

That a rule is balanced is needed since a checkpoint holds lengths: to cut a deduction back to a
length brings back what it was only if it is the same deduction and was added to in front.

Main definitions and statements:

* `Attempt.Undoes`: what ends without a result leaves the current deduction as it was.
* `Search.tryRules_undoes`, `Search.proveAt_undoes`: the rules of one goal, and the whole search.
* `frames_eq_of_prove_error`: all frames at the root, the current one elsewhere, and the same
  depth and the same number of searches under way.
-/

namespace NaturalDeduction

/-! ### Going back more than once -/

namespace ProofState

variable {s t u : ProofState}

/-- What keeps all frames restores them. -/
theorem Restores.of_frames (h : t.frames = s.frames) : s.Restores t := by
  obtain ⟨hcurrent, henclosing⟩ := List.cons.inj h
  refine ⟨hcurrent, ?_⟩
  rw [henclosing]
  exact List.forall₂_same.2 fun f _ ↦ .refl f

/-- Going back from where one went back to. -/
theorem Restores.trans (h : s.Restores t) (h' : t.Restores u) : s.Restores u :=
  ⟨h'.current.trans h.current, @forall₂_trans true _ _ _ h.enclosing h'.enclosing⟩

/-- At the root nothing is left. -/
theorem Restores.frames_eq_of_root (h : s.Restores t) (hroot : s.enclosing = []) :
    t.frames = s.frames := by
  have henclosing := h.enclosing
  rw [hroot] at henclosing
  rw [frames, frames, h.current, hroot, List.forall₂_nil_left_iff.1 henclosing]

end ProofState

/-! ### Computations that undo what they did -/

variable {μ α : Type} {x : Session μ}

/-- Whether a computation leaves the current deduction as it was if it does not succeed. -/
def Attempt.Undoes (act : Attempt μ α) (x : Session μ) : Prop :=
  ∀ setback y, act.run.run x = (.error setback, y) → x.state.Restores y.state

namespace Attempt

theorem ofOutcome_run (result : Except Setback α) :
    (ofOutcome result : Attempt μ α).run.run x = (result, x) := by
  cases result <;> rfl

theorem outcome_bind_run {β : Type} {y : Session μ} {act : Attempt μ α} {result : Except Setback α}
    (h : act.run.run x = (result, y)) (next : Except Setback α → Attempt μ β) :
    (outcome act >>= next).run.run x = (next result).run.run y := by
  have houtcome : (outcome act).run.run x = (.ok (act.run.run x).1, (act.run.run x).2) := rfl
  rw [run_bind_eq, houtcome, h]

/-- A failure by itself has nothing to undo. -/
theorem throw_undoes (setback : Setback) : Undoes (throw setback : Attempt μ α) x := by
  rintro _ y hrun
  obtain ⟨-, rfl⟩ := Prod.mk.inj hrun
  exact .of_frames rfl

/-- A step that is harmless if refused undoes what it did. -/
theorem step_undoes {act : Building α} (h : Building.Harmless act x.state) :
    Undoes (step act : Attempt μ α) x := by
  rintro setback y hrun
  obtain ⟨hresult, rfl⟩ := Prod.mk.inj hrun
  change (act.run.run x.state).1.mapError Setback.refused = _ at hresult
  cases hact : (act.run.run x.state).1 with
  | error refusal => exact .of_frames (h refusal hact)
  | ok a => rw [hact] at hresult; cases hresult

end Attempt

/-! ### Searches -/

namespace Search

open Attempt ProofState

variable {external : External μ} {levels : Nat} {goal : Expression}

/-- What becomes of a rule that matches: it proves the goal, or it is undone. -/
theorem tryRules_cons_run {run : Rule → Bindings → Attempt μ String} {rule : Rule}
    {rest : List Rule} {bindings : Bindings} (hmatch : rule.pattern.match? goal = some bindings) :
    (tryRules run goal (rule :: rest)).run.run x =
      let undone (y : Session μ) := { y with state := y.state.rollback x.state.checkpoint }
      match (run rule bindings).run.run x with
      | (.ok name, y) =>
        if (y.state.get? name).any (·.alphaEq goal) then (.ok name, y)
        else (tryRules run goal rest).run.run (undone y)
      | (.error (.failed _ _), y) => (tryRules run goal rest).run.run (undone y)
      | (.error setback, y) => (.error setback, undone y) := by
  rw [tryRules, hmatch]
  dsimp only
  rcases hrun : (run rule bindings).run.run x with ⟨result, y⟩
  rw [proofState_bind_run, outcome_bind_run hrun]
  rcases result with ⟨_ | _ | _⟩ | name
  · rfl
  · rfl
  · rfl
  · dsimp only
    rw [proofState_bind_run]
    split <;> rfl

/-- By induction on the rules: each that fails is gone back on before the next. -/
theorem tryRules_undoes {run : Rule → Bindings → Attempt μ String} {rules : List Rule}
    (hrun : ∀ rule bindings y, Keeps Balances (run rule bindings) y) :
    Undoes (tryRules run goal rules) x := by
  induction rules generalizing x with
  | nil => exact throw_undoes _
  | cons rule rest ih =>
    cases hmatch : rule.pattern.match? goal with
    | none =>
      rw [tryRules, hmatch]
      exact ih
    | some bindings =>
      intro setback z hz
      rw [tryRules_cons_run hmatch] at hz
      have hbalances : Balances x.state ((run rule bindings).run.run x).2.state :=
        hrun rule bindings x
      revert hz hbalances
      rcases (run rule bindings).run.run x with ⟨result, y⟩
      intro hz hbalances
      have hrestores : x.state.Restores (y.state.rollback x.state.checkpoint) :=
        hbalances.grows.restores
      rcases result with ⟨_ | _ | _⟩ | name
      · exact hrestores.trans (ih _ _ hz)
      · obtain ⟨-, rfl⟩ := Prod.mk.inj hz
        exact hrestores
      · obtain ⟨-, rfl⟩ := Prod.mk.inj hz
        exact hrestores
      · dsimp only at hz
        split at hz
        · cases hz
        · exact hrestores.trans (ih _ _ hz)

/-- The search is counted in front and counted out behind, however it ends. -/
theorem counted_run (act : Attempt μ String) : (counted act).run.run x =
    let ran := act.run.run
      { x with state := { x.state with searching := x.state.searching + 1 } }
    (ran.1,
      { ran.2 with state := { ran.2.state with searching := ran.2.state.searching - 1 } }) := by
  show (ofOutcome (act.run.run _).1).run.run _ = _
  rw [ofOutcome_run]
  rfl

/-- Counting is no trace. -/
theorem counted_undoes {act : Attempt μ String} (h : ∀ y, Undoes act y) :
    Undoes (counted act) x := by
  intro setback z hz
  rw [counted_run] at hz
  obtain ⟨hresult, rfl⟩ := Prod.mk.inj hz
  obtain ⟨hcurrent, henclosing⟩ := h _ setback _ (Prod.ext hresult rfl)
  exact ⟨hcurrent, henclosing⟩

/-- A search that does not prove its goal has undone what it tried. -/
theorem proveAt_undoes (hexternal : external.Respects Balances) :
    Undoes (proveAt external levels goal) x := by
  unfold proveAt
  intro setback y hrun
  rw [proofState_bind_run] at hrun
  revert setback y
  show Undoes _ x
  split
  · exact fun _ _ hrun ↦ nomatch hrun
  · split
    · rw [if_pos rfl]
      exact step_undoes (Building.verify_harmless goal)
    · rw [if_neg Bool.false_ne_true]
      split
      · exact throw_undoes _
      · cases levels with
        | zero => exact throw_undoes _
        | succ levels =>
          have hinner : Prover.Respects Balances ⟨proveAt external levels, external.slack⟩ :=
            fun goal _ ↦ proveAt_keeps hexternal levels goal
          refine counted_undoes fun y ↦ tryRules_undoes fun rule bindings z ↦ ?_
          exact Prover.runTactic_keeps hinner hexternal rule.tactic bindings goal

/-- The search with the levels that are left. -/
theorem prove_undoes (hexternal : external.Respects Balances) : Undoes (prove external goal) x :=
  fun _ _ hrun ↦ proveAt_undoes hexternal _ _ hrun

end Search

/-! ### The theorem -/

/-- **Failed searches leave no trace.** However a search ends that does not prove its goal, the
current deduction is exactly as it was, at the depth at which it was, and as many searches are under
way. If it is the root, then all there is to see is as it was: names, statements and what they rest
on, parameters, rules and abbreviations. A user's tactics have to be balanced. -/
theorem frames_eq_of_prove_error {external : External μ}
    (hexternal : external.Respects ProofState.Balances) (goal : Expression) {x y : Session μ}
    {setback : Setback} (hrun : (Search.prove external goal).run.run x = (.error setback, y)) :
    y.state.current = x.state.current ∧ y.state.depth = x.state.depth ∧
      y.state.searching = x.state.searching ∧
      (x.state.enclosing = [] → y.state.frames = x.state.frames) := by
  have hbalances : x.state.Balances ((Search.prove external goal).run.run x).2.state :=
    Search.prove_keeps hexternal goal
  rw [hrun] at hbalances
  have hrestores := Search.prove_undoes hexternal _ _ hrun
  exact ⟨hrestores.current, hbalances.depth, hbalances.searching, hrestores.frames_eq_of_root⟩

/-- A rule has two conditions, of which the second one cannot be discharged. -/
theorem frames_eq_of_prove_error_second_condition :
    let text := "(suppose H (-> A (-> B C))) (suppose a A) (hint H)"
    let x := (Script.run (Search.prover .none) text ⟨(Host.start 0 16 ()).bench.state, ()⟩).2
    let goal := Expression.symbol "C"
    ∃ setback y, (Search.prove .none goal).run.run x = (.error setback, y) ∧
      x.state.nextName < y.state.nextName ∧ x.state.enclosing = [] ∧
      y.state.frames = x.state.frames := by
  intro text x goal
  have hresult : ((Search.prove .none goal).run.run x).1.isOk = false := by decide +kernel
  have hname : x.state.nextName < ((Search.prove .none goal).run.run x).2.state.nextName := by
    decide +kernel
  have hroot : x.state.enclosing = [] := by decide +kernel
  cases hrun : (Search.prove .none goal).run.run x with
  | mk result y =>
    rw [hrun] at hresult hname
    cases result with
    | ok name => cases hresult
    | error setback =>
      obtain ⟨-, -, -, hframes⟩ := frames_eq_of_prove_error External.none_respects goal hrun
      exact ⟨setback, y, rfl, hname, hroot, hframes hroot⟩

end NaturalDeduction
