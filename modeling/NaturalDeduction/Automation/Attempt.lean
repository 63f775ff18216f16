import NaturalDeduction.ProofState.Goal

/-!
# Attempts

A computation that tries to prove something can end without a proof in three ways. It may fail,
which leaves others to be tried; it may be aborted, which stops everything up to whoever catches the
abort; or a step may have been refused, which is final.

A library user's tactics can keep a memory of their own (`μ`). It lies beside the proof state and is
never rolled back.
-/

namespace NaturalDeduction

/-- A deliberate stop. -/
structure Abort where
  reason : String
  /-- Who is to catch it; the nearest catcher if there is no name. -/
  target : Option String
  deriving DecidableEq, Inhabited

/-- The abort in words. -/
def Abort.message (a : Abort) : String :=
  match a.target with
  | some target => s!"aborted to '{target}': " ++ a.reason
  | none => "aborted: " ++ a.reason

/-- Why an attempt failed. -/
inductive FailureReason where
  | searchLimit
  | noRule
  | tooManyExpansions
  | otherConclusion (source : String)
  | undetermined (source : String)
  | otherResult (source : String)
  | reverseUnknown
  /-- The reason that a user's tactic gives. -/
  | stated (reason : String)
  deriving DecidableEq, Inhabited

/-- The reason in words. -/
def FailureReason.message : FailureReason → String
  | searchLimit => "automation depth limit reached"
  | noRule => "no rule applies"
  | tooManyExpansions => "too many notation expansions"
  | otherConclusion source => s!"'{source}' does not conclude it"
  | undetermined source => s!"the goal does not determine every variable of '{source}'"
  | otherResult source => s!"'{source}' proved something else"
  | reverseUnknown => "the flipped equality is not known"
  | stated reason => reason

/-- How an attempt ended without a proof. -/
inductive Setback where
  | failed (goal : Expression) (reason : FailureReason)
  | aborted (abort : Abort)
  | refused (refusal : Refusal)
  deriving Inhabited

/-- The setback in words. -/
def Setback.message : Setback → String
  | failed goal reason => "could not prove " ++ goal.print ++ ": " ++ reason.message
  | aborted abort => abort.message
  | refused refusal => refusal.message

/-- A proof state and what a user's tactics remember. -/
structure Session (μ : Type) where
  state : ProofState
  memory : μ

/-- Computations that try to prove something. The session reached is kept however they end. -/
abbrev Attempt (μ : Type) := ExceptT Setback (StateM (Session μ))

namespace Attempt

variable {μ α : Type}

/-- A step of construction. -/
def step (act : Building α) : Attempt μ α :=
  fun session ↦
    let (result, state) := act.run.run session.state
    (result.mapError .refused, { session with state := state })

/-- The proof state. -/
def proofState : Attempt μ ProofState := do return (← get).state

/-- Changes the proof state. -/
def modifyState (f : ProofState → ProofState) : Attempt μ Unit :=
  modify fun session ↦ { session with state := f session.state }

/-- Fails to prove `goal`. -/
def fail (goal : Expression) (reason : FailureReason) : Attempt μ α := throw (.failed goal reason)

/-- Makes an attempt and reports how it ended. -/
def outcome (act : Attempt μ α) : Attempt μ (Except Setback α) :=
  fun session ↦ let (result, session') := act.run.run session; (.ok result, session')

/-- Ends like a reported attempt. -/
def ofOutcome : Except Setback α → Attempt μ α
  | .ok a => return a
  | .error e => throw e

/-- Whether an abort is for a catcher with the given name. -/
def catches (name : Option String) (abort : Abort) : Bool :=
  abort.target.isNone || abort.target == name

/-- Makes an attempt and catches the aborts that are for `name` or for nobody in particular. What
was done before a caught abort is undone. -/
def catchAbort (name : Option String) (act : Attempt μ α) : Attempt μ (Except Abort α) := do
  let checkpoint := (← proofState).checkpoint
  match ← outcome act with
  | .ok a => return .ok a
  | .error (.aborted abort) =>
    if catches name abort then
      modifyState (·.rollback checkpoint)
      return .error abort
    else throw (.aborted abort)
  | .error e => throw e

end Attempt

end NaturalDeduction
