import NaturalDeduction.Proofs.Achieving
import NaturalDeduction.Proofs.Enriching
import NaturalDeduction.Proofs.Untraced

/-!
# The search ends

Searching, writing out, discharging and proving backwards call each other, through a table of rules
that hints can make feed itself. The functions that do this are total because they are given bounds:
a number of levels, and a number of conditions. Here the same functions are written down without
these bounds (`Unbounded`). They are told how deep calls may nest, and have no result if calls nest
deeper, so that nothing is said about whether they end. It is shown that from some depth on they do
have one, and that it is the same (`tactics_terminate`).

Three things decrease. A search counts itself while it is under way and opens no other one beyond
the limit. Discharging goes on with the conclusion of the rule, which is a part of it: the rule
still stands for what it stood for, since whatever the search for the condition adds has a name of
its own (`ProofState.Enriches`). And abbreviations are written out a fixed number of times.

The computations are watched as well: beside the session runs the largest number of searches that
were under way at the same time. It does not pass the limit, unless it was above the limit already.

Drawing a name is the only other loop. It ends because there are finitely many names
(`freeNumber_isFirst`).

Main definitions and statements:

* `Unbounded.prove` and the functions around it: the search as it is written, with mutual
  recursion.
* `Unbounded.Ends`: from some depth of calls on, a function has the result of the bounded one, and
  the searches under way stay below the ceiling.
* `tactics_terminate`: for the search and each tactic, from any state whose rules are the
  library's.
-/

namespace NaturalDeduction

variable {μ α β : Type}

/-- Whether a tactic is none of a user's. -/
def Tactic.BuiltIn : Tactic → Prop
  | .external _ => False
  | _ => True

instance : DecidablePred Tactic.BuiltIn
  | .external _ => isFalse id
  | .specialize .. | .turnAround .. | .backwards _ => isTrue trivial

/-- Whether no rule has a tactic of a user's. -/
def ProofState.BuiltIn (s : ProofState) : Prop := ∀ f ∈ s.frames, ∀ r ∈ f.rules, r.tactic.BuiltIn

instance (s : ProofState) : Decidable s.BuiltIn :=
  inferInstanceAs (Decidable (∀ f ∈ s.frames, ∀ r ∈ f.rules, r.tactic.BuiltIn))

/-- Searches register no rules. -/
theorem ProofState.Enriches.builtIn {s t : ProofState} (h : s.Enriches t) (hs : s.BuiltIn) :
    t.BuiltIn := h.forall_frames (fun _ _ hf ↦ hf) hs

/-! ### Computations without a bound -/

/-- Computations on a session that may have no result, with the largest number of searches that were
under way at the same time. -/
abbrev Watched (μ : Type) := ExceptT Setback (StateT (Session μ × Nat) Option)

namespace Unbounded

open Attempt

/-- Makes an attempt, and takes note of the searches that are under way. -/
def watch (act : Attempt μ α) : Watched μ α := fun (x, peak) ↦
  let (result, y) := act.run.run x
  some (result, (y, max peak y.state.searching))

/-- Reports how a computation ended, if it ended. -/
@[reducible] def reported (act : Watched μ α) : Watched μ (Except Setback α) :=
  (Except.ok <$> act.run : StateT (Session μ × Nat) Option (Except Setback (Except Setback α)))

/-- A computation whose calls nest too deep has no result. -/
def givenUp : Watched μ α := fun _ ↦ none

/-! ### The search without bounds

Every call is passed how deep calls may still nest.
-/

mutual

/-- Turns a named statement into a universal quantification by writing abbreviations out, at most
`budget` times. -/
def exposeWithin : (calls budget : Nat) → (name : String) → Watched μ String
  | 0, _, _ => givenUp
  | _ + 1, 0, name => do watch (fail (← watch (step (Building.lookup name))) .tooManyExpansions)
  | calls + 1, budget + 1, name => do
    let statement ← watch (step (Building.lookup name))
    match statement with
    | .binder .universal _ _ => return name
    | _ => do
      match ← watch (step (Building.expand? statement)) with
      | none => throw (.refused (.notAQuantification name statement))
      | some (index, expansion) => do
        let definition := Expression.equals statement expansion
        let equation ←
          match ← reported (prove calls definition) with
          | .ok equation => pure equation
          | .error (.failed _ _) => watch (step (Building.supposeAt index definition))
          | .error e => throw e
        exposeWithin calls budget (← watch (step (Building.eliminate equation name)))

/-- Specializes leading quantifiers, writing abbreviations out where necessary. -/
def bindEach : (calls : Nat) → (current : String) → (values : List Expression) → Watched μ String
  | 0, _, _ => givenUp
  | _ + 1, current, [] => return current
  | calls + 1, current, value :: rest => do
    let exposed ← exposeWithin calls maxExpansions current
    let bound ← watch (step (Building.bind (.name exposed) value))
    bindEach calls bound rest

/-- Specializes the statement that is meant to values. -/
def autobind : (calls : Nat) → (target : Reference) → (values : List Expression) → Watched μ String
  | 0, _, _ => givenUp
  | calls + 1, target, values => do
    bindEach calls (← watch (step (Building.resolve target))) values

/-- Discharges conditions as long as there are any. -/
def discharge : (calls : Nat) → (current : String) → Watched μ String
  | 0, _ => givenUp
  | calls + 1, current => do
    match ← watch (step (Building.lookup current)) with
    | .implies condition _ => do
      let evidence ← prove calls condition
      discharge calls (← watch (step (Building.apply (.name current) (.name evidence))))
    | _ => return current

/-- Discharges the conditions of the rule that is meant until its conclusion is no rule. -/
def autoapply : (calls : Nat) → (target : Reference) → Watched μ String
  | 0, _ => givenUp
  | calls + 1, target => do discharge calls (← watch (step (Building.resolve target)))

/-- Proves a goal from a statement whose conclusion it is an instance of. -/
def backwards : (calls : Nat) → (source : Reference) → (goal : Expression) → Watched μ String
  | 0, _, _ => givenUp
  | calls + 1, source, goal => do
    let source ← watch (step (Building.resolve source))
    let statement ← watch (step (Building.lookup source))
    let (slots, body) ← watch (step (Building.draw statement.openAlls))
    match body.splitRules.2.match? goal with
    | none => watch (fail goal (.otherConclusion source))
    | some bindings =>
      match slots.mapM bindings.get? with
      | none => watch (fail goal (.undetermined source))
      | some values => do
        let bound ← autobind calls (.name source) values
        let applied ← autoapply calls (.name bound)
        if (← watch (step (Building.lookup applied))).alphaEq goal then return applied
        else watch (fail goal (.otherResult source))

/-- Specializes a named statement to values in which holes are filled, and discharges its
conditions. -/
def specialize : (calls : Nat) → (source : String) → (values : List Expression) →
    (bindings : Bindings) → Watched μ String
  | 0, _, _, _ => givenUp
  | calls + 1, source, values, bindings => do
    let values ← watch (step (Building.draw (values.mapM (·.fill bindings))))
    let bound ← autobind calls (.name source) values
    autoapply calls (.name bound)

/-- Turns a known equation around. -/
def turnAround : (calls : Nat) → (goal left right : Expression) → Watched μ String
  | 0, _, _, _ => givenUp
  | calls + 1, goal, left, right => do
    match (← watch proofState).«recall?» (.equals right left) with
    | none => watch (fail goal .reverseUnknown)
    | some known => do
      let rule ← autobind calls (.name "eq_sym") [right, left]
      watch (step (Building.apply (.name rule) (.name known)))

/-- Runs the tactic of a rule that matched. A user's tactic is not run. -/
def runTactic : (calls : Nat) → (tactic : Tactic) → (bindings : Bindings) → (goal : Expression) →
    Watched μ String
  | 0, _, _, _ => givenUp
  | calls + 1, .specialize source values, bindings, _ => specialize calls source values bindings
  | calls + 1, .turnAround left right, bindings, goal =>
    match bindings.get? left, bindings.get? right with
    | some l, some r => turnAround calls goal l r
    | _, _ => watch (fail goal (.stated "unbound pattern"))
  | calls + 1, .backwards source, _, goal => backwards calls (.name source) goal
  | _ + 1, .external _, _, goal => watch (fail goal .noRule)

/-- Tries rules in turn, and undoes those that do not prove the goal. -/
def tryRules : (calls : Nat) → (goal : Expression) → (rules : List Rule) → Watched μ String
  | 0, _, _ => givenUp
  | _ + 1, goal, [] => watch (fail goal .noRule)
  | calls + 1, goal, rule :: rest =>
    match rule.pattern.match? goal with
    | none => tryRules calls goal rest
    | some bindings => do
      let checkpoint := (← watch proofState).checkpoint
      match ← reported (runTactic calls rule.tactic bindings goal) with
      | .ok name =>
        if ((← watch proofState).get? name).any (·.alphaEq goal) then return name
        else
          watch (modifyState (·.rollback checkpoint))
          tryRules calls goal rest
      | .error (.failed _ _) =>
        watch (modifyState (·.rollback checkpoint))
        tryRules calls goal rest
      | .error e =>
        watch (modifyState (·.rollback checkpoint))
        throw e

/-- Searches for a proof; how deep searches nest is limited by the state. -/
def prove : (calls : Nat) → (goal : Expression) → Watched μ String
  | 0, _ => givenUp
  | calls + 1, goal => do
    let s ← watch proofState
    match s.«recall?» goal with
    | some name => return name
    | none =>
      if goal.evaluate matches .ok true then watch (step (Building.verify goal))
      else if s.searchLimit ≤ s.searching then watch (fail goal .searchLimit)
      else do
        watch (modifyState fun s ↦ { s with searching := s.searching + 1 })
        let result ← reported (tryRules calls goal (s.frames.flatMap (·.rules)))
        watch (modifyState fun s ↦ { s with searching := s.searching - 1 })
        watch (ofOutcome result)

end

/-! ### Ending alike

`Ends` says of a computation and its unbounded counterpart that they end alike from some depth of
calls on. Depths for the parts of a sequence are put together by their maximum, which is why larger
depths have to do as well.
-/

/-- A sequence has a result if its first part has one, and the rest has one from there. -/
theorem bind_run (act : Watched μ α) (next : α → Watched μ β) (z : Session μ × Nat) :
    (act >>= next).run.run z = match act.run.run z with
      | some (.ok a, z') => (next a).run.run z'
      | some (.error e, z') => some (.error e, z')
      | none => none := by
  have hbind : (act >>= next).run.run z =
      (act.run.run z).bind fun ended ↦ (ExceptT.bindCont next ended.1).run ended.2 := rfl
  rw [hbind]
  rcases act.run.run z with _ | ⟨_ | _, _⟩ <;> rfl

/-- To report how a computation ended does not change whether it has a result. -/
theorem reported_run (act : Watched μ α) (z : Session μ × Nat) :
    (reported act).run.run z = (act.run.run z).map fun ended ↦ (.ok ended.1, ended.2) := by
  have hmap : (reported act).run.run z =
      (act.run.run z).bind fun ended ↦ some (.ok ended.1, ended.2) := rfl
  rw [hmap]
  rcases act.run.run z with _ | ⟨_, _⟩ <;> rfl

/-- How many searches may be under way at the same time. -/
def ceiling (s : ProofState) : Nat := max s.searchLimit s.searching

/-- The limit and the searches under way are the same behind a search. -/
theorem ceiling_eq {s t : ProofState} (h : s.Enriches t) : ceiling t = ceiling s := by
  rw [ceiling, ceiling, h.searchLimit, h.searching]

/-- Whether a computation without bounds ends as an attempt does, however deep its calls may nest
from some depth on. What is visible in a state stays so, and no more searches than that state allows
were under way. -/
structure Ends (s : ProofState) (act : Attempt μ α) (act' : Nat → Watched μ α) (x : Session μ) :
    Prop where
  enriches : s.Enriches (act.run.run x).2.state
  run : ∃ n ≤ ceiling s, ∃ enough, ∀ calls ≥ enough, ∀ peak,
    (act' calls).run.run (x, peak) = some ((act.run.run x).1, ((act.run.run x).2, max peak n))

namespace Ends

variable {s : ProofState} {x : Session μ} {act : Attempt μ α} {act' : Nat → Watched μ α}

/-- What ends after a state also ends after an earlier one. -/
theorem after (h : Ends x.state act act' x) (hx : s.Enriches x.state) : Ends s act act' x := by
  obtain ⟨henriches, n, hn, hrun⟩ := h
  exact ⟨hx.trans henriches, n, ceiling_eq hx ▸ hn, hrun⟩

/-- What ends within some depth also ends when it is called. -/
theorem call (h : Ends s act (fun calls ↦ act' (calls + 1)) x) : Ends s act act' x := by
  obtain ⟨henriches, n, hn, enough, hrun⟩ := h
  refine ⟨henriches, n, hn, enough + 1, fun calls hcalls ↦ ?_⟩
  obtain ⟨calls, rfl⟩ := Nat.exists_eq_add_of_le' (Nat.one_le_of_lt hcalls)
  exact hrun calls (Nat.le_of_succ_le_succ hcalls)

/-- A computation that opens no search is watched in one look. -/
theorem watch (h : s.Enriches (act.run.run x).2.state) : Ends s act (fun _ ↦ watch act) x := by
  refine ⟨h, (act.run.run x).2.state.searching, ?_, 0, fun _ _ peak ↦ rfl⟩
  rw [h.searching]
  exact Nat.le_max_right _ _

theorem pure (hx : s.Enriches x.state) (a : α) :
    Ends s (Pure.pure a : Attempt μ α) (fun _ ↦ Pure.pure a) x :=
  ⟨hx, 0, Nat.zero_le _, 0, fun _ _ peak ↦ by rw [Nat.max_zero]; rfl⟩

theorem throw (hx : s.Enriches x.state) (e : Setback) :
    Ends s (throw e : Attempt μ α) (fun _ ↦ throw e) x :=
  ⟨hx, 0, Nat.zero_le _, 0, fun _ _ peak ↦ by rw [Nat.max_zero]; rfl⟩

/-- What follows a first part may go back behind its end, but not behind the state. -/
theorem seq {next : α → Attempt μ β} {next' : Nat → α → Watched μ β} (h : Ends s act act' x)
    (hnext : ∀ a y, s.Enriches y.state → act.run.run x = (.ok a, y) →
      Ends s (next a) (fun calls ↦ next' calls a) y) :
    Ends s (act >>= next) (fun calls ↦ act' calls >>= next' calls) x := by
  obtain ⟨henriches, n, hn, enough, hrun'⟩ := h
  rcases hrun : act.run.run x with ⟨e | a, y⟩
  · rw [hrun] at henriches hrun'
    have hbind : (act >>= next).run.run x = (.error e, y) := run_bind_error hrun
    refine ⟨hbind ▸ henriches, n, hn, enough, fun calls hcalls peak ↦ ?_⟩
    rw [bind_run, hrun' calls hcalls, hbind]
  · rw [hrun] at henriches hrun'
    obtain ⟨henriches', m, hm, enough', hrun''⟩ := hnext a y henriches hrun
    have hbind : (act >>= next).run.run x = (next a).run.run y := run_bind_ok hrun
    refine ⟨hbind ▸ henriches', max n m, Nat.max_le.2 ⟨hn, hm⟩, max enough enough',
      fun calls hcalls peak ↦ ?_⟩
    obtain ⟨hcalls, hcalls'⟩ := Nat.max_le.1 hcalls
    rw [bind_run, hrun' calls hcalls, hbind]
    dsimp only
    rw [hrun'' calls hcalls', Nat.max_assoc]

/-- Sequences end alike if their parts do. -/
theorem bind {next : α → Attempt μ β} {next' : Nat → α → Watched μ β} (h : Ends s act act' x)
    (hnext : ∀ a y, s.Enriches y.state → Ends y.state (next a) (fun calls ↦ next' calls a) y) :
    Ends s (act >>= next) (fun calls ↦ act' calls >>= next' calls) x :=
  h.seq fun a y hy _ ↦ (hnext a y hy).after hy

/-- So does the report of an end. -/
theorem reported (h : Ends s act act' x) :
    Ends s (outcome act) (fun calls ↦ reported (act' calls)) x := by
  obtain ⟨henriches, n, hn, enough, hrun'⟩ := h
  refine ⟨henriches, n, hn, enough, fun calls hcalls peak ↦ ?_⟩
  rw [reported_run, hrun' calls hcalls]
  rfl

/-- What reads the state is followed by the rest in the same state. -/
theorem proofState {next : ProofState → Attempt μ α} {next' : Nat → ProofState → Watched μ α}
    (hx : s.Enriches x.state) (h : Ends s (next x.state) (fun calls ↦ next' calls x.state) x) :
    Ends s (Attempt.proofState >>= next)
      (fun calls ↦ Unbounded.watch Attempt.proofState >>= next' calls) x :=
  (watch hx : Ends s Attempt.proofState _ x).seq fun t y _ hrun ↦ by cases hrun; exact h

/-! #### Steps of construction -/

/-- Steps of construction open no search. -/
theorem of_step {build : Building α} (h : Keeps ProofState.Enriches build x.state) :
    Ends x.state (Attempt.step build) (fun _ ↦ Unbounded.watch (Attempt.step build)) x := watch h

/-- The same for a step with something behind it, which may use what the step did. -/
theorem step {build : Building β} {next : β → Attempt μ α} {next' : Nat → β → Watched μ α}
    (h : Keeps ProofState.Enriches build x.state)
    (hnext : ∀ b y, x.state.Enriches y.state → build.run.run x.state = (.ok b, y.state) →
      Ends y.state (next b) (fun calls ↦ next' calls b) y) :
    Ends x.state (Attempt.step build >>= next)
      (fun calls ↦ Unbounded.watch (Attempt.step build) >>= next' calls) x :=
  (of_step h).seq fun b y hy hrun ↦ (hnext b y hy (run_of_step_run hrun)).after hy

/-- What only reads is followed by the rest in the same state. -/
theorem read {build : Building β} {next' : Nat → β → Watched μ α} {b : β}
    (hrun : build.run.run x.state = (.ok b, x.state))
    (h : Ends x.state act (fun calls ↦ next' calls b) x) :
    Ends x.state act (fun calls ↦ Unbounded.watch (Attempt.step build) >>= next' calls) x := by
  obtain ⟨henriches, n, hn, enough, hrun'⟩ := h
  refine ⟨henriches, max x.state.searching n, Nat.max_le.2 ⟨Nat.le_max_right _ _, hn⟩, enough,
    fun calls hcalls peak ↦ ?_⟩
  have hwatch : (Unbounded.watch (Attempt.step build)).run.run (x, peak) =
      some (((Attempt.step build).run.run x).1, (((Attempt.step build).run.run x).2,
        max peak ((Attempt.step build).run.run x).2.state.searching)) := rfl
  rw [bind_run, hwatch, step_run hrun]
  dsimp only
  rw [hrun' calls hcalls, Nat.max_assoc]

/-- The bounded computation may read more. -/
theorem skip {build : Building β} {next : β → Attempt μ α} {b : β}
    (hrun : build.run.run x.state = (.ok b, x.state)) (h : Ends s (next b) act' x) :
    Ends s (Attempt.step build >>= next) act' x := by
  have hbind : (Attempt.step build >>= next).run.run x = (next b).run.run x :=
    run_bind_ok (step_run hrun)
  obtain ⟨henriches, n, hn, hrun'⟩ := h
  exact ⟨hbind ▸ henriches, n, hn, hbind ▸ hrun'⟩

end Ends

/-! ### Tactics -/

/-- Whether a search ends as the one without bounds does, wherever it is called after a state. -/
def EndsFrom (p : Prover μ) (s : ProofState) : Prop :=
  ∀ (goal : Expression) (x : Session μ), s.Enriches x.state →
    Ends x.state (p.prove goal) (fun calls ↦ prove calls goal) x

/-- What ends from a state ends from what a search makes of it. -/
theorem EndsFrom.mono {p : Prover μ} {s t : ProofState} (hp : EndsFrom p s) (h : s.Enriches t) :
    EndsFrom p t := fun goal x hx ↦ hp goal x (h.trans hx)

variable {p : Prover μ} {x : Session μ}

/-- The search that is assumed to end, in a tactic. -/
theorem EndsFrom.prove (hp : EndsFrom p x.state) (goal : Expression) :
    Ends x.state (p.prove goal) (fun calls ↦ prove calls goal) x :=
  hp goal x (InferenceRelation.refl x.state)

/-- What ends at once ends without a change. -/
theorem ends_pure (a : α) : Ends x.state (Pure.pure a : Attempt μ α) (fun _ ↦ Pure.pure a) x :=
  .pure (InferenceRelation.refl x.state) a

/-- A failure ends at once. -/
theorem ends_fail (goal : Expression) (reason : FailureReason) :
    Ends x.state (fail goal reason : Attempt μ α) (fun _ ↦ watch (fail goal reason)) x :=
  .watch (InferenceRelation.refl x.state)

/-- Writing out has a budget of its own, which both versions count down. -/
theorem exposeWithin_ends (hp : EndsFrom p x.state) (budget : Nat) (name : String) :
    Ends x.state (p.exposeWithin budget name) (fun calls ↦ exposeWithin calls budget name) x := by
  induction budget generalizing name x with
  | zero =>
    refine .call ?_
    simp only [exposeWithin]
    exact .step (Building.lookup_keeps name) fun _ y _ _ ↦ ends_fail _ _
  | succ budget ih =>
    refine .call ?_
    simp only [exposeWithin]
    refine .step (Building.lookup_keeps name) fun statement y hy _ ↦ ?_
    rcases statement with _ | ⟨_ | _ | _, v, body⟩ | _ | _ | _
    case binder.universal => exact ends_pure _
    -- anything else is written out, whatever it is
    all_goals
      refine .step (Building.expand?_keeps _) fun result z hz hrun ↦ ?_
      cases result with
      | none => exact .throw (InferenceRelation.refl z.state) _
      | some expanded =>
        obtain ⟨index, expansion⟩ := expanded
        have hdefine := Building.mayDefine_of_expand? hrun
        have hp := hp.mono (hy.trans hz)
        have heliminate : ∀ (equation : String) (u : Session μ), z.state.Enriches u.state →
            Ends u.state (step (Building.eliminate equation name) >>= p.exposeWithin budget)
              (fun calls ↦ watch (step (Building.eliminate equation name)) >>=
                exposeWithin calls budget) u :=
          fun equation u hu ↦ .step (Building.eliminate_keeps equation name) fun name v hv _ ↦
            ih (hp.mono (hu.trans hv)) name
        refine (hp.prove _).reported.bind fun result w hw ↦ ?_
        rcases result with ⟨_ | _ | _⟩ | equation
        · exact .step (Building.supposeAt_keeps (hdefine.grows hw.grows)) fun equation u hu _ ↦
            heliminate equation u (hw.trans hu)
        · exact .throw (InferenceRelation.refl w.state) _
        · exact .throw (InferenceRelation.refl w.state) _
        · exact heliminate equation w hw

/-- Binding goes down its list of values. -/
theorem bindEach_ends (hp : EndsFrom p x.state) (current : String) (values : List Expression) :
    Ends x.state (p.bindEach current values) (fun calls ↦ bindEach calls current values) x := by
  induction values generalizing current x with
  | nil =>
    refine .call ?_
    simp only [bindEach]
    exact ends_pure _
  | cons value rest ih =>
    refine .call ?_
    simp only [bindEach]
    refine (exposeWithin_ends hp maxExpansions current).bind fun exposed y hy ↦ ?_
    exact .step (Building.bind_keeps (.name exposed) value) fun bound z hz _ ↦
      ih (hp.mono (hy.trans hz)) bound

theorem autobind_ends (hp : EndsFrom p x.state) (target : Reference) (values : List Expression) :
    Ends x.state (p.autobind target values) (fun calls ↦ autobind calls target values) x := by
  refine .call ?_
  simp only [autobind]
  exact .step (Building.resolve_keeps target) fun name y hy _ ↦
    bindEach_ends (hp.mono hy) name values

/-- Discharging goes on with the conclusion, so it ends within as many conditions as there are. -/
theorem discharge_ends {current : String} {statement : Expression} {budget : Nat}
    (hp : EndsFrom p x.state) (hstatement : x.state.get? current = some statement)
    (hbudget : statement.splitRules.1.length ≤ budget) :
    Ends x.state (p.dischargeWithin budget current) (fun calls ↦ discharge calls current) x := by
  have hlookup := Building.get?_lookup_run hstatement
  induction budget generalizing current statement x with
  | zero =>
    refine .call ?_
    simp only [discharge]
    refine .read hlookup ?_
    cases statement with
    | implies condition conclusion => exact absurd hbudget (Nat.not_succ_le_zero _)
    | _ => exact ends_pure current
  | succ budget ih =>
    refine .call ?_
    simp only [discharge]
    refine .skip hlookup (.read hlookup ?_)
    cases statement with
    | implies condition conclusion =>
      refine (hp.prove condition).bind fun evidence y hy ↦ ?_
      refine .step (Building.apply_keeps (.name current) (.name evidence)) fun applied z hz hrun ↦
        ?_
      have hconclusion : z.state.get? applied = some conclusion :=
        Building.get?_of_apply_run (hy.get? hstatement) hrun
      exact ih (hp.mono (hy.trans hz)) hconclusion (Nat.le_of_succ_le_succ hbudget)
        (Building.get?_lookup_run hconclusion)
    | _ => exact ends_pure current

theorem autoapply_ends (hp : EndsFrom p x.state) (target : Reference) :
    Ends x.state (p.autoapply target) (fun calls ↦ autoapply calls target) x := by
  refine .call ?_
  simp only [autoapply]
  refine .step (Building.resolve_keeps target) fun name y hy hrun ↦ ?_
  obtain ⟨statement, hstatement⟩ := Building.exists_get?_of_resolve_run hrun
  refine .skip (Building.get?_lookup_run hstatement) ?_
  exact discharge_ends (hp.mono hy) hstatement (Nat.le_add_right _ _)

theorem backwards_ends (hp : EndsFrom p x.state) (source : Reference) (goal : Expression) :
    Ends x.state (p.backwards source goal) (fun calls ↦ backwards calls source goal) x := by
  refine .call ?_
  simp only [backwards]
  refine .step (Building.resolve_keeps source) fun source y hy _ ↦ ?_
  refine .step (Building.lookup_keeps source) fun statement z hz _ ↦ ?_
  refine .step (Building.draw_keeps _) fun opened w hw _ ↦ ?_
  have hp := hp.mono ((hy.trans hz).trans hw)
  obtain ⟨slots, body⟩ := opened
  dsimp only
  cases body.splitRules.2.match? goal with
  | none => exact ends_fail _ _
  | some bindings =>
    dsimp only
    cases slots.mapM bindings.get? with
    | none => exact ends_fail _ _
    | some values =>
      refine (autobind_ends hp (.name source) values).bind fun bound u hu ↦ ?_
      refine (autoapply_ends (hp.mono hu) (.name bound)).bind fun applied t ht ↦ ?_
      refine .step (Building.lookup_keeps applied) fun found r hr _ ↦ ?_
      split
      · exact ends_pure _
      · exact ends_fail _ _

theorem specialize_ends (hp : EndsFrom p x.state) (source : String) (values : List Expression)
    (bindings : Bindings) :
    Ends x.state (p.specialize source values bindings)
      (fun calls ↦ specialize calls source values bindings) x := by
  refine .call ?_
  simp only [specialize]
  refine .step (Building.draw_keeps _) fun values y hy _ ↦ ?_
  refine (autobind_ends (hp.mono hy) (.name source) values).bind fun bound z hz ↦ ?_
  exact autoapply_ends (hp.mono (hy.trans hz)) (.name bound)

theorem turnAround_ends (hp : EndsFrom p x.state) (goal left right : Expression) :
    Ends x.state (p.turnAround goal left right)
      (fun calls ↦ turnAround calls goal left right) x := by
  refine .call ?_
  simp only [turnAround]
  refine .proofState (InferenceRelation.refl x.state) ?_
  cases x.state.«recall?» (.equals right left) with
  | none => exact ends_fail _ _
  | some known =>
    refine (autobind_ends hp (.name "eq_sym") [right, left]).bind fun rule y hy ↦ ?_
    exact .of_step (Building.apply_keeps (.name rule) (.name known))

/-- So every tactic of the library ends if the searches in it do. -/
theorem runTactic_ends (hp : EndsFrom p x.state) (external : External μ) {tactic : Tactic}
    (htactic : tactic.BuiltIn) (bindings : Bindings) (goal : Expression) :
    Ends x.state (p.runTactic external tactic bindings goal)
      (fun calls ↦ runTactic calls tactic bindings goal) x := by
  cases tactic with
  | specialize source values =>
    refine .call ?_
    simp only [runTactic]
    exact specialize_ends hp source values bindings
  | turnAround left right =>
    refine .call ?_
    simp only [runTactic, Prover.runTactic]
    cases bindings.get? left with
    | none => exact ends_fail _ _
    | some l =>
      cases bindings.get? right with
      | none => exact ends_fail _ _
      | some r => exact turnAround_ends hp goal l r
  | backwards source =>
    refine .call ?_
    simp only [runTactic]
    exact backwards_ends hp (.name source) goal
  | external key => exact absurd htactic id

/-! ### The search -/

/-- The rules are a list, and each of them is tried in a state that enriches the first. -/
theorem tryRules_ends {run : Rule → Bindings → Attempt μ String} {goal : Expression}
    {rules : List Rule}
    (hrun : ∀ rule ∈ rules, ∀ bindings (y : Session μ), x.state.Enriches y.state →
      Ends y.state (run rule bindings) (fun calls ↦ runTactic calls rule.tactic bindings goal) y) :
    Ends x.state (Search.tryRules run goal rules) (fun calls ↦ tryRules calls goal rules) x := by
  induction rules generalizing x with
  | nil =>
    refine .call ?_
    simp only [tryRules]
    exact ends_fail _ _
  | cons rule rest ih =>
    obtain ⟨hrule, hrest⟩ := List.forall_mem_cons.1 hrun
    have hx := InferenceRelation.refl (R := ProofState.Enriches) x.state
    cases hmatch : rule.pattern.match? goal with
    | none =>
      refine .call ?_
      simp only [tryRules, Search.tryRules, hmatch]
      exact ih hrest
    | some bindings =>
      refine .call ?_
      simp only [tryRules, Search.tryRules, hmatch]
      refine .proofState hx ?_
      refine (hrule bindings x hx).reported.seq fun result y hy _ ↦ ?_
      -- what the rule did is undone, and the rest goes on from where the rule began
      have hback : Ends x.state (modifyState (·.rollback x.state.checkpoint) : Attempt μ Unit)
          (fun _ ↦ watch (modifyState (·.rollback x.state.checkpoint))) y := .watch hy.rollback
      have hnext : ∀ z : Session μ, x.state.Enriches z.state →
          Ends x.state (Search.tryRules run goal rest) (fun calls ↦ tryRules calls goal rest) z :=
        fun z hz ↦
        (ih fun rule hmem bindings w hw ↦ hrest rule hmem bindings w (hz.trans hw)).after hz
      rcases result with ⟨_ | _ | _⟩ | name
      · exact hback.seq fun _ z hz _ ↦ hnext z hz
      · exact hback.seq fun _ z hz _ ↦ .throw hz _
      · exact hback.seq fun _ z hz _ ↦ .throw hz _
      · refine .proofState hy ?_
        split
        · exact .pure hy name
        · exact hback.seq fun _ z hz _ ↦ hnext z hz

/-- Searches that are counted do not pass the limit, if another one is allowed. -/
theorem counted_ends {act : Attempt μ String} {act' : Nat → Watched μ String} {counting : Session μ}
    (hcounting : counting = { x with state := { x.state with searching := x.state.searching + 1 } })
    (hlimit : x.state.searching < x.state.searchLimit) (h : Ends counting.state act act' counting) :
    Ends x.state (Search.counted act) (fun calls ↦ do
      watch (modifyState fun s ↦ { s with searching := s.searching + 1 })
      let result ← reported (act' calls)
      watch (modifyState fun s ↦ { s with searching := s.searching - 1 })
      watch (ofOutcome result)) x := by
  obtain ⟨henriches, n, hn, enough, hends⟩ := h
  have hcounted := Search.counted_run (x := x) act
  rw [← hcounting] at hcounted
  rcases hrun : act.run.run counting with ⟨result, y⟩
  rw [hrun] at henriches hends hcounted
  have hsearching : y.state.searching = x.state.searching + 1 := by
    rw [henriches.searching, hcounting]
  -- counting one search does not raise the ceiling, as the limit is not reached yet
  have hceiling : ceiling counting.state = ceiling x.state := by
    rw [hcounting, ceiling, ceiling, Nat.max_eq_left hlimit, Nat.max_eq_left (Nat.le_of_lt hlimit)]
  let z : Session μ := { y with state := { y.state with searching := y.state.searching - 1 } }
  have hz : x.state.Enriches z.state := SearchRelation.search (s := x.state) (by
    rw [hcounting] at henriches
    exact henriches)
  refine ⟨by rw [hcounted]; exact hz, max (x.state.searching + 1) n, ?_, enough,
    fun calls hcalls peak ↦ ?_⟩
  · refine Nat.max_le.2 ⟨?_, hceiling ▸ hn⟩
    exact Nat.le_trans hlimit (Nat.le_max_left _ _)
  -- the watched program step by step: count, search, count back, answer
  · have hbegin : (watch (modifyState fun s ↦ { s with searching := s.searching + 1 })).run.run
        (x, peak) = some (.ok (), (counting, max peak (x.state.searching + 1))) := by
      rw [hcounting]
      rfl
    have hend :
        ∀ peak, (watch (modifyState fun s ↦ { s with searching := s.searching - 1 })).run.run
        (y, peak) = some (.ok (), (z, max peak z.state.searching)) := fun _ ↦ rfl
    have hresult : ∀ peak, (watch (ofOutcome result : Attempt μ String)).run.run (z, peak) =
        some (result, (z, max peak z.state.searching)) := by
      intro peak
      show some (((ofOutcome result : Attempt μ String).run.run z).1, _) = _
      cases result <;> rfl
    -- the counter is highest inside of the search, so counting back does not raise the peak
    have hpeak : max (max (max (max peak (x.state.searching + 1)) n) z.state.searching)
        z.state.searching = max peak (max (x.state.searching + 1) n) := by
      have hle : z.state.searching ≤ x.state.searching + 1 := by
        show y.state.searching - 1 ≤ _
        omega
      omega
    rw [bind_run, hbegin]
    dsimp only
    rw [bind_run, reported_run, hends calls hcalls]
    dsimp only [Option.map_some]
    rw [bind_run, hend]
    dsimp only
    rw [hresult, hpeak, hcounted]

/-- **Searches end**, if no rule has a tactic of a user's, and there are as many levels as the limit
allows. -/
theorem proveAt_ends (external : External μ) {levels : Nat} (hrules : x.state.BuiltIn)
    (hlevels : x.state.searchLimit - x.state.searching ≤ levels) (goal : Expression) :
    Ends x.state (Search.proveAt external levels goal) (fun calls ↦ prove calls goal) x := by
  induction levels using Nat.strongRecOn generalizing goal x with
  | ind levels ih =>
    refine .call ?_
    simp only [prove]
    rw [Search.proveAt.eq_def]
    refine .proofState (InferenceRelation.refl x.state) ?_
    cases x.state.«recall?» goal with
    | some name => exact ends_pure name
    | none =>
      show Ends x.state (if goal.evaluate matches .ok true then _ else _)
        (fun _ ↦ if goal.evaluate matches .ok true then _ else _) x
      cases goal.evaluate matches .ok true with
      | true => exact .of_step (Building.verify_keeps goal)
      | false =>
        simp only [Bool.false_eq_true, if_false]
        by_cases hlimit : x.state.searchLimit ≤ x.state.searching
        · simp only [if_pos hlimit]
          exact ends_fail _ _
        · simp only [if_neg hlimit]
          have hpos : levels ≠ 0 := by omega
          obtain ⟨levels, rfl⟩ := Nat.exists_eq_succ_of_ne_zero hpos
          refine counted_ends rfl (Nat.lt_of_not_le hlimit) (tryRules_ends ?_)
          intro rule hrule bindings y hy
          have hinner : EndsFrom ⟨Search.proveAt external levels, external.slack⟩ y.state := by
            intro goal z hz
            have hz := hy.trans hz
            refine ih levels (Nat.lt_succ_self levels) (hz.builtIn hrules) ?_ goal
            rw [hz.searchLimit, hz.searching]
            show x.state.searchLimit - (x.state.searching + 1) ≤ levels
            omega
          obtain ⟨f, hf, hr⟩ := List.mem_flatMap.1 hrule
          exact runTactic_ends hinner external (hrules f hf rule hr) bindings goal

/-- The search that tactics are run with ends, by induction on the levels that are left. -/
theorem prover_ends (external : External μ) (hrules : x.state.BuiltIn) :
    EndsFrom (Search.prover external) x.state := by
  intro goal y hy
  have hlevels : y.state.searchLimit - y.state.searching ≤
      max y.state.searchLimit external.reach - y.state.searching := by omega
  obtain ⟨henriches, hrun⟩ := proveAt_ends external (hy.builtIn hrules) hlevels goal
  exact ⟨henriches, hrun⟩

end Unbounded

/-! ### The theorem -/

/-- Whether a computation without bounds ends, and as an attempt does: from some depth on, it comes
to the same however deep its calls may nest. At no time are more searches under way than the limit
allows, unless there were from the start, and in the end there are as many as there were. -/
def Terminates (act : Attempt μ α) (act' : Nat → Watched μ α) (x : Session μ) : Prop :=
  ∃ result y peak enough,
    (∀ calls ≥ enough, (act' calls).run.run (x, x.state.searching) = some (result, (y, peak))) ∧
    act.run.run x = (result, y) ∧ peak ≤ max x.state.searchLimit x.state.searching ∧
      y.state.searching = x.state.searching

/-- From the last bound on, deeper calls change nothing. -/
theorem Unbounded.Ends.terminates {act : Attempt μ α} {act' : Nat → Watched μ α} {x : Session μ}
    (h : Ends x.state act act' x) : Terminates act act' x := by
  obtain ⟨henriches, n, hn, enough, hrun⟩ := h
  refine ⟨_, _, _, enough, fun calls hcalls ↦ hrun calls hcalls x.state.searching, rfl, ?_,
    henriches.searching⟩
  exact Nat.max_le.2 ⟨Nat.le_max_right _ _, hn⟩

/-- **Searches and tactics end**, if no rule has a tactic of a user's: searching for a proof,
specializing, discharging and proving backwards. There may be any rules else, any statements and any
abbreviations, and any number of searches may be allowed and under way. The bounds that are built
into the model are not noticed. -/
theorem tactics_terminate (external : External μ) {x : Session μ} (hrules : x.state.BuiltIn) :
    (∀ goal, Terminates ((Search.prover external).prove goal)
      (fun calls ↦ Unbounded.prove calls goal) x) ∧
    (∀ target values, Terminates ((Search.prover external).autobind target values)
      (fun calls ↦ Unbounded.autobind calls target values) x) ∧
    (∀ target, Terminates ((Search.prover external).autoapply target)
      (fun calls ↦ Unbounded.autoapply calls target) x) ∧
    ∀ source goal, Terminates ((Search.prover external).backwards source goal)
      (fun calls ↦ Unbounded.backwards calls source goal) x := by
  have hp : Unbounded.EndsFrom (Search.prover external) x.state :=
    Unbounded.prover_ends external hrules
  exact ⟨fun goal ↦ (hp.prove goal).terminates,
    fun target values ↦ (Unbounded.autobind_ends hp target values).terminates,
    fun target ↦ (Unbounded.autoapply_ends hp target).terminates,
    fun source goal ↦ (Unbounded.backwards_ends hp source goal).terminates⟩

/-- A hint feeds itself: to prove `P c` from `∀ x, P (f x) → P x` is to prove `P (f c)` first. -/
theorem tactics_terminate_runaway :
    let x : Variable := ⟨"x", 0⟩
    let statement : Expression :=
      .all x (.implies (.call "P" [.call "f" [.var x]]) (.call "P" [.var x]))
    let supposed := (Host.start 1 3 ()).bench.state.add ⟨"lemma", statement, .supposition⟩
    let session : Session Unit := ⟨((Building.hint (.name "lemma")).run.run supposed).2, ()⟩
    session.state.BuiltIn ∧ ∃ result y peak enough,
      (∀ calls ≥ enough, (Unbounded.prove calls (.call "P" [.symbol "c"])).run.run (session, 0) =
        some (result, (y, peak))) ∧
        result.isOk = false ∧ peak ≤ 3 ∧ y.state.searching = 0 := by
  intro x statement supposed session
  have hrules : session.state.BuiltIn := by decide +kernel
  obtain ⟨result, y, peak, enough, hrun, hbounded, hpeak, hsearching⟩ :=
    (tactics_terminate .none hrules).1 (.call "P" [.symbol "c"])
  have hfails : (((Search.prover .none).prove (.call "P" [.symbol "c"])).run.run session).1.isOk =
      false := by decide +kernel
  have hlimit : session.state.searching = 0 ∧ session.state.searchLimit = 3 := by decide +kernel
  rw [hbounded] at hfails
  rw [hlimit.1] at hrun hsearching
  rw [hlimit.1, hlimit.2] at hpeak
  exact ⟨hrules, result, y, peak, enough, hrun, hfails, hpeak, hsearching⟩

/-! ### Drawing names -/

/-- All names in front of the one that is found are taken. -/
theorem taken_of_lt_firstFree {taken : String → Bool} {budget n m : Nat} (hn : n ≤ m)
    (hm : m < ProofState.firstFree taken budget n) :
    taken (ProofState.generatedName m) = true := by
  induction budget generalizing n with
  | zero => exact absurd hm (Nat.not_lt.2 hn)
  | succ budget ih =>
    rw [ProofState.firstFree] at hm
    split at hm
    · rename_i htaken
      rcases Nat.eq_or_lt_of_le hn with rfl | hlt
      · exact htaken
      · exact ih hlt hm
    · exact absurd hm (Nat.not_lt.2 hn)

/-- **Drawing a name ends**, at the first number whose generated name is not visible. -/
theorem freeNumber_isFirst (s : ProofState) :
    s.nextName ≤ s.freeNumber ∧ s.find? (ProofState.generatedName s.freeNumber) = none ∧
      ∀ n, s.nextName ≤ n → n < s.freeNumber →
        (s.find? (ProofState.generatedName n)).isSome = true := by
  refine ⟨Building.le_firstFree _ _ _, s.find?_generatedName, fun n hn hlt ↦ ?_⟩
  exact @taken_of_lt_firstFree (fun name ↦ (s.find? name).isSome) _ _ _ hn hlt

end NaturalDeduction
