import NaturalDeduction.Automation.Search
import NaturalDeduction.Proofs.Shifting.Tracking

/-!
# The search for proofs on shifted states

A search compares statements, matches patterns, draws variables and takes steps. It does all of that
to shifted statements as it does it to the statements themselves, so it opens the same levels, tries
the same rules in the same order, and gives up at the same points (`Search.prove_tracks`).

A user's tactics are free to look at the numbers of variables; what is shown is for tactics that do
not (`External.Uniform`).

The tactics are given the search as a parameter, and what they need is that the search they are
given is in step (`Prover.Uniform`). So there is one lemma for each tactic, and a single induction
over the number of levels ties the knot (`Search.proveAt_tracks`).
-/

namespace NaturalDeduction

variable {d : Nat} {μ α : Type} [Shift α]

/-! ### Writing abbreviations out -/

/-- The first abbreviation that knows a head expands it, and it is the same one. -/
theorem Abbreviation.expandFirst_tracks (head : String) (args : List Expression)
    {abbreviations : List Abbreviation} (h : ∀ a ∈ abbreviations, a.Uniform d) :
    Fresh.Tracks d (expandFirst head args abbreviations)
      (expandFirst head (shift d args) abbreviations) := by
  induction abbreviations with
  | nil => exact .pure rfl
  | cons a rest ih =>
    obtain ⟨ha, hrest⟩ := List.forall_mem_cons.1 h
    rw [expandFirst, expandFirst]
    split
    · refine Fresh.Tracks.bind (ha args) fun result ↦ ?_
      cases result with
      | none => exact ih hrest
      | some e => exact .pure rfl
    · exact ih hrest

/-- The innermost frame whose abbreviations know a head decides. -/
theorem Frame.expandInnermost_tracks (head : String) (args : List Expression) {frames : List Frame}
    (h : ∀ f ∈ frames, ∀ a ∈ f.abbreviations, a.Uniform d) :
    Fresh.Tracks d (expandInnermost head args frames)
      (expandInnermost head (shift d args) (shift d frames)) := by
  induction frames with
  | nil => exact .pure rfl
  | cons f rest ih =>
    obtain ⟨hf, hrest⟩ := List.forall_mem_cons.1 h
    refine (Abbreviation.expandFirst_tracks head args hf).bind fun result ↦ ?_
    cases result with
    | none => exact ih hrest
    | some e => exact .pure (congrArg (fun n ↦ some (n, shift d e)) (length_shift rest))

namespace Building

/-- Expanding looks at the head, which is not shifted, and at the visible abbreviations. -/
theorem expand?_tracks (e : Expression) : Tracks d (expand? e) (expand? (shift d e)) := by
  rw [expand?, expand?, Expression.head?_shift, Expression.args_shift]
  cases e.head? with
  | none => exact .pure rfl
  | some head =>
    refine .get_bind ?_
    rintro s _ ⟨rfl, hs⟩
    refine draw_tracks (Frame.expandInnermost_tracks head e.args fun f hf a ha ↦ hs a ?_)
    exact List.mem_flatMap.2 ⟨f, hf, ha⟩

/-! ### Equations -/

/-- The sides of an equation are the shifted sides, and what is no equation is refused alike. -/
theorem sides_tracks (name : String) : Tracks d (sides name) (sides name) := by
  refine (lookup_tracks name).bind fun statement ↦ ?_
  cases statement with
  | equals left right => exact .pure rfl
  | application items =>
    rw [Expression.shift_application]
    exact .throw (congrArg (Refusal.notAnEquation name) (Expression.shift_application items).symm)
  | _ => exact .throw rfl

/-- Values are put for quantified variables one by one. -/
theorem bindAll_tracks (target : String) (values : List Expression) :
    Tracks d (bindAll target values) (bindAll target (shift d values)) := by
  induction values generalizing target with
  | nil => exact .pure rfl
  | cons value rest ih => exact (bind_tracks (.name target) value).bind_constant ih

/-- Equality is eliminated by statements of the prelude, which are looked up by name. -/
theorem eliminate_tracks (equation target : String) :
    Tracks d (eliminate equation target) (eliminate equation target) := by
  refine (sides_tracks equation).bind fun p ↦ ?_
  refine (bindAll_tracks "eq_elim" [p.1, p.2]).bind_constant fun rule ↦ ?_
  exact (apply_tracks (.name rule) (.name equation)).bind_constant fun rule ↦
    apply_tracks (.name rule) (.name target)

/-- Replacing equals is a replacement followed by an elimination. -/
theorem replaceEqual_tracks (target equation : Reference) (chosen : Occurrences) :
    Tracks d (replaceEqual target equation chosen) (replaceEqual target equation chosen) := by
  refine (resolve_tracks target).bind_constant fun target ↦ ?_
  refine (resolve_tracks equation).bind_constant fun equation ↦ ?_
  refine (lookup_tracks target).bind fun statement ↦ ?_
  refine (sides_tracks equation).bind fun ⟨a, b⟩ ↦ ?_
  refine (substitute_tracks statement [⟨a, b⟩] chosen).bind_constant fun reduction ↦ ?_
  refine (sides_tracks reduction).bind fun ⟨record, result⟩ ↦ ?_
  have hcongruence : shift d [statement, a, b, .ofOccurrences chosen] =
      [shift d statement, shift d a, shift d b, .ofOccurrences chosen] := by simp
  have hcongruence := hcongruence ▸
    bindAll_tracks (d := d) "subst_congruence" [statement, a, b, .ofOccurrences chosen]
  refine hcongruence.bind_constant fun congruence ↦ ?_
  refine (apply_tracks (.name congruence) (.name equation)).bind_constant fun unchanged ↦ ?_
  refine (bindAll_tracks "eq_sym" [record, statement]).bind_constant fun symmetry ↦ ?_
  refine (apply_tracks (.name symmetry) (.name unchanged)).bind_constant fun flipped ↦ ?_
  refine (bindAll_tracks "eq_trans" [statement, record, result]).bind_constant fun transitivity ↦ ?_
  refine (apply_tracks (.name transitivity) (.name flipped)).bind_constant fun transitivity ↦ ?_
  refine (apply_tracks (.name transitivity) (.name reduction)).bind_constant fun bridge ↦ ?_
  exact eliminate_tracks bridge target

/-- The rule that a hint registers is made from the shifted statement, opened into shifted holes. -/
theorem hint_tracks (source : Reference) : Tracks d (hint source) (hint source) := by
  refine (resolve_tracks source).bind_constant fun source ↦ ?_
  refine (lookup_tracks source).bind fun statement ↦ ?_
  refine (draw_tracks statement.openAlls_tracks).bind fun ⟨slots, body⟩ ↦ .modify ?_
  rintro s _ ⟨rfl, hs⟩
  dsimp only [shift_mk]
  rw [Expression.splitRules_shift]
  exact ⟨s.addRule_shift ⟨source, body.splitRules.2, .backwards source⟩, hs⟩

end Building

/-! ### Attempts -/

instance : Shift FailureReason := .constant FailureReason
instance : Shift.Constant FailureReason := ⟨fun _ _ ↦ rfl⟩
instance : Shift Abort := .constant Abort
instance : Shift.Constant Abort := ⟨fun _ _ ↦ rfl⟩

instance : Shift Setback where
  shift d
    | .failed goal reason => .failed (shift d goal) reason
    | .aborted abort => .aborted abort
    | .refused refusal => .refused (shift d refusal)

instance : Follow (Session μ) :=
  ⟨fun d x y ↦ Follows d x.state y.state ∧ y.memory = x.memory⟩

namespace Attempt

/-- A step of an attempt leaves the user's memory alone. -/
theorem step_tracks {act act' : Building α} (h : Tracks d act act') :
    Tracks d (step act : Attempt μ α) (step act') := by
  intro x y hxy
  obtain ⟨hresult, hstate⟩ := h x.state y.state hxy.1
  refine ⟨?_, hstate, hxy.2⟩
  show (act'.run.run y.state).1.mapError Setback.refused =
    shift d ((act.run.run x.state).1.mapError Setback.refused)
  rw [hresult]
  cases (act.run.run x.state).1 <;> rfl

/-- An attempt may look at the proof state, which is uniform. -/
theorem proofState_bind_tracks {next next' : ProofState → Attempt μ α}
    (h : ∀ s, s.Uniform d → Tracks d (next s) (next' (shift d s))) :
    Tracks d (proofState >>= next) (proofState >>= next') := by
  intro x y hxy
  obtain ⟨hstate, hs⟩ := hxy.1
  have hnext := h x.state hs x y hxy
  rw [← hstate] at hnext
  exact hnext

/-- A change of the proof state in step is one of the session. -/
theorem modifyState_tracks {f g : ProofState → ProofState}
    (h : ∀ s, s.Uniform d → g (shift d s) = shift d (f s) ∧ (f s).Uniform d) :
    Tracks d (modifyState f : Attempt μ Unit) (modifyState g) := by
  refine .modify fun x y hxy ↦ ?_
  obtain ⟨⟨hstate, hs⟩, hmemory⟩ := hxy
  obtain ⟨hf, hs'⟩ := h x.state hs
  exact ⟨⟨(congrArg g hstate).trans hf, hs'⟩, hmemory⟩

/-- A failure names the shifted goal. -/
theorem fail_tracks (goal : Expression) (reason : FailureReason) :
    Tracks d (fail goal reason : Attempt μ α) (fail (shift d goal) reason) :=
  .throw rfl

theorem outcome_tracks {act act' : Attempt μ α} (h : Tracks d act act') :
    Tracks d (outcome act) (outcome act') :=
  fun x y hxy ↦ ⟨congrArg Except.ok (h x y hxy).1, (h x y hxy).2⟩

/-- An outcome is passed on, shifted. -/
theorem ofOutcome_tracks (result : Except Setback α) :
    Tracks d (ofOutcome result : Attempt μ α) (ofOutcome (shift d result)) := by
  cases result with
  | ok a => exact .pure rfl
  | error e => exact .throw rfl

end Attempt

/-! ### Tactics -/

/-- Whether the search of a prover for a shifted goal is the shifted search for the goal. -/
def Prover.Uniform (d : Nat) (p : Prover μ) : Prop :=
  ∀ goal, Tracks d (p.prove goal) (p.prove (shift d goal))

namespace Prover

open Attempt

variable {p : Prover μ}

/-- The same notation is expanded, as often, until a quantification shows. -/
theorem exposeWithin_tracks (h : p.Uniform d) (budget : Nat) (name : String) :
    Tracks d (exposeWithin p budget name) (exposeWithin p budget name) := by
  induction budget generalizing name with
  | zero =>
    exact (step_tracks (Building.lookup_tracks name)).bind fun e ↦ fail_tracks e .tooManyExpansions
  | succ budget ih =>
    refine (step_tracks (Building.lookup_tracks name)).bind fun statement ↦ ?_
    dsimp only
    split
    · exact .pure rfl
    · rename_i hother
      split
      · rename_i v body heq
        obtain ⟨v', body', hall⟩ := Expression.exists_eq_all_of_shift_eq_all heq
        exact (hother v' body' hall).elim
      · refine (step_tracks (Building.expand?_tracks statement)).bind fun result ↦ ?_
        cases result with
        | none => exact .throw rfl
        | some expanded =>
          obtain ⟨index, expansion⟩ := expanded
          have heliminate (equation : String) :
              Tracks d (step (Building.eliminate equation name) >>= exposeWithin p budget)
                (step (Building.eliminate equation name) >>= exposeWithin p budget) :=
            (step_tracks (Building.eliminate_tracks equation name)).bind_constant ih
          have hproved := h (.equals statement expansion)
          refine (outcome_tracks hproved).bind fun result ↦ ?_
          -- the equation is what was proved, or else the definition supposed
          cases result with
          | ok equation => exact heliminate equation
          | error setback =>
            cases setback with
            | failed =>
              have hsuppose :=
                Building.supposeAt_tracks (d := d) index (.equals statement expansion)
              exact (step_tracks hsuppose).bind_constant heliminate
            | aborted | refused => exact .throw_bind rfl

/-- Notation is expanded in front of each value alike. -/
theorem bindEach_tracks (h : p.Uniform d) (current : String) (values : List Expression) :
    Tracks d (bindEach p current values) (bindEach p current (shift d values)) := by
  induction values generalizing current with
  | nil => exact .pure rfl
  | cons value rest ih =>
    refine (exposeWithin_tracks h maxExpansions current).bind_constant fun exposed ↦ ?_
    refine (step_tracks (Building.bind_tracks (.name exposed) value)).bind_constant fun bound ↦ ?_
    exact ih bound

/-- The statement is looked up and specialized value by value. -/
theorem autobind_tracks (h : p.Uniform d) (target : Reference) (values : List Expression) :
    Tracks d (autobind p target values) (autobind p target (shift d values)) :=
  (step_tracks (Building.resolve_tracks target)).bind_constant fun name ↦
    bindEach_tracks h name values

/-- The same conditions are searched for, in the same order. -/
theorem dischargeWithin_tracks (h : p.Uniform d) (budget : Nat) (current : String) :
    Tracks d (dischargeWithin p budget current) (dischargeWithin p budget current) := by
  induction budget generalizing current with
  | zero => exact .pure rfl
  | succ budget ih =>
    refine (step_tracks (Building.lookup_tracks current)).bind fun statement ↦ ?_
    cases statement with
    | implies condition conclusion =>
      refine (h condition).bind_constant fun evidence ↦ ?_
      refine (step_tracks (Building.apply_tracks (.name current) (.name evidence))).bind_constant ?_
      exact ih
    | application items =>
      rw [Expression.shift_application]
      exact .pure rfl
    | _ => exact .pure rfl

/-- A rule is applied until no condition is left, or the budget is used up. -/
theorem autoapply_tracks (h : p.Uniform d) (target : Reference) :
    Tracks d (autoapply p target) (autoapply p target) := by
  refine (step_tracks (Building.resolve_tracks target)).bind_constant fun name ↦ ?_
  refine (step_tracks (Building.lookup_tracks name)).bind fun statement ↦ ?_
  have hlength : (shift d statement).splitRules.1.length = statement.splitRules.1.length := by
    rw [Expression.splitRules_shift]
    exact length_shift _
  rw [hlength]
  exact dischargeWithin_tracks h _ name

/-- The opened statement matches the shifted goal alike, and the same values are filled in. -/
theorem backwards_tracks (h : p.Uniform d) (source : Reference) (goal : Expression) :
    Tracks d (backwards p source goal) (backwards p source (shift d goal)) := by
  refine (step_tracks (Building.resolve_tracks source)).bind_constant fun source ↦ ?_
  refine (step_tracks (Building.lookup_tracks source)).bind fun statement ↦ ?_
  refine (step_tracks (Building.draw_tracks statement.openAlls_tracks)).bind fun ⟨slots, body⟩ ↦ ?_
  dsimp only [shift_mk]
  have hmatch : (shift d body).splitRules.2.match? (shift d goal) =
      shift d (body.splitRules.2.match? goal) := by
    rw [Expression.splitRules_shift]
    exact Expression.match?_shift body.splitRules.2 goal
  rw [hmatch]
  cases body.splitRules.2.match? goal with
  | none => exact fail_tracks goal _
  | some bindings =>
    rw [shift_some]
    dsimp only
    rw [option_mapM_shift bindings.get?_shift slots]
    cases slots.mapM bindings.get? with
    | none => exact fail_tracks goal _
    | some values =>
      refine (autobind_tracks h (.name source) values).bind_constant fun bound ↦ ?_
      refine (autoapply_tracks h (.name bound)).bind_constant fun applied ↦ ?_
      refine (step_tracks (Building.lookup_tracks applied)).bind fun actual ↦ ?_
      rw [Expression.alphaEq_shift]
      split
      · exact .pure rfl
      · exact fail_tracks goal _

/-- The values of a rule are filled with shifted bindings. -/
theorem specialize_tracks (h : p.Uniform d) (source : String) (values : List Expression)
    (bindings : Bindings) :
    Tracks d (specialize p source values bindings)
      (specialize p source (shift d values) (shift d bindings)) := by
  have hfill : Fresh.Tracks d (values.mapM (·.fill bindings))
      ((shift d values).mapM (·.fill (shift d bindings))) :=
    .mapM (fun e ↦ e.fill_tracks bindings) values
  refine (step_tracks (Building.draw_tracks hfill)).bind fun values ↦ ?_
  refine (autobind_tracks h (.name source) values).bind_constant fun bound ↦ ?_
  exact autoapply_tracks h (.name bound)

/-- The reversed equation is searched for, and then turned around by the prelude. -/
theorem turnAround_tracks (h : p.Uniform d) (goal left right : Expression) :
    Tracks d (turnAround p goal left right)
      (turnAround p (shift d goal) (shift d left) (shift d right)) := by
  refine proofState_bind_tracks fun s _ ↦ ?_
  rw [← Expression.shift_equals, ProofState.recall?_shift]
  cases s.«recall?» (.equals right left) with
  | none => exact fail_tracks goal .reverseUnknown
  | some known =>
    refine (autobind_tracks h (.name "eq_sym") [right, left]).bind_constant fun rule ↦ ?_
    exact step_tracks (Building.apply_tracks (.name rule) (.name known))

end Prover

/-- Whether the tactics of a user treat shifted goals as they treat the goals. -/
def External.Uniform (d : Nat) (external : External μ) : Prop :=
  ∀ key p, Prover.Uniform d p → ∀ bindings goal,
    Tracks d (external.run key p bindings goal)
      (external.run key p (shift d bindings) (shift d goal))

/-- Where there are no tactics of a user, none looks at numbers. -/
theorem External.none_uniform : (External.none : External μ).Uniform d :=
  fun _ _ _ _ goal ↦ Attempt.fail_tracks goal .noRule

/-- Each sort of tactic is in step; for a user's tactics that is the assumption. -/
theorem Prover.runTactic_tracks {p : Prover μ} {external : External μ} (h : p.Uniform d)
    (hexternal : external.Uniform d) (tactic : Tactic) (bindings : Bindings) (goal : Expression) :
    Tracks d (p.runTactic external tactic bindings goal)
      (p.runTactic external (shift d tactic) (shift d bindings) (shift d goal)) := by
  cases tactic with
  | specialize source values => exact specialize_tracks h source values bindings
  | turnAround left right =>
    show Tracks d _ (p.runTactic external (.turnAround (shift d left) (shift d right)) _ _)
    rw [runTactic, runTactic, Bindings.get?_shift, Bindings.get?_shift]
    cases bindings.get? left with
    | none => exact Attempt.fail_tracks goal _
    | some l =>
      cases bindings.get? right with
      | none => exact Attempt.fail_tracks goal _
      | some r => exact turnAround_tracks h goal l r
  | backwards source => exact backwards_tracks h (.name source) goal
  | external key => exact hexternal key p h bindings goal

/-! ### The search -/

namespace Search

open Attempt

/-- The same rules match, in the same order, and the same one succeeds or aborts. -/
theorem tryRules_tracks {run run' : Rule → Bindings → Attempt μ String} {goal : Expression}
    (h : ∀ rule bindings, Tracks d (run rule bindings) (run' (shift d rule) (shift d bindings)))
    (rules : List Rule) :
    Tracks d (tryRules run goal rules) (tryRules run' (shift d goal) (shift d rules)) := by
  have hrollback (c : Checkpoint) : Tracks d
      (modifyState (·.rollback c) : Attempt μ Unit) (modifyState (·.rollback c)) :=
    modifyState_tracks fun s hs ↦ ⟨s.rollback_shift c, hs.rollback c⟩
  induction rules with
  | nil => exact fail_tracks goal .noRule
  | cons rule rest ih =>
    have hmatch : (shift d rule).pattern.match? (shift d goal) =
        shift d (rule.pattern.match? goal) := Expression.match?_shift rule.pattern goal
    rw [shift_cons, tryRules, tryRules, hmatch]
    cases rule.pattern.match? goal with
    | none => exact ih
    | some bindings =>
      refine proofState_bind_tracks fun s _ ↦ ?_
      rw [ProofState.checkpoint_shift]
      refine (outcome_tracks (h rule bindings)).bind fun result ↦ ?_
      match result with
      | .ok name =>
        refine proofState_bind_tracks fun t _ ↦ ?_
        refine .ite ?_ (.pure rfl) ((hrollback s.checkpoint).bind fun _ ↦ ih)
        rw [shift_constant d name, ProofState.get?_shift]
        cases t.get? name with
        | none => exact Iff.rfl
        | some e => exact iff_of_eq (congrArg (· = true) (Expression.alphaEq_shift e goal))
      | .error (.failed _ _) => exact (hrollback s.checkpoint).bind fun _ ↦ ih
      | .error (.aborted _) => exact (hrollback s.checkpoint).bind fun _ ↦ .throw rfl
      | .error (.refused _) => exact (hrollback s.checkpoint).bind fun _ ↦ .throw rfl

/-- Levels of searching are counted alike. -/
theorem counted_tracks {act act' : Attempt μ String} (h : Tracks d act act') :
    Tracks d (counted act) (counted act') := by
  refine Tracks.bind (modifyState_tracks fun s hs ↦ ⟨rfl, hs⟩) fun _ ↦ ?_
  refine (outcome_tracks h).bind fun result ↦ ?_
  refine Tracks.bind (modifyState_tracks fun s hs ↦ ⟨rfl, hs⟩) fun _ ↦ ?_
  exact ofOutcome_tracks result

/-- By induction on the levels that are left: inside of one level the search is in step, so the
tactics are. -/
theorem proveAt_tracks {external : External μ} (h : external.Uniform d) (levels : Nat)
    (goal : Expression) :
    Tracks d (proveAt external levels goal) (proveAt external levels (shift d goal)) := by
  rw [proveAt.eq_def, proveAt.eq_def]
  refine proofState_bind_tracks fun s _ ↦ ?_
  rw [ProofState.recall?_shift]
  cases s.«recall?» goal with
  | some name => exact .pure rfl
  | none =>
    dsimp only
    rw [Expression.evaluate_shift]
    refine .ite ?_ (step_tracks (Building.verify_tracks goal)) ?_
    · rcases goal.evaluate with _ | (_ | _) <;> exact Iff.rfl
    · rw [ProofState.searchLimit_shift, ProofState.searching_shift]
      split
      · exact fail_tracks goal .searchLimit
      · cases levels with
        | zero => exact fail_tracks goal .searchLimit
        | succ levels =>
          have hinner : Prover.Uniform d ⟨proveAt external levels, external.slack⟩ :=
            proveAt_tracks h levels
          refine counted_tracks ?_
          rw [ProofState.frames_shift, flatMap_shift Frame.rules_shift]
          exact tryRules_tracks (fun rule bindings ↦
            Prover.runTactic_tracks hinner h rule.tactic bindings goal) _

/-- **A search for a shifted goal is the shifted search for the goal.** -/
theorem prove_tracks {external : External μ} (h : external.Uniform d) (goal : Expression) :
    Tracks d (prove external goal) (prove external (shift d goal)) :=
  proofState_bind_tracks fun _ _ ↦ proveAt_tracks h _ goal

/-- So the search may be given to tactics as one that does not look at numbers. -/
theorem prover_uniform {external : External μ} (h : external.Uniform d) :
    (prover external).Uniform d :=
  prove_tracks h

end Search

end NaturalDeduction
