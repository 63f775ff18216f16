import NaturalDeduction.Proofs.Consistency
import NaturalDeduction.Proofs.Scripts
import NaturalDeduction.Proofs.Soundness

/-!
# Runs with the prelude

A proof state on which the prelude was installed is worked on by calls, in any order: the operations
of construction, the tactics, the search, and scripts, which may contain all of these. Whatever is
reached, the root is consistent if it is grounded, that is, if nothing is supposed in it but what
the prelude grants and all replacements are licensed (`consistent_of_reachable`).

Rules may be registered, also such that run a user's tactics, as long as these are lawful.
Abbreviations may be registered at the root. A definition that is supposed for one of them is a
supposition of the root like any other, so it is granted only if it is one for the bounded
quantifier of the prelude.

The invariant is that of construction (`Workbench.Sound`), for steps that may suppose definitions at
the root.

Main definitions: `Call`, the operations that can be called; `Host`, what they work on; and
`Host.Reachable`, what is reached by admissible calls from the installed prelude.

That licences are needed is shown beside: two replacements without one make the root contradictory
although nothing was supposed in it (`exists_contradictory_root`).
-/

namespace NaturalDeduction

/-! ### Installing the prelude -/

namespace Prelude

open Variable (fresh_draws)

/-- The statements of the prelude mention only variables that were drawn for them. -/
theorem statements_draws (n : Nat) : statements.Draws n fun l m ↦ ∀ p ∈ l, p.2.Below m := by
  refine (fresh_draws "a" n).bind fun a n₁ _ ha ↦ (fresh_draws "b" n₁).bind fun b n₂ _ hb ↦ ?_
  refine (fresh_draws "c" n₂).bind fun c n₃ _ hc ↦ (fresh_draws "t" n₃).bind fun t n₄ _ ht ↦ ?_
  refine (fresh_draws "x" n₄).bind fun x n₅ _ hx ↦ (fresh_draws "y" n₅).bind fun y n₆ _ hy ↦ ?_
  refine (fresh_draws "i" n₆).bind fun i n₇ _ hi ↦ .pure ?_
  have ha : a.id < n₇ := by omega
  have hb : b.id < n₇ := by omega
  have hc : c.id < n₇ := by omega
  have ht : t.id < n₇ := by omega
  have hx : x.id < n₇ := by omega
  have hy : y.id < n₇ := by omega
  simp [Expression.alls, Expression.all, Expression.rules, Expression.call, Expression.symbol,
    Expression.var, Expression.Below, Expression.AllBelow, ha, hb, hc, ht, hx, hy, hi.2]

/-- So do the patterns of its rules. -/
theorem rules_draws (n : Nat) : rules.Draws n fun l m ↦ ∀ r ∈ l, r.tactic.Below m := by
  refine (fresh_draws "a" n).bind fun a n₁ _ _ ↦ (fresh_draws "b" n₁).bind fun b n₂ _ _ ↦ .pure ?_
  simp [Tactic.Below, Expression.hole, Expression.Below]

/-- The prelude may be installed at the root, if its abbreviation may be registered there. -/
theorem install_acts {P : Policy} (hP : P.Registrable 0 boundedQuantifier) {s : ProofState}
    (h : s.enclosing = []) : P.Acts install s fun _ _ ↦ True := by
  refine (Building.draw_acts (statements_draws s.nextVariable)).bind fun l s₁ _ hl ↦ ?_
  obtain ⟨n, rfl, -, hl⟩ := hl
  have hsuppose : P.Acts (l.forM fun p ↦ discard (Building.suppose (some p.1) p.2))
      { s with nextVariable := n } fun _ s' ↦ s'.enclosing = [] := by
    refine .forM h fun p hp y hmoves hy ↦ ?_
    have hbelow := (hl p hp).mono (Moves.nextVariable_le hmoves)
    refine (Building.suppose_acts (some p.1) hbelow).bind fun _ z _ hz ↦ .pure ?_
    exact hz.trans hy
  refine hsuppose.bind fun _ s₂ _ hs₂ ↦ ?_
  refine (Building.draw_acts (rules_draws s₂.nextVariable)).bind fun rs s₃ _ hrs ↦ ?_
  obtain ⟨m, rfl, -, hrs⟩ := hrs
  have hregister : P.Acts (rs.forM fun r ↦ (modify (·.addRule r) : Building PUnit))
      { s₂ with nextVariable := m } fun _ s' ↦ s'.enclosing = [] := by
    refine .forM hs₂ fun r hr y hmoves hy ↦ ?_
    have hbelow := (hrs r hr).mono (Moves.nextVariable_le hmoves)
    exact .of_modify (.single (.register hbelow)) trivial hy
  refine hregister.bind fun _ s₄ _ hs₄ ↦ ?_
  have hregistrable : P.Registrable s₄.enclosing.length boundedQuantifier := hs₄ ▸ hP
  have hlawful := boundedQuantifier_lawful.lawfulFrom s₄.nextVariable
  exact .of_modify (.single (.abbreviate hregistrable hlawful)) trivial trivial

end Prelude

/-! ### Calls -/

/-- A workbench and the memory of a user's tactics. -/
structure Host (μ : Type) where
  bench : Workbench
  memory : μ

/-- What a user can do. -/
inductive Call where
  | operate (operation : Operation)
  /-- Close the deduction that was opened at a depth. -/
  | closeAt (depth : Nat) (name : Option String)
  /-- Hand the deduction out that was opened at a depth. -/
  | finishAt (depth : Nat)
  | prove (goal : Expression)
  | autobind (target : Reference) (values : List Expression)
  | autoapply (target : Reference)
  | replaceEqual (target equation : Reference) (chosen : Occurrences)
  | backwards (source : Reference) (goal : Expression)
  | hint (source : Reference)
  | addRule (rule : Rule)
  | addAbbreviation (abbreviation : Abbreviation)
  | limit (searchLimit : Nat)
  | script (text : String)

/-- Whether a call mentions only variables below the counter. An abbreviation has to be lawful, and
is registered at the root. -/
def Call.Admissible (s : ProofState) : Call → Prop
  | operate operation => operation.Below s.nextVariable
  | prove goal => goal.Below s.nextVariable
  | autobind _ values => ∀ e ∈ values, e.Below s.nextVariable
  | backwards _ goal => goal.Below s.nextVariable
  | addRule rule => rule.tactic.Below s.nextVariable
  | addAbbreviation abbreviation => abbreviation.Lawful ∧ s.enclosing = []
  | _ => True

namespace Host

variable {μ : Type}

/-- Goes on from another session. -/
def resume (h : Host μ) (session : Session μ) : Host μ :=
  { h with bench := { h.bench with state := session.state }, memory := session.memory }

/-- Makes an attempt. What it has reached is kept if it ends without a proof. -/
def attempt {α : Type} (h : Host μ) (act : Attempt μ α) : Host μ :=
  h.resume (act.run.run ⟨h.bench.state, h.memory⟩).2

/-- Makes a call, with a user's tactics at hand. -/
def perform (external : External μ) (h : Host μ) : Call → Host μ
  | .operate operation => { h with bench := h.bench.perform operation }
  | .closeAt depth name => h.attempt (.step (Building.closeAt depth name))
  | .finishAt depth => h.attempt (.step (Building.finishAt depth))
  | .prove goal => h.attempt (Search.prove external goal)
  | .autobind target values => h.attempt ((Search.prover external).autobind target values)
  | .autoapply target => h.attempt ((Search.prover external).autoapply target)
  | .replaceEqual target equation chosen =>
    h.attempt (.step (Building.replaceEqual target equation chosen))
  | .backwards source goal => h.attempt ((Search.prover external).backwards source goal)
  | .hint source => h.attempt (.step (Building.hint source))
  | .addRule rule => h.attempt (.modifyState (·.addRule rule))
  | .addAbbreviation abbreviation => h.attempt (.modifyState (·.addAbbreviation abbreviation))
  | .limit searchLimit => h.attempt (.modifyState ({ · with searchLimit := searchLimit }))
  | .script text =>
    h.resume (Script.run (Search.prover external) text ⟨h.bench.state, h.memory⟩).2

/-- A new proof state with the prelude. -/
def start (nextVariable searchLimit : Nat) (memory : μ) : Host μ :=
  ⟨(Workbench.initial nextVariable searchLimit).build Prelude.install, memory⟩

/-- What is reached from a new proof state with the prelude by admissible calls. -/
inductive Reachable (external : External μ) : Host μ → Prop
  | start (nextVariable searchLimit : Nat) (memory : μ) :
      Reachable external (start nextVariable searchLimit memory)
  | perform {h : Host μ} (hreachable : Reachable external h) (call : Call)
      (hcall : call.Admissible h.bench.state) : Reachable external (h.perform external call)

/-! ### Calls advance -/

end Host

/-- Whether a call mentions only variables below the counter, and registers only an abbreviation
that a policy admits. -/
def Call.AdmissibleFor (P : Policy) (s : ProofState) : Call → Prop
  | addAbbreviation abbreviation =>
    P.Registrable s.enclosing.length abbreviation ∧ abbreviation.LawfulFrom s.nextVariable
  | call => call.Admissible s

/-- What a call has to fulfil at the root is what the policy of the root asks of it. -/
theorem Call.Admissible.admissibleFor {s : ProofState} {call : Call} (h : call.Admissible s) :
    call.AdmissibleFor (.root true) s := by
  cases call with
  | addAbbreviation abbreviation =>
    exact ⟨⟨congrArg List.length h.2, h.1⟩, h.1.lawfulFrom s.nextVariable⟩
  | _ => exact h

namespace Host

section Advances

variable {P : Policy} {external : External μ} {h : Host μ}

/-- An attempt advances the workbench as far as it acts, whether it fails or not. -/
theorem attempt_advances {α : Type} {act : Attempt μ α} {post : α → Session μ → Prop}
    (htidy : h.bench.TidyFor P) (hact : P.Acts act ⟨h.bench.state, h.memory⟩ post) :
    h.bench.Advances P (h.attempt act).bench :=
  .of_moves (hact ⟨htidy.state, trivial⟩).1 (fun _ ↦ id) h.bench.checkpoints

/-- One call advances the workbench: the step lemma for all calls, under any permissive policy. -/
theorem perform_advances [P.Permissive] (hexternal : external.LawfulFor P)
    (htidy : h.bench.TidyFor P) {call : Call} (hcall : call.AdmissibleFor P h.bench.state) :
    h.bench.Advances P (h.perform external call).bench := by
  have hprover := Search.prover_lawfulFor hexternal
  cases call with
  | operate operation => exact htidy.perform hcall
  | closeAt depth name =>
    exact attempt_advances htidy (Attempt.step_acts (Building.closeAt_acts depth name))
  | finishAt depth =>
    exact attempt_advances htidy (Attempt.step_acts (Building.closing_acts depth fun _ ↦
      Building.pop_acts))
  | prove goal => exact attempt_advances htidy (Search.prove_acts hexternal hcall)
  | autobind target values =>
    exact attempt_advances htidy (Prover.autobind_acts hprover target hcall)
  | autoapply target => exact attempt_advances htidy (Prover.autoapply_acts hprover target)
  | replaceEqual target equation chosen =>
    exact attempt_advances htidy
      (Attempt.step_acts (Building.replaceEqual_acts target equation chosen))
  | backwards source goal =>
    exact attempt_advances htidy (Prover.backwards_acts hprover source hcall)
  | hint source => exact attempt_advances htidy (Attempt.step_acts (Building.hint_acts source))
  | addRule rule =>
    exact attempt_advances htidy (Attempt.modifyState_acts (.single (.register hcall)))
  | addAbbreviation abbreviation =>
    exact attempt_advances htidy
      (Attempt.modifyState_acts (.single (.abbreviate hcall.1 hcall.2)))
  | limit searchLimit =>
    exact attempt_advances htidy (Attempt.modifyState_acts (.single (.search searchLimit _)))
  | script text =>
    exact .of_moves (Script.run_moves hprover text ⟨_, _⟩ htidy.state) (fun _ ↦ id)
      h.bench.checkpoints

/-- The prelude is installed by moves. -/
theorem start_advances (hP : P.Registrable 0 Prelude.boundedQuantifier)
    (nextVariable searchLimit : Nat) (memory : μ) :
    (Workbench.initial nextVariable searchLimit).Advances P
      (start nextVariable searchLimit memory).bench :=
  (Workbench.tidyFor_initial P nextVariable searchLimit).build (Prelude.install_acts hP rfl)

/-- What is reached from a new proof state with the prelude by calls that a policy admits. -/
inductive ReachableFor (P : Policy) (external : External μ) : Host μ → Prop
  | start (nextVariable searchLimit : Nat) (memory : μ) :
      ReachableFor P external (start nextVariable searchLimit memory)
  | perform {h : Host μ} (hreachable : ReachableFor P external h) (call : Call)
      (hcall : call.AdmissibleFor P h.bench.state) :
      ReachableFor P external (h.perform external call)

/-- By induction on the calls: what the policy keeps tidy stays tidy. -/
theorem ReachableFor.tidyFor [P.Permissive] (hP : P.Registrable 0 Prelude.boundedQuantifier)
    (hexternal : external.LawfulFor P) (hreachable : h.ReachableFor P external) :
    h.bench.TidyFor P := by
  induction hreachable with
  | start nextVariable searchLimit memory =>
    exact (start_advances hP nextVariable searchLimit memory).tidyFor
      (Workbench.tidyFor_initial P nextVariable searchLimit)
  | perform _ call hcall ih => exact (perform_advances hexternal ih hcall).tidyFor ih

end Advances

/-! ### The invariant -/

variable {external : External μ} {h : Host μ}

/-- The step of the invariant, read off `perform_advances`. -/
theorem sound_perform (hexternal : external.Lawful) (hsound : h.bench.Sound true) {call : Call}
    (hcall : call.Admissible h.bench.state) : (h.perform external call).bench.Sound true :=
  hsound.advances (perform_advances hexternal.lawfulFor hsound.tidyFor hcall.admissibleFor)

/-- Every host that is reached is sound, by induction on the calls. -/
theorem Reachable.sound (hexternal : external.Lawful) (hreachable : h.Reachable external) :
    h.bench.Sound true := by
  induction hreachable with
  | start nextVariable searchLimit memory =>
    have hregistrable : (Policy.root true).Registrable 0 Prelude.boundedQuantifier :=
      ⟨rfl, Prelude.boundedQuantifier_lawful⟩
    exact (Workbench.sound_initial nextVariable searchLimit).advances
      (start_advances hregistrable nextVariable searchLimit memory)
  | perform _ call hcall ih => exact sound_perform hexternal ih hcall

end Host

/-! ### Grounded roots -/

namespace Building

/-- A draw answers with what the generator gives and raises the counter only. -/
theorem draw_run {α : Type} (f : Fresh α) (s : ProofState) : (draw f).run.run s =
    (.ok (f.run s.nextVariable).1, { s with nextVariable := (f.run s.nextVariable).2 }) := rfl

/-- Whether a computation keeps what holds of the proof state. -/
def Preserves {α : Type} (act : Building α) (p : ProofState → Prop) : Prop :=
  ∀ s, p s → p (act.run.run s).2

variable {α β : Type} {p : ProofState → Prop}

theorem Preserves.pure (a : α) : Preserves (Pure.pure a) p := fun _ h ↦ h

/-- A property that each part preserves is preserved by the whole. -/
theorem Preserves.bind {act : Building α} {next : α → Building β} (h : act.Preserves p)
    (hnext : ∀ a, (next a).Preserves p) : Preserves (act >>= next) p := by
  intro s hs
  have hact := h s hs
  rw [run_bind_eq]
  revert hact
  rcases act.run.run s with ⟨⟨e⟩ | ⟨a⟩, s'⟩ <;> intro hact
  · exact hact
  · exact hnext a s' hact

/-- The same along a list. -/
theorem Preserves.forM {act : α → Building PUnit} {as : List α}
    (h : ∀ a ∈ as, (act a).Preserves p) : Preserves (as.forM act) p := by
  induction as with
  | nil => exact .pure _
  | cons a rest ih =>
    obtain ⟨ha, hrest⟩ := List.forall_mem_cons.1 h
    exact ha.bind fun _ ↦ ih hrest

end Building

/-- Whether all entries of the root are suppositions that the prelude grants. -/
def ProofState.OnlyGrants (s : ProofState) : Prop :=
  s.enclosing = [] ∧ ∀ e ∈ s.current.deduction.entries,
    e.isCondition = true ∧ Prelude.Grants e.statement

/-- A root in which only grants are supposed is grounded: every supposition in it is one of the
prelude. -/
theorem ProofState.OnlyGrants.grounded {s : ProofState} (h : s.OnlyGrants) :
    s.root.deduction.Grounded := by
  rw [ProofState.root, h.1]
  exact ⟨fun e he _ ↦ (h.2 e he).2, .of_suppositions fun e he ↦ (h.2 e he).1⟩

/-- Installing the prelude supposes its statements, each as a grant, and nothing else. -/
theorem Prelude.install_preserves : Building.Preserves install ProofState.OnlyGrants := by
  intro s hs
  have hsuppose : ∀ l : List (String × Expression), (∀ p ∈ l, Grants p.2) →
      Building.Preserves (l.forM fun p ↦ discard (Building.suppose (some p.1) p.2))
        ProofState.OnlyGrants := by
    refine fun l hl ↦ .forM fun p hp ↦ .bind (fun s hs ↦ ?_) fun _ ↦ .pure _
    show ProofState.OnlyGrants ((Building.install p.1 p.2 .supposition).run.run s).2
    obtain ⟨-, hinstall⟩ | hinstall := Building.install_run p.1 p.2 .supposition s
    · rw [hinstall]
      exact ⟨hs.1, List.forall_mem_cons.2 ⟨⟨rfl, hl p hp⟩, hs.2⟩⟩
    · rw [hinstall]
      exact hs
  have hregister : ∀ rs : List Rule, Building.Preserves
      (rs.forM fun r ↦ (modify (·.addRule r) : Building PUnit)) ProofState.OnlyGrants :=
    fun rs ↦ .forM fun r _ s hs ↦ hs
  have hgrants : ∀ p ∈ (statements.run s.nextVariable).1, Grants p.2 :=
    fun p hp ↦ .inl ⟨_, p, hp, Expression.alphaEq_iff.2 rfl⟩
  have hdraw : (Building.draw rules).Preserves ProofState.OnlyGrants := fun s hs ↦ hs
  have habbreviate : Building.Preserves (modify (·.addAbbreviation boundedQuantifier))
      ProofState.OnlyGrants := fun s hs ↦ hs
  -- the statements are drawn first, and the rest of the computation is about what was drawn
  have hinstall : install = (do
      (← Building.draw statements).forM fun p ↦ discard (Building.suppose (some p.1) p.2)
      (← Building.draw rules).forM fun r ↦ modify (·.addRule r)
      modify (·.addAbbreviation boundedQuantifier)) := rfl
  rw [hinstall, run_bind_ok (Building.draw_run statements s)]
  generalize statements.run s.nextVariable = drawn at hgrants
  exact ((hsuppose drawn.1 hgrants).bind fun _ ↦ hdraw.bind fun rs ↦
    (hregister rs).bind fun _ ↦ habbreviate) _ hs

/-- The root is grounded when a run starts. -/
theorem Host.grounded_start {μ : Type} (nextVariable searchLimit : Nat) (memory : μ) :
    (Host.start nextVariable searchLimit memory).bench.state.root.deduction.Grounded := by
  have hinitial : (Workbench.initial nextVariable searchLimit).state.OnlyGrants :=
    ⟨rfl, fun _ he ↦ absurd he List.not_mem_nil⟩
  have hinstalled := (Prelude.install_preserves _ hinitial).grounded
  unfold Host.start Workbench.build
  dsimp only
  exact hinstalled

/-- An inference at the root keeps the root grounded if it is licensed. -/
theorem Deduction.Grounded.conclude {s : ProofState} (h : s.root.deduction.Grounded)
    (hs : s.enclosing = []) {e : Expression} {j : Justification}
    (hinfers : Infers (visible [s.root.deduction.entries]) e j)
    (hlicensed : j.Licensed (visible [s.root.deduction.entries]) e) :
    ((Building.conclude e j).run.run s).2.root.deduction.Grounded := by
  have hroot : s.root = s.current := by rw [ProofState.root, hs]; rfl
  rw [hroot] at h hinfers hlicensed
  have hrun : ((Building.conclude e j).run.run s).2 =
      ((Building.install (ProofState.generatedName s.freeNumber) e j).run.run
        { s with nextName := s.freeNumber + 1 }).2 := rfl
  rw [hrun]
  obtain ⟨-, hinstall⟩ | hinstall :=
    Building.install_run (ProofState.generatedName s.freeNumber) e j
    { s with nextName := s.freeNumber + 1 }
  · rw [hinstall, ProofState.root, ProofState.add, hs]
    refine ⟨fun f hf hcondition ↦ ?_, .cons h.replacements hlicensed fun d hd ↦ ?_⟩
    · rcases List.mem_cons.1 hf with rfl | hf
      · exact nomatch hinfers.isSupposition_eq_false.symm.trans hcondition
      · exact h.suppositions f hf hcondition
    · dsimp only at hd
      subst hd
      cases hinfers
  · rw [hinstall, ProofState.root, hs]
    exact h

/-- A substitution is a draw followed by a conclusion with the record of what was replaced. -/
theorem Building.substitute_run (target : Expression) (replacements : List Replacement)
    (chosen : Occurrences) (s : ProofState) :
    ((Building.substitute target replacements chosen).run.run s).2 =
      ((Building.conclude ((Inference.replacement target replacements chosen).run s.nextVariable).1
        (.replacement target replacements chosen)).run.run
          { s with nextVariable :=
            ((Inference.replacement target replacements chosen).run s.nextVariable).2 }).2 :=
  rfl

namespace Host

variable {μ : Type} {external : External μ} {h : Host μ}

/-- A statement that evaluates keeps the root grounded, whatever its value: it is no supposition. -/
theorem grounded_verify (hroot : h.bench.state.enclosing = [])
    (hgrounded : h.bench.state.root.deduction.Grounded) {e : Expression} {holds : Bool}
    (heval : e.evaluate = .ok holds) :
    (h.perform external (.operate (.verify e))).bench.state.root.deduction.Grounded := by
  show ((Building.verify e).run.run h.bench.state).2.root.deduction.Grounded
  have hrun : (Building.verify e).run.run h.bench.state = (Building.conclude
      (Inference.verdict e holds) (.verification e holds)).run.run h.bench.state := by
    unfold Building.verify Inference.verify
    rw [heval]
    rfl
  rw [hrun]
  exact hgrounded.conclude hroot (.verification heval) trivial

/-- A replacement at the root keeps the root grounded if the keys are known to equal the values. -/
theorem grounded_substitute (hroot : h.bench.state.enclosing = [])
    (hgrounded : h.bench.state.root.deduction.Grounded) {target : Expression}
    {replacements : List Replacement} (htarget : target.Below h.bench.state.nextVariable)
    (hbelow : ∀ r ∈ replacements, r.Below h.bench.state.nextVariable) (chosen : Occurrences)
    (hequal : ∀ r ∈ replacements,
      Expression.KnownEqual (visible [h.bench.state.root.deduction.entries]) r.key r.value) :
    (h.perform external
      (.operate (.substitute target replacements chosen))).bench.state.root.deduction.Grounded := by
  obtain ⟨-, -, result, heq, hform⟩ := Inference.replacement_draws htarget hbelow chosen
  have hrun := Building.substitute_run target replacements chosen h.bench.state
  rw [heq] at hrun
  show ((Building.substitute target replacements chosen).run.run
    h.bench.state).2.root.deduction.Grounded
  rw [hrun]
  -- the counter has moved, the root has not
  have hgrounded' : ({ h.bench.state with nextVariable :=
      ((Inference.replacement target replacements chosen).run h.bench.state.nextVariable).2 } :
        ProofState).root.deduction.Grounded := hgrounded
  exact hgrounded'.conclude hroot (.replacement hform) (.inr hequal)

end Host

/-! ### The root -/

/-- The root is the outermost frame of the stack. -/
theorem ProofState.exists_frames_eq (s : ProofState) : ∃ inner, s.frames = inner ++ [s.root] := by
  rw [root, frames]
  rcases List.eq_nil_or_concat s.enclosing with h | ⟨init, last, h⟩
  · exact ⟨[], by rw [h]; rfl⟩
  · refine ⟨s.current :: init, ?_⟩
    rw [h, List.concat_eq_append, List.getLastD_concat]
    rfl

/-- The entries of the root are established by what is older in the root. -/
theorem Justified.root {s : ProofState} (h : Justified true s.frames) :
    Established true [] s.root.deduction.entries := by
  obtain ⟨inner, hframes⟩ := s.exists_frames_eq
  rw [hframes] at h
  exact h.of_append.1

/-- An evaluation that gives a value at all gives it without an error. -/
theorem Expression.evaluate_eq_ok {e : Expression} {holds : Bool}
    (h : e.evaluate.toOption = some holds) : e.evaluate = .ok holds := by
  cases heval : e.evaluate with
  | error error => rw [heval] at h; cases h
  | ok b => rw [heval] at h; exact congrArg Except.ok (Option.some.inj h)

/-- **The prelude is consistent**, as long as nothing else is supposed at the root and replacements
are licensed. Whatever calls are made, in whatever order, every statement of the root that the
evaluator decides is true, and the root does not hold a statement together with its negation. -/
theorem consistent_of_reachable {μ : Type} {external : External μ} (hexternal : external.Lawful)
    {h : Host μ} (hreachable : h.Reachable external)
    (hgrounded : h.bench.state.root.deduction.Grounded) :
    h.bench.state.root.deduction.Consistent :=
  hgrounded.consistent (hreachable.sound hexternal).justified.root

/-- An equation is proved before it licenses a replacement. -/
theorem consistent_licensed_sum :
    let sum := Expression.call "+" [.int 1, .int 1]
    let verified := (Host.start 0 16 ()).perform .none (.operate (.verify (.equals sum (.int 2))))
    let h := verified.perform .none (.operate (.substitute sum [⟨sum, .int 2⟩] .all))
    h.bench.state.root.deduction.entries.length = 8 ∧ h.bench.state.root.deduction.Grounded ∧
      h.bench.state.root.deduction.Consistent := by
  intro sum verified h
  have hsum : ∀ n, sum.Below n := fun n ↦ ⟨trivial, trivial, trivial, trivial⟩
  have hpairs : ∀ n, ∀ r ∈ [Replacement.mk sum (.int 2)], r.Below n := by
    intro n r hr
    rw [List.mem_singleton.1 hr]
    exact ⟨hsum n, trivial⟩
  have hverified : verified.Reachable .none :=
    (Host.Reachable.start 0 16 ()).perform (.operate (.verify _)) ⟨hsum _, trivial⟩
  have hreachable : h.Reachable .none :=
    hverified.perform (.operate (.substitute _ _ .all)) ⟨hsum _, hpairs _⟩
  have heval : (Expression.equals sum (.int 2)).evaluate = .ok true :=
    Expression.evaluate_eq_ok (by decide +kernel)
  have hgrounded : verified.bench.state.root.deduction.Grounded :=
    Host.grounded_verify (List.isEmpty_iff.1 (by decide +kernel))
      (Host.grounded_start 0 16 ()) heval
  have hgrounded' : h.bench.state.root.deduction.Grounded :=
    Host.grounded_substitute (List.isEmpty_iff.1 (by decide +kernel)) hgrounded (hsum _) (hpairs _)
      .all (by decide +kernel)
  exact ⟨by decide +kernel, hgrounded',
    consistent_of_reachable External.none_lawful hreachable hgrounded'⟩

/-- Replacements have to be licensed. In this run all that is supposed at the root is granted, but
the first line replaces `1` by `5`, which are not known to be equal, and gets `5 + 5` from `1 + 1`.
The third line moves that result from the record for `1 + 1` to the one for `2`, and the fourth line
says that nothing is replaced in `2`. -/
theorem exists_contradictory_root :
    ∃ h : Host Unit, h.Reachable .none ∧
      (∀ e ∈ h.bench.state.root.deduction.entries, e.isCondition = true →
        Prelude.Grants e.statement) ∧
      ∃ e ∈ h.bench.state.root.deduction.entries, ∃ f ∈ h.bench.state.root.deduction.entries,
        e.statement.evaluate = .ok false ∧ f.statement.alphaEq e.statement.negation = true := by
  let h := (Host.start 0 16 ()).perform .none (.script "(substitute (+ 1 1) ((1 5)))
    (verify (= (+ 1 1) 2))
    (rewrite -2 -1)
    (substitute 2 ((1 5)))
    (rewrite -2 -1)
    (verify (= 2 (+ 5 5)))")
  have hgranted : ∀ e ∈ h.bench.state.root.deduction.entries, e.isCondition = true →
      ∃ p ∈ (Prelude.statements.run 0).1, e.statement.alphaEq p.2 = true := by decide +kernel
  have hfound : ∃ e ∈ h.bench.state.root.deduction.entries,
      ∃ f ∈ h.bench.state.root.deduction.entries, e.statement.evaluate.toOption = some false ∧
        f.statement.alphaEq e.statement.negation = true := by decide +kernel
  obtain ⟨e, he, f, hf, heval, hnot⟩ := hfound
  refine ⟨h, (Host.Reachable.start 0 16 ()).perform _ trivial, fun e he hcondition ↦ ?_,
    e, he, f, hf, Expression.evaluate_eq_ok heval, hnot⟩
  exact .inl ⟨0, hgranted e he hcondition⟩

end NaturalDeduction
