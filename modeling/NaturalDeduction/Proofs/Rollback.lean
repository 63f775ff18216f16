import NaturalDeduction.Proofs.Commands
import NaturalDeduction.Proofs.Runs

/-!
# Rolling back

Whatever calls are made, in whatever order, going back to a checkpoint brings back what was there
(`restores_of_rollback`), as long as the deduction that was current there is neither closed nor cut
back behind the checkpoint meanwhile (`ProofState.Above`). The exception are definitions that were
supposed further out, which stay (`exists_definition_behind_rollback`).

Every call either only adds, or leaves deductions, or goes back to a checkpoint. A script is of the
first kind, because it closes nothing that it did not open (`Script.run_keeps`).

Main definitions and statements:

* `ProofState.Above`: the deduction of the checkpoint is open and has not been cut back behind it.
* `Workbench.ReachesAbove`, `Host.ReachesAbove`: operations and calls, any of which leaves the
  state there.
* `ProofState.Grows.of_above`: so the state has grown, also if it went back in between.
* `restores_of_rollback`: and going back restores it.
-/

namespace NaturalDeduction

namespace ProofState

variable {defining : Bool} {s t u : ProofState}

/-! ### Leaving one deduction -/

/-- Whether at most one deduction was left, and added to otherwise. -/
def Leaves (s t : ProofState) : Prop := s.Closes t ∧ s.depth ≤ t.depth + 1

theorem Leaves.refl (s : ProofState) : s.Leaves s := ⟨.refl s, Nat.le_succ _⟩

/-- One deduction is left, and the frame around it may have grown. -/
theorem Leaves.of_outside {f g : Frame} {rest : List Frame} (h : s.enclosing = f :: rest)
    (hf : f.Grows g) : s.Leaves (s.outside g rest) := by
  refine ⟨⟨rfl, 1, f, ?_, hf⟩, ?_⟩
  · rw [frames, h]
    rfl
  · rw [depth, h]
    exact Nat.le_refl _

end ProofState

namespace Building

variable {s : ProofState} {α : Type}

theorem pop_leaves (s : ProofState) : s.Leaves (pop.run.run s).2 := by
  rw [pop_run]
  split
  · exact .refl s
  · rename_i f rest h
    exact .of_outside h (.refl f)

/-- Closing leaves at most one deduction. -/
theorem close_leaves (name : Option String) (s : ProofState) :
    s.Leaves ((close name).run.run s).2 := by
  rw [close_run]
  split
  · exact .refl s
  · exact .refl s
  · rename_i f rest e h _
    obtain ⟨-, hinstall⟩ | hinstall := install_run (name.getD s.current.deduction.name) e
      (.deduction s.current.deduction) (s.outside f rest)
    · rw [hinstall]
      exact .of_outside h (.add f _)
    · rw [hinstall]
      exact .of_outside h (.refl f)

/-- A guarded closing leaves the deduction that was opened at the depth, and nothing around it. -/
theorem closing_closes {depth : Nat} {act : Building α}
    (h : ∀ t : ProofState, t.Leaves (act.run.run t).2)
    (s : ProofState) : s.Closes ((closing depth act).run.run s).2 ∧
      min s.depth depth ≤ ((closing depth act).run.run s).2.depth + 1 := by
  obtain ⟨htruncate, hdepth⟩ := s.truncate_closes depth
  obtain ⟨hact, hleft⟩ := h (s.truncate depth)
  have hrun : (closing depth act).run.run s =
      (tryCatch act fun refusal ↦ do abandon depth; throw refusal).run.run (s.truncate depth) := rfl
  rw [hrun, run_tryCatch_eq]
  revert hact hleft
  rcases act.run.run (s.truncate depth) with ⟨⟨e⟩ | ⟨a⟩, t⟩ <;> intro hact hleft
  · obtain ⟨habandon, hdepth'⟩ := t.truncate_closes (depth - 1)
    have hend : ((do abandon depth; throw e : Building α).run.run t).2 = t.truncate (depth - 1) :=
      rfl
    dsimp only at hact hleft ⊢
    rw [hend]
    exact ⟨(htruncate.trans hact).trans habandon, by omega⟩
  · dsimp only at hact hleft ⊢
    exact ⟨htruncate.trans hact, by omega⟩

end Building

/-- Concluding a goal leaves what is further in and the deduction of the goal, but no more. -/
theorem Goal.conclude_closes (g : Goal) (s : ProofState) : s.Closes (g.conclude.run.run s).2 ∧
    min s.depth g.depth ≤ (g.conclude.run.run s).2.depth + 1 := by
  unfold conclude
  split
  · exact ⟨.refl s, by show min s.depth g.depth ≤ s.depth + 1; omega⟩
  · refine Building.closing_closes (fun t ↦ ?_) s
    have htheorem := Building.currentTheorem_run t
    split at htheorem
    · rw [run_bind_ok htheorem]
      split
      · exact .refl t
      · exact Building.close_leaves g.name t
    · rw [run_bind_error htheorem]
      exact .refl t

/-! ### Calls

There are three kinds of calls: those that keep what steps keep, those that leave deductions, and
those that go back to a checkpoint. That a state has grown is kept by the first, and by the other
two as long as they end above the checkpoint in question (`ProofState.Grows.of_above`).
-/

namespace ProofState

variable {defining : Bool} {s t : ProofState}

/-- Whether the deduction of a checkpoint is still open, and holds at least as much as it did. A
deduction that is further in may be current. -/
def Above (s : ProofState) (c : Checkpoint) : Prop :=
  c.depth < s.depth ∨
    c.depth = s.depth ∧ c.entries ≤ s.current.deduction.entries.length ∧
      c.parameters ≤ s.current.deduction.parameters.length ∧
      c.rules ≤ s.current.rules.length ∧ c.abbreviations ≤ s.current.abbreviations.length

instance (s : ProofState) (c : Checkpoint) : Decidable (s.Above c) :=
  inferInstanceAs (Decidable (_ ∨ _))

/-- Above a checkpoint the deduction that was current there is open. -/
theorem Above.depth_le {c : Checkpoint} (h : s.Above c) : c.depth ≤ s.depth :=
  h.elim Nat.le_of_lt fun h ↦ Nat.le_of_eq h.1

/-- To cut the current frame back matters only if no deduction was opened inside. -/
theorem Within.of_cut {B O : Frame → Frame → Prop} {f : Frame} (h : s.Within B O t)
    (hf : t.depth = s.depth → B s.current t.current → B s.current f) :
    s.Within B O { t with current := f } := by
  obtain ⟨inner, base, outer, hframes, hbase, houter⟩ := h
  cases inner with
  | cons c rest =>
    obtain ⟨-, henclosing⟩ := List.cons.inj hframes
    exact ⟨f :: rest, base, outer, congrArg (f :: ·) henclosing, hbase, houter⟩
  | nil =>
    obtain ⟨rfl, rfl⟩ := List.cons.inj hframes
    have hdepth : t.depth = s.depth := congrArg (· + 1) houter.length_eq.symm
    exact ⟨[], f, t.enclosing, rfl, hf hdepth hbase, houter⟩

/-- To cut the current frame back keeps what has grown, unless it is that which is cut. -/
theorem Grows.of_cut {f : Frame} (h : s.Grows defining t) (hf : f.Grows t.current)
    (habove : ({ t with current := f } : ProofState).Above s.checkpoint) :
    s.Grows defining { t with current := f } := by
  refine h.within.of_cut fun hdepth hbase ↦ ?_
  obtain hdeeper | ⟨-, hentries, hparameters, hrules, habbreviations⟩ := habove
  · exact absurd hdeeper (by show ¬ s.depth < t.depth; omega)
  · refine ⟨hf.name.symm.trans hbase.name, ?_, ?_, ?_, ?_⟩
    · exact List.suffix_of_suffix_length_le hbase.entries hf.entries hentries
    · exact List.prefix_of_prefix_length_le hbase.parameters hf.parameters hparameters
    · exact List.prefix_of_prefix_length_le hbase.rules hf.rules hrules
    · exact List.prefix_of_prefix_length_le hbase.abbreviations hf.abbreviations habbreviations

/-- What has grown is still there behind a rollback that does not reach further back. -/
theorem Grows.rollback {c : Checkpoint} (h : s.Grows defining t)
    (habove : (t.rollback c).Above s.checkpoint) : s.Grows defining (t.rollback c) := by
  have hcloses := (t.truncate_closes c.depth).1
  have hdepth : s.depth ≤ (t.truncate c.depth).depth := habove.depth_le
  refine (h.closes hcloses hdepth).of_cut ?_ habove
  exact ⟨rfl, List.drop_suffix _ _, List.take_prefix _ _, List.take_prefix _ _,
    List.take_prefix _ _⟩

/-- What has grown is still there behind whatever adds, leaves deductions, or goes back to a
checkpoint, unless that reaches further back. -/
theorem Grows.of_above {u : ProofState} (h : s.Grows defining t)
    (hcases : t.Grows defining u ∨ t.Closes u ∨ ∃ c, u = t.rollback c)
    (habove : u.Above s.checkpoint) : s.Grows defining u := by
  obtain hgrows | hcloses | ⟨c, rfl⟩ := hcases
  · exact h.trans hgrows
  · exact h.closes hcloses habove.depth_le
  · exact h.rollback habove

end ProofState

variable {μ : Type} {external : External μ}

namespace Workbench

variable {R : ProofState → ProofState → Prop} [CallRelation R] {w : Workbench} {α : Type}

/-- Work on a goal keeps what its computation keeps. -/
theorem work_keeps (place : Nat) {act : GoalBuilding α} (h : ∀ x, Keeps R act x) :
    R w.state (w.work place act).state := by
  unfold work
  split
  · exact StepRelation.refl _
  · rename_i g _
    exact h (g, w.state)

/-- An operation keeps what steps keep, leaves deductions, or goes back to a checkpoint. -/
theorem perform_cases (w : Workbench) (operation : Operation) :
    R w.state (w.perform operation).state ∨ w.state.Closes (w.perform operation).state ∨
      ∃ c, (w.perform operation).state = w.state.rollback c := by
  have hstep : ∀ {α : Type} {act : Building α}, Keeps R act w.state →
      R w.state (act.run.run w.state).2 := id
  cases operation with
  | draw hint => exact .inl (hstep (Building.draw_keeps _))
  | suppose name statement => exact .inl (hstep (Building.suppose_keeps name statement))
  | newParameter hint => exact .inl (hstep (Building.newParameter_keeps hint))
  | bind target value => exact .inl (hstep (Building.bind_keeps target value))
  | apply rule condition => exact .inl (hstep (Building.apply_keeps rule condition))
  | substitute target replacements chosen =>
    exact .inl (hstep (Building.substitute_keeps target replacements chosen))
  | verify statement => exact .inl (hstep (Building.verify_keeps statement))
  | push name => exact .inl (hstep (Building.push_keeps name w.state))
  | pop => exact .inr (.inl (Building.pop_leaves w.state).1)
  | truncate depth => exact .inr (.inl (w.state.truncate_closes depth).1)
  | close name => exact .inr (.inl (Building.close_leaves name w.state).1)
  | checkpoint => exact .inl (StepRelation.refl _)
  | rollback place =>
    unfold perform
    dsimp only
    split
    · exact .inl (StepRelation.refl _)
    · rename_i c _
      exact .inr (.inr ⟨c, rfl⟩)
  | startGoal name statement =>
    have hstart : R w.state ((Goal.start name statement).run.run w.state).2 :=
      Goal.start_keeps name statement w.state
    unfold perform
    dsimp only
    split <;> rename_i hrun
    · rw [hrun] at hstart
      exact .inl hstart
    · rw [hrun] at hstart
      exact .inl hstart
  | introduce place name => exact .inl (work_keeps place (Goal.introduce_keeps name))
  | intros place => exact .inl (work_keeps place Goal.intros_keeps)
  | concludeGoal place =>
    unfold perform
    dsimp only
    split
    · exact .inl (StepRelation.refl _)
    · rename_i g _
      exact .inr (.inl (g.conclude_closes w.state).1)

/-- What is reached by operations, any of which leaves the state above a checkpoint. -/
inductive ReachesAbove (c : Checkpoint) (w : Workbench) : Workbench → Prop
  | start : ReachesAbove c w w
  | perform {w' : Workbench} (hreaches : ReachesAbove c w w') (operation : Operation)
      (habove : (w'.perform operation).state.Above c) : ReachesAbove c w (w'.perform operation)

/-- Operations suppose no definitions. -/
theorem ReachesAbove.grows {w' : Workbench} (hreaches : w.ReachesAbove w.state.checkpoint w') :
    w.state.Grows false w'.state := by
  induction hreaches with
  | start => exact .refl _
  | @perform w' _ operation habove ih =>
    exact ih.of_above (perform_cases (R := fun s t ↦ s.Grows false t) w' operation) habove

/-- The deductions around the current one stay exactly as they are. -/
theorem ReachesAbove.frames_eq {w' : Workbench}
    (hreaches : w.ReachesAbove w.state.checkpoint w') :
    ∃ inner base, w'.state.frames = inner ++ base :: w.state.enclosing ∧
      w.state.current.Grows base := by
  obtain ⟨inner, base, outer, hframes, hbase, houter⟩ := hreaches.grows
  have heq : outer = w.state.enclosing := by
    have hsame : List.Forall₂ Eq w.state.enclosing outer := houter.imp fun _ _ h ↦ Eq.symm h
    rw [List.forall₂_eq_eq_eq] at hsame
    exact hsame.symm
  exact ⟨inner, base, heq ▸ hframes, hbase⟩

end Workbench

namespace Host

variable {h h' : Host μ}

/-- A call keeps what steps and searches keep, leaves deductions, or goes back to a checkpoint. -/
theorem perform_cases {R : ProofState → ProofState → Prop} [RunRelation R] [CallRelation R]
    (hexternal : external.Respects R) (h : Host μ) (call : Call) :
    R h.bench.state (h.perform external call).bench.state ∨
      h.bench.state.Closes (h.perform external call).bench.state ∨
        ∃ c, (h.perform external call).bench.state = h.bench.state.rollback c := by
  have hprover : (Search.prover external).Respects R := Search.prover_respects hexternal
  have hattempt : ∀ {α : Type} {act : Attempt μ α}, Keeps R act ⟨h.bench.state, h.memory⟩ →
      R h.bench.state (h.attempt act).bench.state := id
  cases call with
  | operate operation => exact h.bench.perform_cases operation
  | closeAt depth name =>
    exact .inr (.inl (Building.closing_closes (Building.close_leaves name) _).1)
  | finishAt depth => exact .inr (.inl (Building.closing_closes Building.pop_leaves _).1)
  | prove goal => exact .inl (hattempt (hprover goal _))
  | autobind target values => exact .inl (hattempt (Prover.autobind_keeps hprover target values))
  | autoapply target => exact .inl (hattempt (Prover.autoapply_keeps hprover target))
  | replaceEqual target equation chosen =>
    exact .inl (hattempt (Attempt.step_keeps (Building.replaceEqual_keeps target equation chosen)))
  | backwards source goal => exact .inl (hattempt (Prover.backwards_keeps hprover source goal))
  | hint source => exact .inl (hattempt (Attempt.step_keeps (Building.hint_keeps source)))
  | addRule rule =>
    have hgrows : h.bench.state.current.Grows (h.bench.state.addRule rule).current :=
      { Frame.Grows.refl _ with rules := List.prefix_append _ _ }
    exact .inl (StepRelation.of_current (.of_entries_eq hgrows rfl) (Nat.le_refl _) _)
  | addAbbreviation abbreviation =>
    have hgrows :
        h.bench.state.current.Grows (h.bench.state.addAbbreviation abbreviation).current :=
      { Frame.Grows.refl _ with abbreviations := List.prefix_append _ _ }
    exact .inl (StepRelation.of_current (.of_entries_eq hgrows rfl) (Nat.le_refl _) _)
  | limit searchLimit => exact .inl (CallRelation.limit _ searchLimit)
  | script text => exact .inl (Script.run_keeps hprover text ⟨h.bench.state, h.memory⟩)

/-- What is reached by calls, any of which leaves the state above a checkpoint. -/
inductive ReachesAbove (external : External μ) (c : Checkpoint) (h : Host μ) : Host μ → Prop
  | start : ReachesAbove external c h h
  | perform {h' : Host μ} (hreaches : ReachesAbove external c h h') (call : Call)
      (habove : (h'.perform external call).bench.state.Above c) :
      ReachesAbove external c h (h'.perform external call)

/-- The same for hosts, whose calls include searches and scripts. -/
theorem ReachesAbove.grows (hexternal : external.Additive)
    (hreaches : h.ReachesAbove external h.bench.state.checkpoint h') :
    h.bench.state.Grows true h'.bench.state := by
  induction hreaches with
  | start => exact .refl _
  | @perform h' _ call habove ih =>
    exact ih.of_above (perform_cases (R := fun s t ↦ s.Grows true t) hexternal h' call) habove

end Host

/-! ### The theorem -/

/-- **Going back restores** everything, but definitions that were supposed further out stay. This is
so for a rollback to a checkpoint, whatever calls were made meanwhile, as long as the deduction that
was current is neither closed nor cut back behind the checkpoint; for an attempt whose abort is
caught; and for a block of a script that is tried and aborted. If no definition was supposed, all
frames are as they were. -/
theorem restores_of_rollback (hexternal : external.Additive) :
    (∀ h h' : Host μ, h.ReachesAbove external h.bench.state.checkpoint h' →
      h.bench.state.Restores (h'.bench.state.rollback h.bench.state.checkpoint)) ∧
    (∀ {α : Type} (name : Option String) (act : Attempt μ α) (x y : Session μ) (abort : Abort),
      Adds true act x → (Attempt.catchAbort name act).run.run x = (.ok (.error abort), y) →
        x.state.Restores y.state) ∧
    (∀ (position place : Position) (body : List SExpr) (x y : Script.Run μ) (abort : Abort),
      (do Script.Running.count; Script.Running.block (Search.prover external) body :
        Script.Running μ Unit).run.run x = (.error (.aborted abort), y) →
          x.session.state.Restores ((Script.Running.command (Search.prover external)
            (.list position (.word "try" place :: body))).run.run x).2.session.state) ∧
    ∀ s t : ProofState, s.Restores t → t.history.length = s.history.length →
      t.frames = s.frames := by
  refine ⟨fun h h' hreaches ↦ (hreaches.grows hexternal).restores,
    fun name act x y abort hact hrun ↦ Attempt.restores_of_catchAbort hact hrun,
    fun position place body x y abort hblock ↦ ?_,
    fun s t hrestores hlength ↦ hrestores.frames_eq hlength⟩
  have hprover : (Search.prover external).Respects fun s t ↦ s.Grows true t :=
    Search.prover_respects hexternal
  have hproceeds : Leads (Script.Run.Proceeds fun s t ↦ s.Grows true t)
      (do Script.Running.count; Script.Running.block (Search.prover external) body :
        Script.Running μ Unit) x :=
    (Script.Running.proceeds_of_quiet Script.Running.count_quiet).bind fun _ z ↦
      Script.Running.block_proceeds fun e _ ↦ Script.Running.commandKeeps hprover e
  rw [Script.Running.command_try_run _ position place body x hblock]
  have hgrows : x.session.state.Grows true y.session.state := by
    rw [Leads, hblock] at hproceeds
    exact hproceeds.state
  exact hgrows.restores

/-- A deduction is opened, and a script and a search run inside it; all of that is undone. -/
theorem restores_behind_draft :
    let h := (Host.start 0 16 ()).perform .none (.script "(suppose H (P 1))")
    let h' := (((h.perform .none (.operate (.push (some "draft")))).perform .none
      (.operate (.newParameter "x"))).perform .none
        (.script "(suppose (P 2)) (try (bind eq_refl 3) (abort))")).perform .none
          (.prove (.equals (.int 1) (.int 1)))
    h'.bench.state.history.length = h.bench.state.history.length + 2 ∧
      (h'.bench.state.rollback h.bench.state.checkpoint).frames = h.bench.state.frames := by
  intro h h'
  have hreaches : h.ReachesAbove .none h.bench.state.checkpoint h' :=
    (((Host.ReachesAbove.start.perform _ (by decide +kernel)).perform _ (by decide +kernel)).perform
      _ (by decide +kernel)).perform _ (by decide +kernel)
  have hadditive : (External.none : External Unit).Additive := External.none_additive
  obtain ⟨hrollback, -, -, hframes⟩ := restores_of_rollback hadditive
  exact ⟨by decide +kernel, hframes _ _ (hrollback h h' hreaches) (by decide +kernel)⟩

/-- Definitions stay. Here the bounded quantifier of the prelude is written out inside a deduction,
and its definition is supposed at the root. -/
theorem exists_definition_behind_rollback :
    ∃ h h' : Host Unit, h.Reachable .none ∧
      h.ReachesAbove .none h.bench.state.checkpoint h' ∧
        (h'.bench.state.rollback h.bench.state.checkpoint).frames ≠ h.bench.state.frames := by
  let pushed := (Host.start 0 16 ()).perform .none (.operate (.push (some "A")))
  let h := pushed.perform .none (.script "(suppose H (forall-in N (lambda (x) (in x N))))")
  let h' := h.perform .none (.autobind (.name "H") [.int 5])
  have hpushed : pushed.Reachable .none := (Host.Reachable.start 0 16 ()).perform _ trivial
  have hreaches : h.ReachesAbove .none h.bench.state.checkpoint h' :=
    .perform .start (.autobind _ _) (by decide +kernel)
  refine ⟨h, h', hpushed.perform _ trivial, hreaches, fun hframes ↦ ?_⟩
  have hlength : (h'.bench.state.rollback h.bench.state.checkpoint).history.length =
      h.bench.state.history.length + 1 := by decide +kernel
  rw [ProofState.history, hframes, ← ProofState.history] at hlength
  exact Nat.succ_ne_self _ hlength.symm

end NaturalDeduction
