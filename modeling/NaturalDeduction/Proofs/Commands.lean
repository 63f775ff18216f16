import NaturalDeduction.Proofs.Restoring
import NaturalDeduction.Proofs.Scripts

/-!
# What scripts keep

The commands of a script keep what steps and searches keep (`RunRelation`), because what a command
opens it leaves again: a goal or deduction is closed at the depth at which it was opened, or
discarded (`Building.closing_run`). What is kept while such a deduction is current says nothing
about its end, so it is opening, working inside and closing together that keep the relation.

Commands contain commands, so this is an induction over the s-expression. A goal goes through all
that is done in its deduction, and is still the goal that it was (`Goal.Continues`).

Main statements: `Script.Running.commandKeeps` and `Script.run_keeps`.

The relation is a parameter throughout. Depth, the numbering of names, soundness and the growth of
the current deduction are all read off the one theorem, each by an instance of `RunRelation`, so
nothing below mentions what is kept.

A part of a command that neither reports nor opens anything is *quiet* (`Run.Quiet`); a command
*proceeds* (`Run.Proceeds`), so it may report, but only outside all goals and deductions. What a
block answers is followed apart from what it keeps (`Yields`), since only goals need it.
-/

namespace NaturalDeduction

variable {R : ProofState → ProofState → Prop}

/-! ### Closing what was opened

A deduction that is opened at some depth is closed at that depth, whatever was opened further in and
left open. So what closing comes to is said of a state that was truncated to the depth.
-/

namespace ProofState

variable {s t : ProofState}

theorem depth_pos (s : ProofState) : 0 < s.depth := Nat.succ_pos _

/-- To truncate to the depth of a state changes nothing. -/
theorem truncate_depth (s : ProofState) : s.truncate s.depth = s := by
  have hframes : s.frames = [] ++ s.current :: s.enclosing := rfl
  exact truncate_eq hframes

/-- What is left behind two truncations, the second of which leaves one deduction. -/
theorem exists_truncate_succ {depth : Nat} (hpos : 0 < depth) (h : depth < s.depth) :
    ∃ g f outer, s.truncate (depth + 1) = s.outside g (f :: outer) ∧
      s.truncate depth = s.outside f outer ∧ (s.outside f outer).depth = depth := by
  have hlength : s.frames.length = s.depth := rfl
  cases hdrop : s.frames.drop (s.depth - (depth + 1)) with
  | nil =>
    rw [List.drop_eq_nil_iff] at hdrop
    omega
  | cons g rest =>
    have hrest : rest.length = depth := by
      have hlengths := congrArg List.length hdrop
      rw [List.length_drop, List.length_cons] at hlengths
      omega
    have hframes : s.frames = s.frames.take (s.depth - (depth + 1)) ++ g :: rest := by
      rw [← hdrop, List.take_append_drop]
    cases rest with
    | nil => exact absurd hrest (Nat.ne_of_lt hpos)
    | cons f outer =>
      subst hrest
      have hframes' :
          s.frames = s.frames.take (s.depth - (outer.length + 1 + 1)) ++ [g] ++ f :: outer := by
        rw [List.append_assoc]
        exact hframes
      exact ⟨g, f, outer, truncate_eq hframes, truncate_eq hframes', rfl⟩

end ProofState

namespace Building

variable {α : Type}

/-- Whether a computation either leaves the current deduction, and perhaps adds an entry outside, or
is refused before it does anything. -/
def Shuts (act : Building α) : Prop :=
  ∀ (s : ProofState) (f : Frame) (rest : List Frame), s.enclosing = f :: rest →
    (∃ refusal, act.run.run s = (.error refusal, s)) ∨
      (act.run.run s).2 = s.outside f rest ∨
        ∃ e, f.deduction.get? e.name = none ∧ (act.run.run s).2 = (s.outside f rest).add e

/-- Closing leaves the deduction and does nothing else to the frames around it, also when it is
refused. -/
theorem close_shuts (name : Option String) : (close name).Shuts := by
  intro s f rest h
  rw [close_run, h]
  cases htheorem : s.current.deduction.closedTheorem? with
  | none => exact .inl ⟨_, rfl⟩
  | some e =>
    obtain ⟨hname, hinstall⟩ | hinstall := install_run (name.getD s.current.deduction.name) e
      (.deduction s.current.deduction) (s.outside f rest)
    · exact .inr (.inr ⟨⟨_, e, .deduction s.current.deduction⟩, hname, congrArg Prod.snd hinstall⟩)
    · exact .inr (.inl hinstall)

/-- A guarded closing leaves the deduction that was opened, however it ends. -/
theorem closing_run {act : Building α} (hact : act.Shuts) {depth : Nat} {s : ProofState}
    (hpos : 0 < depth) (h : depth < s.depth) :
    ((closing (depth + 1) act).run.run s).2 = s.truncate depth ∨
      ∃ e, (s.truncate depth).current.deduction.get? e.name = none ∧
        ((closing (depth + 1) act).run.run s).2 = (s.truncate depth).add e := by
  obtain ⟨g, f, outer, hinner, houter, hdepth⟩ := s.exists_truncate_succ hpos h
  have hrun : (closing (depth + 1) act).run.run s =
      (tryCatch act fun refusal ↦ do abandon (depth + 1); throw refusal).run.run
        (s.outside g (f :: outer)) := by
    rw [← hinner]
    rfl
  -- what is left already is not left again
  have habandon : ∀ (refusal : Refusal) (u : ProofState),
      ((do abandon (depth + 1); throw refusal : Building α).run.run u).2 = u.truncate depth :=
    fun _ _ ↦ rfl
  have hshut := hact (s.outside g (f :: outer)) f outer rfl
  rw [hrun, run_tryCatch_eq, houter]
  have hstays : ∀ u : ProofState, u.depth = depth → u.truncate depth = u :=
    fun u hu ↦ hu ▸ u.truncate_depth
  obtain ⟨refusal, hrefused⟩ | hleft | ⟨e, hname, hadded⟩ := hshut
  · rw [hrefused]
    dsimp only
    rw [habandon]
    have hframes : (s.outside g (f :: outer)).frames = [g] ++ f :: outer := rfl
    have hlength : outer.length + 1 = depth := hdepth
    exact .inl (hlength ▸ ProofState.truncate_eq hframes)
  · revert hleft
    rcases act.run.run (s.outside g (f :: outer)) with ⟨⟨e⟩ | ⟨a⟩, t⟩ <;> intro hleft
    · dsimp only at hleft ⊢
      rw [habandon, hleft]
      exact .inl (hstays _ hdepth)
    · exact .inl hleft
  · revert hadded
    rcases act.run.run (s.outside g (f :: outer)) with ⟨⟨refusal⟩ | ⟨a⟩, t⟩ <;> intro hadded
    · dsimp only at hadded ⊢
      rw [habandon, hadded]
      exact .inr ⟨e, hname, hstays _ hdepth⟩
    · exact .inr ⟨e, hname, hadded⟩

end Building

/-- A goal that is not concluded leaves its deduction when it is. -/
theorem Goal.conclude_run {g : Goal} (hopen : g.phase ≠ .concluded) {depth : Nat} {s : ProofState}
    (hg : g.depth = depth + 1) (hpos : 0 < depth) (h : depth < s.depth) :
    (g.conclude.run.run s).2 = s.truncate depth ∨
      ∃ e, (s.truncate depth).current.deduction.get? e.name = none ∧
        (g.conclude.run.run s).2 = (s.truncate depth).add e := by
  have hact : Building.Shuts (do
      let actual ← Building.currentTheorem
      if !actual.equalUpTo .all g.statement then throw (.goalMissed g.statement actual)
      Building.close g.name) := by
    intro s f rest henclosing
    have htheorem := Building.currentTheorem_run s
    split at htheorem
    · rw [run_bind_ok htheorem]
      split
      · exact .inl ⟨_, rfl⟩
      · exact Building.close_shuts g.name s f rest henclosing
    · rw [run_bind_error htheorem]
      exact .inl ⟨_, rfl⟩
  unfold conclude
  rw [if_neg hopen, hg]
  exact Building.closing_run hact hpos h

/-! ### Goals that go on -/

/-- Whether a goal is what an earlier one has become: it is to prove the same in the same deduction,
and it was not concluded meanwhile. -/
structure Goal.Continues (g g' : Goal) : Prop where
  name : g'.name = g.name
  statement : g'.statement = g.statement
  depth : g'.depth = g.depth
  open_of_open : g.phase ≠ .concluded → g'.phase ≠ .concluded

theorem Goal.Continues.refl (g : Goal) : g.Continues g := ⟨rfl, rfl, rfl, id⟩

/-- What a goal goes through is put together from what each command does to it. -/
theorem Goal.Continues.trans {g g' g'' : Goal} (h : g.Continues g') (h' : g'.Continues g'') :
    g.Continues g'' where
  name := h'.name.trans h.name
  statement := h'.statement.trans h.statement
  depth := h'.depth.trans h.depth
  open_of_open := h'.open_of_open ∘ h.open_of_open

/-- Whether the goal goes on behind a computation. -/
def GoalBuilding.GoesOn {α : Type} (act : GoalBuilding α) : Prop :=
  ∀ x : Goal × ProofState, x.1.Continues (act.run.run x).2.1

namespace GoalBuilding

variable {α β : Type}

/-- Two goal operations in turn keep the goal if each of them does. -/
theorem GoesOn.bind {act : GoalBuilding α} {next : α → GoalBuilding β} (h : act.GoesOn)
    (hnext : ∀ a, (next a).GoesOn) : (act >>= next).GoesOn := by
  intro x
  have hact := h x
  rw [run_bind_eq]
  revert hact
  rcases act.run.run x with ⟨⟨e⟩ | ⟨a⟩, y⟩ <;> intro hact
  · exact hact
  · exact hact.trans (hnext a y)

/-- An operation of construction does not see the goal, so it leaves it as it was. -/
theorem step_goesOn (act : Building α) : (Goal.step act).GoesOn := fun x ↦ .refl x.1

end GoalBuilding

/-- Introduction takes from what remains of the goal and keeps its name, statement and depth. -/
theorem Goal.introduce_goesOn (name : Option String) : (introduce name).GoesOn := by
  intro x
  obtain ⟨g, s⟩ := x
  have hpeeled : ∀ (remaining : Expression) (introduction : Introduction),
      (do peeled remaining; return introduction : GoalBuilding Introduction).GoesOn :=
    fun _ _ _ ↦ ⟨rfl, rfl, rfl, fun _ ↦ GoalPhase.noConfusion⟩
  show g.Continues
    ((if g.phase = .concluded then _ else _ : GoalBuilding Introduction).run.run (g, s)).2.1
  split
  · exact .refl g
  · split
    · refine GoalBuilding.GoesOn.bind (GoalBuilding.step_goesOn _) (fun w ↦ ?_) (g, s)
      refine .bind (GoalBuilding.step_goesOn _) fun body ↦ ?_
      exact .bind (GoalBuilding.step_goesOn _) fun _ ↦ hpeeled body _
    · exact GoalBuilding.GoesOn.bind (GoalBuilding.step_goesOn _)
        (fun name ↦ hpeeled _ _) (g, s)
    · exact .refl g

/-! ### Parts of commands -/

namespace Script

variable {μ : Type} {x : Run μ}

/-- Whether a run keeps a relation between proof states, is inside as many goals and deductions, and
reports no theorem. -/
structure Run.Quiet (R : ProofState → ProofState → Prop) (x y : Run μ) : Prop where
  state : R x.session.state y.session.state
  nesting : y.nesting = x.nesting
  proved : y.output.proved = x.output.proved

instance [StepRelation R] : IsPreorder (Run μ) (Run.Quiet R) where
  refl _ := ⟨StepRelation.refl _, rfl, rfl⟩
  trans _ _ _ h h' :=
    ⟨StepRelation.trans h.state h'.state, h'.nesting.trans h.nesting, h'.proved.trans h.proved⟩

namespace Running

variable {α β : Type}

/-- A step that succeeds changes the proof state of the run and nothing else. -/
theorem step_run (position : Position) {act : Building α} {a : α} {s : ProofState}
    (h : act.run.run x.session.state = (.ok a, s)) : (step position act : Running μ α).run.run x =
      (.ok a, { x with session := { x.session with state := s } }) := by
  show (((act.run.run x.session.state).1.mapError Setback.refused).mapError
    (Stop.ofSetback position),
    { x with session := { x.session with state := (act.run.run x.session.state).2 } }) = _
  rw [h]
  rfl

/-- A step that is refused stops the script at the position of the command, with the state that the
refusal left. -/
theorem step_run_error (position : Position) {act : Building α} {refusal : Refusal} {s : ProofState}
    (h : act.run.run x.session.state = (.error refusal, s)) :
    (step position act : Running μ α).run.run x = (.error (.refused refusal position),
      { x with session := { x.session with state := s } }) := by
  show (((act.run.run x.session.state).1.mapError Setback.refused).mapError
    (Stop.ofSetback position),
    { x with session := { x.session with state := (act.run.run x.session.state).2 } }) = _
  rw [h]
  rfl

/-- An attempt sees only the session, so it is quiet as soon as it keeps the relation. -/
theorem attempt_quiet (position : Position) {act : Attempt μ α} (h : Keeps R act x.session) :
    Leads (Run.Quiet R) (attempt position act) x := ⟨h, rfl, rfl⟩

/-- The same for a single step. -/
theorem step_quiet (position : Position) {act : Building α} (h : Keeps R act x.session.state) :
    Leads (Run.Quiet R) (step position act : Running μ α) x := ⟨h, rfl, rfl⟩

variable [RunRelation R]

theorem count_quiet : Leads (Run.Quiet R) (count : Running μ Unit) x :=
  .of_modify ⟨StepRelation.refl _, rfl, rfl⟩

theorem define_quiet (name : String) (v : Variable) :
    Leads (Run.Quiet R) (define name v : Running μ Unit) x :=
  .of_modify ⟨StepRelation.refl _, rfl, rfl⟩

/-- Reading a word leaves the run as it is. -/
theorem word_quiet (e : SExpr) (fault : Fault) :
    Leads (Run.Quiet R) (word e fault : Running μ String) x := by
  unfold word
  split
  · exact .pure _
  · exact .throw _

theorem expression_quiet (e : SExpr) :
    Leads (Run.Quiet R) (expression e : Running μ Expression) x :=
  ⟨StepRelation.of_current (.refl x.session.state.current) (Nat.le_refl _) _, rfl, rfl⟩

theorem expressions_quiet (es : List SExpr) :
    Leads (Run.Quiet R) (expressions es : Running μ (List Expression)) x :=
  .mapM fun e _ _ ↦ expression_quiet e

theorem reference_quiet (e : SExpr) :
    Leads (Run.Quiet R) (reference e : Running μ Reference) x :=
  (word_quiet e .notAReference).bind fun _ _ ↦ .pure _

/-- A list of occurrence numbers is read one number at a time, with the state unchanged in between.
-/
theorem occurrences_quiet (es : List SExpr) :
    Leads (Run.Quiet R) (occurrences es : Running μ Occurrences) x := by
  refine (Leads.mapM fun e _ y ↦ ?_).bind fun _ _ ↦ .pure _
  refine (word_quiet e .notAnIndex).bind fun _ _ ↦ ?_
  split
  · exact .pure _
  · exact .throw _

/-- Each replacement is read as a pair of expressions; reading them draws identities, which every
relation here allows. -/
theorem replacements_quiet (es : List SExpr) :
    Leads (Run.Quiet R) (replacements es : Running μ (List Replacement)) x := by
  refine .mapM fun e _ y ↦ ?_
  split
  · exact (expression_quiet _).bind fun _ _ ↦ (expression_quiet _).bind fun _ _ ↦ .pure _
  · exact .throw _

/-- An answer that is thrown away has no bearing on what was kept. -/
theorem discard_quiet {act : Running μ α} (h : Leads (Run.Quiet R) act x) :
    Leads (Run.Quiet R) (discard act) x :=
  h.bind fun _ _ ↦ .pure _

/-- All commands that contain no others are quiet: each is a reader followed by one step or one
attempt. -/
theorem simple_quiet {p : Prover μ} (hp : p.Respects R) (e : SExpr) (head : String)
    (verb : Option Verb) (args : List SExpr) :
    Leads (Run.Quiet R) (simple p e head verb args) x := by
  unfold simple
  dsimp only
  split
  -- suppositions and parameters
  · refine (word_quiet _ .notAName).bind fun name y ↦ (expression_quiet _).bind fun statement z ↦ ?_
    exact discard_quiet (step_quiet _ (Building.suppose_keeps (some name) statement))
  · refine (expression_quiet _).bind fun statement z ↦ ?_
    exact discard_quiet (step_quiet _ (Building.suppose_keeps none statement))
  · refine (word_quiet _ .notAName).bind fun name y ↦ (expression_quiet _).bind fun statement z ↦ ?_
    exact discard_quiet (step_quiet _ (Building.suppose_keeps (some name) statement))
  · refine .forM fun name _ y ↦ (word_quiet name .notAVariableName).bind fun name z ↦ ?_
    exact (step_quiet _ (Building.newParameter_keeps name)).bind fun v w ↦ define_quiet name v
  -- inferences
  · refine (reference_quiet _).bind fun target y ↦ ?_
    refine (step_quiet _ (Building.resolve_keeps target)).bind fun target z ↦ ?_
    refine (expressions_quiet _).bind fun values w ↦ ?_
    exact discard_quiet (step_quiet _ (Building.bindAll_keeps target values))
  · refine (reference_quiet _).bind fun rule y ↦ (reference_quiet _).bind fun condition z ↦ ?_
    exact discard_quiet (step_quiet _ (Building.apply_keeps rule condition))
  · refine (expression_quiet _).bind fun target y ↦ ?_
    split
    · exact .throw _
    · refine (replacements_quiet _).bind fun replacements z ↦ ?_
      exact discard_quiet (step_quiet _ (Building.substitute_keeps target replacements .all))
  · refine (expression_quiet _).bind fun target y ↦ ?_
    split
    · exact .throw _
    · refine (replacements_quiet _).bind fun replacements z ↦ ?_
      split
      · exact .throw _
      · refine (occurrences_quiet _).bind fun chosen w ↦ ?_
        exact discard_quiet (step_quiet _ (Building.substitute_keeps target replacements chosen))
  · refine (expression_quiet _).bind fun statement y ↦ ?_
    exact discard_quiet (step_quiet _ (Building.verify_keeps statement))
  -- introductions, which belong in a goal
  · exact .throw _
  · exact .throw _
  -- searches and tactics
  · refine (expression_quiet _).bind fun statement y ↦ ?_
    exact discard_quiet (attempt_quiet _ (hp statement y.session))
  · refine (expressions_quiet _).bind fun values y ↦ (reference_quiet _).bind fun target z ↦ ?_
    exact discard_quiet (attempt_quiet _ (Prover.autobind_keeps hp target values))
  · refine (reference_quiet _).bind fun target y ↦ ?_
    exact discard_quiet (attempt_quiet _ (Prover.autoapply_keeps hp target))
  · refine (reference_quiet _).bind fun target y ↦ (reference_quiet _).bind fun equation z ↦ ?_
    refine (occurrences_quiet _).bind fun chosen w ↦ ?_
    exact discard_quiet (step_quiet _ (Building.replaceEqual_keeps target equation chosen))
  · refine (expression_quiet _).bind fun statement y ↦ (reference_quiet _).bind fun source z ↦ ?_
    exact discard_quiet (attempt_quiet _ (Prover.backwards_keeps hp source statement))
  -- hints, expectations and output
  · refine (reference_quiet _).bind fun source y ↦ ?_
    exact step_quiet _ (Building.hint_keeps source)
  · refine (expression_quiet _).bind fun expected y ↦ (reference_quiet _).bind fun target z ↦ ?_
    refine (step_quiet _ (Building.proposition_keeps target)).bind fun actual w ↦ ?_
    split
    · exact .throw _
    · exact .pure _
  · refine (reference_quiet _).bind fun target y ↦ ?_
    refine (step_quiet _ (Building.resolve_keeps target)).bind fun name z ↦ ?_
    refine (step_quiet _ (Building.lookup_keeps name)).bind fun statement w ↦ ?_
    exact .of_modify ⟨StepRelation.refl _, rfl, rfl⟩
  -- aborts, and what is no command
  · exact .throw _
  · split <;> exact .throw _
  · exact .throw _

/-! ### Goals and deductions

A state inside a goal or deduction is not one that the relation compares with the state in front. It
is followed from the state in which the deduction was opened, and the field `leave` of `RunRelation`
brings the relation back once it is left.
-/

/-- An introduction in a script is a step, also when the goal has nothing left to introduce. -/
theorem introduce_quiet (g : Goal) (name : Option String) (position : Position) :
    Leads (Run.Quiet R) (introduce g name position) x := by
  have hintroduce : Keeps R (Goal.introduce name) (g, x.session.state) :=
    Goal.introduce_keeps name _
  have hact : Keeps R (fun s ↦
      let ran := (Goal.introduce name).run.run (g, s)
      (ran.1.map (·, ran.2.1), ran.2.2) : Building (Introduction × Goal)) x.session.state :=
    hintroduce
  refine (step_quiet position hact).bind fun p y ↦ ?_
  obtain ⟨introduction, g'⟩ := p
  cases introduction with
  | parameter v => exact (define_quiet _ v).bind fun _ _ ↦ .pure _
  | hypothesis => exact .pure _
  | done => exact .pure _

/-- The names given to an introduction are worked off one by one. -/
theorem introduceNamed_quiet (g : Goal) (position : Position) (es : List SExpr) :
    Leads (Run.Quiet R) (introduceNamed g position es) x := by
  induction es generalizing g x with
  | nil => exact .pure _
  | cons e rest ih =>
    refine (word_quiet e .notAName).bind fun name y ↦ ?_
    refine (introduce_quiet g (some name) position).bind fun p z ↦ ?_
    obtain ⟨g', peeled⟩ := p
    cases peeled with
    | true => exact ih g'
    | false => exact .throw _

/-- By induction on the budget, since each round introduces once more. -/
theorem introduceRest_quiet (g : Goal) (position : Position) (budget : Nat) :
    Leads (Run.Quiet R) (introduceRest position budget g) x := by
  induction budget generalizing g x with
  | zero => exact .pure _
  | succ budget ih =>
    refine (introduce_quiet g none position).bind fun p y ↦ ?_
    obtain ⟨g', peeled⟩ := p
    cases peeled with
    | true => exact ih g'
    | false => exact .pure _

/-- Whether all results of a run satisfy `post`. -/
def Yields (act : Running μ α) (post : α → Prop) : Prop :=
  ∀ x a y, act.run.run x = (.ok a, y) → post a

theorem Yields.pure {post : α → Prop} {a : α} (h : post a) :
    Yields (Pure.pure a : Running μ α) post := by
  intro x b y hrun
  cases hrun
  exact h

theorem Yields.throw {post : α → Prop} (stop : Stop) :
    Yields (MonadExcept.throw stop : Running μ α) post := by
  intro x b y hrun
  cases hrun

/-- A postcondition may be weakened. -/
theorem Yields.mono {act : Running μ α} {post post' : α → Prop} (h : Yields act post)
    (hpost : ∀ a, post a → post' a) : Yields act post' :=
  fun x a y hrun ↦ hpost a (h x a y hrun)

/-- Postconditions of answers chain along a computation. -/
theorem Yields.bind {act : Running μ α} {next : α → Running μ β} {post : α → Prop}
    {post' : β → Prop} (h : Yields act post) (hnext : ∀ a, post a → Yields (next a) post') :
    Yields (act >>= next) post' := by
  intro x b y hrun
  rw [run_bind_eq] at hrun
  have hact := h x
  revert hact hrun
  rcases act.run.run x with ⟨⟨e⟩ | ⟨a⟩, z⟩ <;> intro hrun hact
  · cases hrun
  · exact hnext a (hact a z rfl) z b y hrun

theorem Yields.trivial (act : Running μ α) : Yields act fun _ ↦ True := fun _ _ _ _ ↦ .intro

/-- The goal that an introduction answers is the one it was given, further on. -/
theorem introduce_yields (g : Goal) (name : Option String) (position : Position) :
    Yields (introduce g name position : Running μ (Goal × Bool)) fun p ↦ g.Continues p.1 := by
  have hact : Yields (step position fun s ↦
      let ran := (Goal.introduce name).run.run (g, s)
      (ran.1.map (·, ran.2.1), ran.2.2) : Running μ (Introduction × Goal))
      fun p ↦ g.Continues p.2 := by
    intro x p y hrun
    obtain ⟨hresult, -⟩ := Prod.mk.inj hrun
    have hgoesOn : g.Continues ((Goal.introduce name).run.run (g, x.session.state)).2.1 :=
      Goal.introduce_goesOn name (g, x.session.state)
    have hp : ((Goal.introduce name).run.run (g, x.session.state)).1.map
        (·, ((Goal.introduce name).run.run (g, x.session.state)).2.1) = .ok p :=
      ok_of_mapError (ok_of_mapError hresult)
    cases hintroduction : ((Goal.introduce name).run.run (g, x.session.state)).1 with
    | error e => rw [hintroduction] at hp; cases hp
    | ok introduction =>
      rw [hintroduction] at hp
      cases hp
      exact hgoesOn
  refine hact.bind fun p hp ↦ ?_
  obtain ⟨introduction, g'⟩ := p
  cases introduction with
  | parameter v => exact (Yields.trivial _).bind fun _ _ ↦ .pure hp
  | hypothesis => exact .pure hp
  | done => exact .pure hp

/-- So it is after a list of names. -/
theorem introduceNamed_yields (g : Goal) (position : Position) (es : List SExpr) :
    Yields (introduceNamed g position es : Running μ Goal) g.Continues := by
  induction es generalizing g with
  | nil => exact .pure (.refl g)
  | cons e rest ih =>
    refine (Yields.trivial _).bind fun name _ ↦ ?_
    refine (introduce_yields g (some name) position).bind fun p hp ↦ ?_
    obtain ⟨g', peeled⟩ := p
    cases peeled with
    | true => exact (ih g').mono fun _ h ↦ hp.trans h
    | false => exact .throw _

theorem introduceRest_yields (g : Goal) (position : Position) (budget : Nat) :
    Yields (introduceRest position budget g : Running μ Goal) g.Continues := by
  induction budget generalizing g with
  | zero => exact .pure (.refl g)
  | succ budget ih =>
    refine (introduce_yields g none position).bind fun p hp ↦ ?_
    obtain ⟨g', peeled⟩ := p
    cases peeled with
    | true => exact (ih g').mono fun _ h ↦ hp.trans h
    | false => exact .pure hp

/-- Only the introductions among the commands in a goal touch it; every other command hands it on.
-/
theorem goalCommand_yields (p : Prover μ) (g : Goal) (e : SExpr) :
    Yields (goalCommand p g e) g.Continues := by
  rw [goalCommand.eq_def]
  dsimp only
  split
  · exact (Yields.trivial _).bind fun _ _ ↦ (introduce_yields g none _).bind fun r hr ↦ .pure hr
  · refine (Yields.trivial _).bind fun _ _ ↦ (Yields.trivial _).bind fun name _ ↦ ?_
    exact (introduce_yields g (some name) _).bind fun r hr ↦ .pure hr
  · refine (Yields.trivial _).bind fun _ _ ↦ (introduceNamed_yields g _ _).bind fun g' hg' ↦ ?_
    exact (introduceRest_yields g' _ _).mono fun _ h ↦ hg'.trans h
  · exact (Yields.trivial _).bind fun _ _ ↦ .pure (.refl g)

/-- A goal is the same one at the end of its block, which is why it can be concluded there. -/
theorem goalBlock_yields (p : Prover μ) (g : Goal) (es : List SExpr) :
    Yields (goalBlock p g es) g.Continues := by
  induction es generalizing g with
  | nil =>
    rw [goalBlock]
    exact .pure (.refl g)
  | cons e rest ih =>
    rw [goalBlock]
    exact (goalCommand_yields p g e).bind fun g' hg' ↦ (ih g').mono fun _ h ↦ hg'.trans h

/-- Catching an outcome changes the answer and not the run it was reached in. -/
theorem outcome_run {act : Running μ α} {result : Except Stop α} {y : Run μ}
    (h : act.run.run x = (result, y)) : (outcome act).run.run x = (.ok result, y) := by
  show (Except.ok (act.run.run x).1, (act.run.run x).2) = _
  rw [h]

/-- What runs inside comes first. -/
theorem inside_run {depth : Nat} {act : Running μ α} {result : Except Stop α} {y : Run μ}
    (h : act.run.run { x with nesting := x.nesting + 1 } = (result, y)) :
    (inside depth act).run.run x =
      (do
        modify fun run ↦ { run with nesting := run.nesting - 1, scope := x.scope }
        if result.isOk then ofOutcome result
        else do
          modifyState (·.truncate (depth - 1))
          ofOutcome result : Running μ α).run.run y := by
  have henter : (modify fun run ↦ { run with nesting := run.nesting + 1 } :
      Running μ PUnit).run.run x = (.ok ⟨⟩, { x with nesting := x.nesting + 1 }) := rfl
  unfold inside
  rw [run_bind_ok (run_get_eq x), run_bind_ok henter, run_bind_ok (outcome_run h)]
  cases result <;> rfl

/-- What closes a goal or deduction, and reports its theorem if no other one is around. -/
theorem closing_record_run (position : Position) (act : Building String) (x : Run μ) :
    let y := ((step position act >>= record).run.run x).2
    y.session.state = (act.run.run x.session.state).2 ∧ y.nesting = x.nesting ∧
      (0 < x.nesting → y.output.proved = x.output.proved) := by
  rcases hrun : act.run.run x.session.state with ⟨⟨e⟩ | ⟨name⟩, s⟩
  · rw [run_bind_error (step_run_error position hrun)]
    exact ⟨rfl, rfl, fun _ ↦ rfl⟩
  · have hrecord : ((record name : Running μ Unit).run.run
        { x with session := { x.session with state := s } }).2 =
          if x.nesting = 0 then
            { x with
              session := { x.session with state := s }
              output.proved := x.output.proved ++ [name] }
          else { x with session := { x.session with state := s } } := rfl
    rw [run_bind_ok (step_run position hrun), hrecord]
    split
    · exact ⟨rfl, rfl, fun hpos ↦ absurd ‹_› (Nat.ne_of_gt hpos)⟩
    · exact ⟨rfl, rfl, fun _ ↦ rfl⟩

/-! ### Commands -/

end Running

/-- Whether a run keeps a relation between proof states, is inside as many goals and deductions, and
reports no theorem if that is at least one. -/
structure Run.Proceeds (R : ProofState → ProofState → Prop) (x y : Run μ) : Prop where
  state : R x.session.state y.session.state
  nesting : y.nesting = x.nesting
  proved : 0 < x.nesting → y.output.proved = x.output.proved

instance [StepRelation R] : IsPreorder (Run μ) (Run.Proceeds R) where
  refl _ := ⟨StepRelation.refl _, rfl, fun _ ↦ rfl⟩
  trans _ _ _ h h' := ⟨StepRelation.trans h.state h'.state, h'.nesting.trans h.nesting,
    fun hpos ↦ (h'.proved (h.nesting ▸ hpos)).trans (h.proved hpos)⟩

/-- What is quiet proceeds, since it reports nothing at all. -/
theorem Run.Quiet.proceeds {y : Run μ} (h : x.Quiet R y) : x.Proceeds R y :=
  ⟨h.state, h.nesting, fun _ ↦ h.proved⟩

namespace Running

variable {α β : Type}

/-- The same for computations. -/
theorem proceeds_of_quiet {act : Running μ α} (h : Leads (Run.Quiet R) act x) :
    Leads (Run.Proceeds R) act x := Run.Quiet.proceeds h

variable [RunRelation R]

/-- What happens inside a goal or deduction that was opened, together with its closing, keeps the
relation. -/
theorem inside_bind_proceeds {act : Running μ α} {close : α → Building String} {post : α → Prop}
    {s : ProofState} {name : String} (position : Position)
    (hopened : x.session.state = s.opened name)
    (hact : ∀ z : Run μ, Leads (Run.Proceeds R) act z) (hyields : Yields act post)
    (hclose : ∀ a t, post a → s.depth < t.depth →
      ((close a).run.run t).2 = t.truncate s.depth ∨
        ∃ e, (t.truncate s.depth).current.deduction.get? e.name = none ∧
          ((close a).run.run t).2 = (t.truncate s.depth).add e) :
    let y := ((do
      let a ← inside (s.depth + 1) act
      record (← step position (close a)) : Running μ Unit).run.run x).2
    R s y.session.state ∧ y.nesting = x.nesting ∧
      (0 < x.nesting → y.output.proved = x.output.proved) := by
  have hinner : Run.Proceeds R { x with nesting := x.nesting + 1 }
      (act.run.run { x with nesting := x.nesting + 1 }).2 := hact _
  have hleave : ∀ t, R x.session.state t → R s (t.truncate s.depth) :=
    fun t ht ↦ RunRelation.leave (hopened ▸ ht)
  rw [run_bind_eq]
  rcases hrun : act.run.run { x with nesting := x.nesting + 1 } with ⟨⟨stop⟩ | ⟨a⟩, z⟩
  · rw [hrun] at hinner
    rw [inside_run hrun]
    refine ⟨hleave _ hinner.state, ?_, fun _ ↦ hinner.proved (Nat.succ_pos _)⟩
    exact congrArg (· - 1) hinner.nesting
  · rw [hrun] at hinner
    rw [inside_run hrun]
    have hnesting : z.nesting - 1 = x.nesting := congrArg (· - 1) hinner.nesting
    have hproved : z.output.proved = x.output.proved := hinner.proved (Nat.succ_pos _)
    have hdepth : s.depth < z.session.state.depth := by
      have hle := RunRelation.depth_le hinner.state
      rw [hopened] at hle
      exact hle
    obtain ⟨hstate, hnesting', hproved'⟩ := closing_record_run position (close a)
      { z with nesting := z.nesting - 1, scope := x.scope }
    refine ⟨?_, hnesting'.trans hnesting, fun hpos ↦ (hproved' (hnesting ▸ hpos)).trans hproved⟩
    refine Eq.subst hstate.symm ?_
    have hpost : post a := hyields _ a z hrun
    obtain hleft | ⟨e, hname, hadded⟩ := hclose a z.session.state hpost hdepth
    · exact Eq.subst hleft.symm (hleave _ hinner.state)
    · refine Eq.subst hadded.symm (StepRelation.trans (hleave _ hinner.state) ?_)
      exact StepRelation.of_current (.add hname) (Nat.le_refl _) _

/-- Whether a command keeps a relation, whatever it does. -/
def CommandKeeps (R : ProofState → ProofState → Prop) (p : Prover μ) (e : SExpr) : Prop :=
  ∀ x : Run μ, Leads (Run.Proceeds R) (command p e) x

/-- The commands of a block one after the other, each of which keeps the relation by hypothesis. -/
theorem block_proceeds {p : Prover μ} {es : List SExpr} (h : ∀ e ∈ es, CommandKeeps R p e) :
    Leads (Run.Proceeds R) (block p es) x := by
  induction es generalizing x with
  | nil =>
    rw [block]
    exact .pure _
  | cons e rest ih =>
    obtain ⟨he, hrest⟩ := List.forall_mem_cons.1 h
    rw [block]
    exact Leads.bind (he x) fun _ y ↦ ih hrest

/-- A command in a goal is an introduction or a command that the hypothesis covers. -/
theorem goalCommand_proceeds {p : Prover μ} (g : Goal) {e : SExpr} (h : CommandKeeps R p e) :
    Leads (Run.Proceeds R) (goalCommand p g e) x := by
  rw [goalCommand.eq_def]
  dsimp only
  split
  · refine proceeds_of_quiet (count_quiet.bind fun _ y ↦ ?_)
    exact (introduce_quiet g none _).bind fun r z ↦ .pure _
  · refine proceeds_of_quiet
      (count_quiet.bind fun _ y ↦ (word_quiet _ .notAName).bind fun name z ↦ ?_)
    exact (introduce_quiet g (some name) _).bind fun r w ↦ .pure _
  · refine proceeds_of_quiet (count_quiet.bind fun _ y ↦ ?_)
    exact (introduceNamed_quiet g _ _).bind fun g' z ↦ introduceRest_quiet g' _ _
  · exact Leads.bind (h x) fun _ y ↦ .pure _

/-- The block of a goal, by induction on its commands. -/
theorem goalBlock_proceeds {p : Prover μ} (g : Goal) {es : List SExpr}
    (h : ∀ e ∈ es, CommandKeeps R p e) : Leads (Run.Proceeds R) (goalBlock p g es) x := by
  induction es generalizing g x with
  | nil =>
    rw [goalBlock]
    exact .pure _
  | cons e rest ih =>
    obtain ⟨he, hrest⟩ := List.forall_mem_cons.1 h
    rw [goalBlock]
    exact (goalCommand_proceeds g he).bind fun g' y ↦ ih g' hrest

/-- What is opened, worked on inside and closed again keeps the relation. -/
theorem bracket_proceeds {opening : Building α} {depth : α → Nat} {act : α → Running μ β}
    {close : α → β → Building String} (position : Position) {a : α} {s : ProofState} {name : String}
    {post : β → Prop} (hopen : opening.run.run x.session.state = (.ok a, s.opened name))
    (hs : R x.session.state s) (hdepth : depth a = s.depth + 1)
    (hact : ∀ z, Leads (Run.Proceeds R) (act a) z) (hyields : Yields (act a) post)
    (hclose : ∀ b t, post b → s.depth < t.depth →
      ((close a b).run.run t).2 = t.truncate s.depth ∨
        ∃ e, (t.truncate s.depth).current.deduction.get? e.name = none ∧
          ((close a b).run.run t).2 = (t.truncate s.depth).add e) :
    Leads (Run.Proceeds R) (do
      let a ← step position opening
      let b ← inside (depth a) (act a)
      record (← step position (close a b)) : Running μ Unit) x := by
  unfold Leads
  rw [run_bind_ok (step_run position hopen), hdepth]
  obtain ⟨hstate, hnesting, hproved⟩ := inside_bind_proceeds (R := R) position
    (x := { x with session := { x.session with state := s.opened name } }) rfl hact hyields hclose
  exact ⟨StepRelation.trans hs hstate, hnesting, hproved⟩

/-- A deduction is pushed, worked in and closed; only the three together keep the relation. -/
theorem deduction_proceeds {p : Prover μ} {body : List SExpr} (name : Option String)
    (position : Position) (h : ∀ e ∈ body, CommandKeeps R p e) :
    Leads (Run.Proceeds R) (do
      let depth ← step position (Building.push name)
      inside depth (block p body)
      record (← step position (Building.closeAt depth none)) : Running μ Unit) x := by
  obtain ⟨t, text, hrun, ht⟩ := Building.exists_push_run (R := R) name x.session.state
  exact bracket_proceeds position hrun ht rfl (fun _ ↦ block_proceeds h) (Yields.trivial _)
    fun _ u _ hu ↦ Building.closing_run (Building.close_shuts none) t.depth_pos hu

/-- The same for a goal, whose conclusion needs that the block hands on the goal it was given. -/
theorem goal_proceeds {p : Prover μ} {body : List SExpr} (name : String) (statement : Expression)
    (position : Position) (h : ∀ e ∈ body, CommandKeeps R p e) :
    Leads (Run.Proceeds R) (do
      let g ← step position (Goal.start (some name) statement)
      let g ← inside g.depth (goalBlock p g body)
      record (← step position g.conclude) : Running μ Unit) x := by
  obtain ⟨t, text, hrun, ht⟩ := Building.exists_push_run (R := R) (some name) x.session.state
  have hstart : (Goal.start (some name) statement).run.run x.session.state =
      (.ok ⟨some name, statement, statement, .untouched, t.depth + 1⟩, t.opened text) := by
    rw [Goal.start, run_bind_ok hrun]
    rfl
  refine bracket_proceeds position hstart ht rfl (fun z ↦ goalBlock_proceeds _ h)
    (goalBlock_yields p _ body) fun g u hg hu ↦ ?_
  exact Goal.conclude_run (hg.open_of_open GoalPhase.noConfusion) hg.depth t.depth_pos hu

/-- A block that is tried and aborted goes back to where it began. -/
theorem try_proceeds {p : Prover μ} {body : List SExpr} (h : ∀ e ∈ body, CommandKeeps R p e) :
    Leads (Run.Proceeds R) (do
      let run ← get
      let checkpoint := run.session.state.checkpoint
      match ← outcome (block p body) with
      | .ok () => return
      | .error (.aborted _) => do
        modifyState (·.rollback checkpoint)
        modify fun run' ↦ { run' with scope := run.scope }
      | .error stop => throw stop : Running μ Unit) x := by
  have hblock : x.Proceeds R ((block p body).run.run x).2 := block_proceeds h
  show x.Proceeds R ((match ((block p body).run.run x).1 with
    | .ok () => return
    | .error (.aborted _) => do
      modifyState (·.rollback x.session.state.checkpoint)
      modify fun run' ↦ { run' with scope := x.scope }
    | .error stop => throw stop : Running μ Unit).run.run
      ((block p body).run.run x).2).2
  split
  · exact hblock
  · exact ⟨RunRelation.rollback hblock.state, hblock.nesting, hblock.proved⟩
  · exact hblock

/-- A block that is tried counts as a command, and what it did is undone if it is aborted. -/
theorem command_try_run (p : Prover μ) (position place : Position) (body : List SExpr) (x : Run μ)
    {abort : Abort} {y : Run μ}
    (hblock : (do count; block p body : Running μ Unit).run.run x = (.error (.aborted abort), y)) :
    (command p (.list position (.word "try" place :: body))).run.run x =
      (.ok (), { y with
        session := { y.session with
          state := y.session.state.rollback x.session.state.checkpoint }
        scope := x.scope }) := by
  have hverb : Verb.ofWord? "try" = some .attempt := rfl
  rw [command.eq_def]
  dsimp only
  rw [hverb]
  dsimp only
  show ((match ((do count; block p body : Running μ Unit).run.run x).1 with
    | .ok () => return
    | .error (.aborted _) => do
      modifyState (·.rollback x.session.state.checkpoint)
      modify fun run' ↦ { run' with scope := x.scope }
    | .error stop => throw stop : Running μ Unit).run.run
      ((do count; block p body : Running μ Unit).run.run x).2) = _
  rw [hblock]
  rfl

/-- **Commands keep** what steps and searches keep. -/
theorem commandKeeps {p : Prover μ} (hp : p.Respects R) (e : SExpr) : CommandKeeps R p e := by
  induction e with
  | word text position | quotation text position =>
    intro x
    rw [command.eq_def]
    exact .throw _
  | list position items ih =>
    intro x
    rw [command.eq_def]
    cases items with
    | nil => exact .throw _
    | cons first args =>
      obtain ⟨-, hargs⟩ := List.forall_mem_cons.1 ih
      cases first with
      | quotation | list => exact .throw _
      | word head place =>
        refine (proceeds_of_quiet count_quiet).bind fun _ y ↦ ?_
        split
        · rename_i name _ body _
          obtain ⟨-, hbody⟩ := List.forall_mem_cons.1 hargs
          exact deduction_proceeds (some name) position hbody
        · exact deduction_proceeds none position hargs
        · rename_i name statement body _
          obtain ⟨-, hargs⟩ := List.forall_mem_cons.1 hargs
          obtain ⟨-, hbody⟩ := List.forall_mem_cons.1 hargs
          refine (proceeds_of_quiet (word_quiet name .notAName)).bind fun name z ↦ ?_
          refine (proceeds_of_quiet (expression_quiet statement)).bind fun statement w ↦ ?_
          exact goal_proceeds name statement position hbody
        · exact try_proceeds hargs
        · exact proceeds_of_quiet (simple_quiet hp _ head _ _)

end Running

/-! ### Scripts -/

variable [RunRelation R]

/-- However far a script has come, where it ends is in the relation to where it began. -/
theorem runCommands_keeps {p : Prover μ} (hp : p.Respects R) {s : ProofState}
    (h : R s x.session.state) (es : List SExpr) :
    R s ((runCommands p s.depth es).run.run x).2.session.state := by
  induction es generalizing x with
  | nil => exact h
  | cons e rest ih =>
    have hcommand : R s ((Running.command p e).run.run x).2.session.state :=
      StepRelation.trans h (Running.commandKeeps hp e x).state
    show R s ((match ((Running.command p e).run.run x).1 with
      | .ok () => runCommands p s.depth rest
      | .error (.aborted abort) => do
        Running.modifyState (·.truncate s.depth)
        return { (← get).output with aborted := some abort }
      | .error stop => do
        Running.modifyState (·.truncate s.depth)
        throw stop : Running μ Output).run.run
          ((Running.command p e).run.run x).2).2.session.state
    split
    · exact ih hcommand
    · exact RunRelation.truncate hcommand
    · exact RunRelation.truncate hcommand

/-- **Scripts keep** what steps and searches keep, whether they can be read or not, and however they
end. -/
theorem run_keeps {p : Prover μ} (hp : p.Respects R) (text : String) (session : Session μ) :
    R session.state (run p text session).2.state := by
  unfold run
  split
  · exact StepRelation.refl _
  · rename_i commands _
    exact runCommands_keeps (x := .start session) hp (StepRelation.refl session.state) commands

end Script

end NaturalDeduction
