import NaturalDeduction.Proofs.Reading
import NaturalDeduction.Proofs.Search
import NaturalDeduction.Script.Interpreter

/-!
# Scripts act by moves

A script does nothing to a proof state that cannot be done by moves, however it ends. Besides the
state, a run has the names of variables; these stay below the counter, and so do the expressions
that are read with them.

Commands contain commands, so the proof that a command acts by moves is an induction over the
s-expression. The blocks inside are handled by lemmas that take what is to be known about the
commands in them as a hypothesis.

Main statement: `Script.run_moves`.

Each sort of command has a lemma that says what it needs: reading needs nothing and leaves
expressions below the counter; a block needs that its commands act by moves (`CommandActs`); a goal
needs, besides, that what remains of it is below the counter. The last lemma before the main one,
`Running.commandActs`, puts them together by induction on the s-expression of a command.
-/

namespace NaturalDeduction.Script

instance {μ : Type} : Proving (Run μ) where
  state x := x.session.state
  Keeps x := x.scope.Below x.session.state.nextVariable

variable {μ : Type} {P : Policy} {x : Run μ}

namespace Running

variable {α : Type}

/-! ### Rules -/

/-- An attempt that a command makes does to the state what the attempt does alone. -/
theorem attempt_acts {act : Attempt μ α} {post : α → Session μ → Prop} (position : Position)
    (h : P.Acts act x.session post) :
    P.Acts (attempt position act) x fun a y ↦ post a y.session := by
  intro ht
  obtain ⟨hmoves, -, hpost⟩ := h ⟨ht.state, trivial⟩
  have hrun : (attempt position act).run.run x =
      ((act.run.run x.session).1.mapError (.ofSetback position),
        { x with session := (act.run.run x.session).2 }) := rfl
  rw [hrun]
  refine ⟨hmoves, ht.keeps.mono (Moves.nextVariable_le hmoves), fun a ha ↦ ?_⟩
  exact hpost a (ok_of_mapError ha)

/-- A step that a command takes does to the state what the step does alone. -/
theorem step_acts {act : Building α} {post : α → ProofState → Prop} (position : Position)
    (h : P.Acts act x.session.state post) :
    P.Acts (step position act : Running μ α) x fun a y ↦ post a y.session.state :=
  attempt_acts position (Attempt.step_acts h)

/-- A change of the state that moves can bring about acts by moves in a run. -/
theorem modifyState_acts {f : ProofState → ProofState}
    (h : Moves P x.session.state (f x.session.state)) :
    P.Acts (modifyState f : Running μ Unit) x fun _ _ ↦ True :=
  .of_tidy fun ht ↦ .of_modify h (ht.keeps.mono (Moves.nextVariable_le h)) trivial

/-- Catching what a command ends with leaves what it did; only a result carries the postcondition.
-/
theorem outcome_acts {act : Running μ α} {post : α → Run μ → Prop} (h : P.Acts act x post) :
    P.Acts (outcome act) x fun result y ↦ ∀ a, result = .ok a → post a y := by
  intro ht
  obtain ⟨hmoves, hkeeps, hpost⟩ := h ht
  refine ⟨hmoves, hkeeps, fun result hresult ↦ ?_⟩
  cases hresult
  exact hpost

/-- Ending with a given outcome does nothing to the state. -/
theorem ofOutcome_acts {result : Except Stop α} {post : α → Run μ → Prop}
    (h : ∀ a, result = .ok a → post a x) : P.Acts (ofOutcome result) x post := by
  cases result with
  | ok a => exact .pure (h a rfl)
  | error e => exact .throw e

/-- Counting a command leaves the proof state alone. -/
theorem count_acts : P.Acts (count : Running μ Unit) x fun _ _ ↦ True :=
  .of_tidy fun ht ↦ .of_modify .refl ht.keeps trivial

/-- Giving a name to a variable leaves the proof state alone and keeps the names below the counter.
-/
theorem define_acts (name : String) {v : Variable} (hv : v.id < x.session.state.nextVariable) :
    P.Acts (define name v : Running μ Unit) x fun _ _ ↦ True :=
  .of_tidy fun ht ↦ .of_modify .refl (List.forall_mem_cons.2 ⟨hv, ht.keeps⟩) trivial

/-- Reporting a theorem leaves the proof state alone. -/
theorem record_acts (name : String) : P.Acts (record name : Running μ Unit) x fun _ _ ↦ True := by
  refine .of_tidy fun ht ↦ .of_modify ?_ ?_ trivial
  · dsimp only
    split <;> exact .refl
  · dsimp only
    split <;> exact ht.keeps

/-- What holds of a result in a goal or deduction may depend on the counter. -/
theorem inside_acts {act : Running μ α} (post : α → Nat → Prop) (depth : Nat)
    (h : ∀ y : Run μ, x.session.state.nextVariable ≤ y.session.state.nextVariable →
      P.Acts act y fun a z ↦ post a z.session.state.nextVariable) :
    P.Acts (inside depth act) x fun a z ↦ post a z.session.state.nextVariable := by
  refine .of_tidy fun ht ↦ .get_bind ?_
  have henter : P.Acts (modify fun run ↦ { run with nesting := run.nesting + 1 } : Running μ PUnit)
      x fun _ _ ↦ True := .of_modify .refl ht.keeps trivial
  refine henter.bind fun _ y hmoves _ ↦ ?_
  refine (outcome_acts (h y (Moves.nextVariable_le hmoves))).bind fun result z hmoves' hresult ↦ ?_
  have hscope := ht.keeps.mono (Moves.nextVariable_le (hmoves.trans hmoves'))
  have hleave : P.Acts
      (modify fun run ↦ { run with nesting := run.nesting - 1, scope := x.scope } : Running μ PUnit)
      z fun _ w ↦ w.session = z.session := .of_modify .refl hscope rfl
  refine hleave.bind fun _ w _ hw ↦ ?_
  cases result with
  | ok a =>
    show P.Acts (ofOutcome (.ok a)) w _
    exact ofOutcome_acts fun b hb ↦ hw ▸ hresult b hb
  | error stop =>
    refine (modifyState_acts (Building.truncate_moves _ _)).bind fun _ _ _ _ ↦ ?_
    exact ofOutcome_acts fun b hb ↦ nomatch hb

/-! ### Parts of commands -/

/-- Reading a word leaves the state alone. -/
theorem word_acts (e : SExpr) (fault : Fault) :
    P.Acts (word e fault : Running μ String) x fun _ _ ↦ True := by
  unfold word
  split
  · exact .pure trivial
  · exact .throw _

/-- Reading an expression draws variables, so what is read is below the counter that results. -/
theorem expression_acts (e : SExpr) :
    P.Acts (expression e : Running μ Expression) x
      fun result y ↦ result.Below y.session.state.nextVariable := by
  intro ht
  obtain ⟨hle, hresult⟩ : Reads (e.read x.scope) ⟨[], x.session.state.nextVariable⟩ _ :=
    SExpr.read_reads e ht.keeps
  have hrun : (expression e : Running μ Expression).run.run x =
      (((e.read x.scope).run.run ⟨[], x.session.state.nextVariable⟩).1.mapError .unreadable,
        _) := rfl
  rw [hrun]
  exact ⟨.single (.draw hle), ht.keeps.mono hle, fun a ha ↦ hresult a (ok_of_mapError ha)⟩

/-- All of several expressions are below the counter behind the last of them. -/
theorem expressions_acts (es : List SExpr) :
    P.Acts (expressions es : Running μ (List Expression)) x
      fun results y ↦ ∀ e ∈ results, e.Below y.session.state.nextVariable :=
  .mapM (fun _ _ _ hmoves h ↦ h.mono (Moves.nextVariable_le hmoves)) fun e _ _ ↦ expression_acts e

/-- Reading a reference leaves the state alone. -/
theorem reference_acts (e : SExpr) :
    P.Acts (reference e : Running μ Reference) x fun _ _ ↦ True :=
  (word_acts e .notAReference).bind fun _ _ _ _ ↦ .pure trivial

/-- Reading a list of indices leaves the state alone. -/
theorem occurrences_acts (es : List SExpr) :
    P.Acts (occurrences es : Running μ Occurrences) x fun _ _ ↦ True := by
  refine (Policy.Acts.mapM_trivial fun e _ y ↦ ?_).bind fun _ _ _ _ ↦ .pure trivial
  refine (word_acts e .notAnIndex).bind fun _ _ _ _ ↦ ?_
  split
  · exact .pure trivial
  · exact .throw _

/-- Keys and values of replacements are below the counter behind the last of them. -/
theorem replacements_acts (es : List SExpr) :
    P.Acts (replacements es : Running μ (List Replacement)) x
      fun rs y ↦ ∀ r ∈ rs, r.Below y.session.state.nextVariable := by
  refine .mapM (fun _ _ _ hmoves h ↦ h.mono (Moves.nextVariable_le hmoves)) fun e _ y ↦ ?_
  split
  · rename_i key value _
    refine (expression_acts key).bind fun k z _ hk ↦ ?_
    refine (expression_acts value).bind fun v w hmoves hv ↦ .pure ?_
    exact ⟨hk.mono (Moves.nextVariable_le hmoves), hv⟩
  · exact .throw _

/-! ### Commands without inner commands -/

/-- It makes no difference whether a result is used. -/
theorem discard_acts {act : Running μ α} {post : α → Run μ → Prop} (h : P.Acts act x post) :
    P.Acts (discard act) x fun _ _ ↦ True := h.bind fun _ _ _ _ ↦ .pure trivial

/-- A command without inner commands acts by moves. There is one case for each verb, and the
arguments are read before anything is done. -/
theorem simple_acts [P.Permissive] {p : Prover μ} (hp : p.LawfulFor P) (e : SExpr) (head : String)
    (verb : Option Verb)
    (args : List SExpr) : P.Acts (simple p e head verb args) x fun _ _ ↦ True := by
  unfold simple
  dsimp only
  split
  -- suppositions and parameters
  · refine (word_acts _ .notAName).bind fun name y _ _ ↦ ?_
    refine (expression_acts _).bind fun statement z _ h ↦ ?_
    exact discard_acts (step_acts _ (Building.suppose_acts (some name) h))
  · refine (expression_acts _).bind fun statement z _ h ↦ ?_
    exact discard_acts (step_acts _ (Building.suppose_acts none h))
  · refine (word_acts _ .notAName).bind fun name y _ _ ↦ ?_
    refine (expression_acts _).bind fun statement z _ h ↦ ?_
    exact discard_acts (step_acts _ (Building.suppose_acts (some name) h))
  · refine .forM trivial fun name _ y _ _ ↦ ?_
    refine (word_acts name .notAVariableName).bind fun name z _ _ ↦ ?_
    refine (step_acts _ (Building.newParameter_acts name)).bind fun v w _ hv ↦ ?_
    exact define_acts name hv
  -- inferences
  · refine (reference_acts _).bind fun target y _ _ ↦ ?_
    refine (step_acts _ (Building.resolve_acts target)).bind fun target z _ _ ↦ ?_
    refine (expressions_acts _).bind fun values w _ h ↦ ?_
    exact discard_acts (step_acts _ (Building.bindAll_acts target h))
  · refine (reference_acts _).bind fun rule y _ _ ↦ ?_
    refine (reference_acts _).bind fun condition z _ _ ↦ ?_
    exact discard_acts (step_acts _ (Building.apply_acts rule condition))
  · refine (expression_acts _).bind fun target y _ htarget ↦ ?_
    split
    · exact .throw _
    · refine (replacements_acts _).bind fun replacements z hmoves h ↦ ?_
      have htarget := htarget.mono (Moves.nextVariable_le hmoves)
      exact discard_acts (step_acts _ (Building.substitute_acts htarget h .all))
  · refine (expression_acts _).bind fun target y _ htarget ↦ ?_
    split
    · exact .throw _
    · refine (replacements_acts _).bind fun replacements z hmoves h ↦ ?_
      have htarget := htarget.mono (Moves.nextVariable_le hmoves)
      split
      · exact .throw _
      · refine (occurrences_acts _).bind fun chosen w hmoves' _ ↦ ?_
        have hle := Moves.nextVariable_le hmoves'
        refine discard_acts (step_acts _ (Building.substitute_acts (htarget.mono hle) ?_ chosen))
        exact fun r hr ↦ (h r hr).mono hle
  · refine (expression_acts _).bind fun statement y _ h ↦ ?_
    exact discard_acts (step_acts _ (Building.verify_acts h))
  -- introductions, which belong in a goal
  · exact .throw _
  · exact .throw _
  -- searches and tactics
  · refine (expression_acts _).bind fun statement y _ h ↦ ?_
    exact discard_acts (attempt_acts _ (hp statement y.session h))
  · refine (expressions_acts _).bind fun values y _ h ↦ ?_
    refine (reference_acts _).bind fun target z hmoves _ ↦ ?_
    refine discard_acts (attempt_acts _ (Prover.autobind_acts hp target fun e he ↦ ?_))
    exact (h e he).mono (Moves.nextVariable_le hmoves)
  · refine (reference_acts _).bind fun target y _ _ ↦ ?_
    exact discard_acts (attempt_acts _ (Prover.autoapply_acts hp target))
  · refine (reference_acts _).bind fun target y _ _ ↦ ?_
    refine (reference_acts _).bind fun equation z _ _ ↦ ?_
    refine (occurrences_acts _).bind fun chosen w _ _ ↦ ?_
    exact discard_acts (step_acts _ (Building.replaceEqual_acts target equation chosen))
  · refine (expression_acts _).bind fun statement y _ h ↦ ?_
    refine (reference_acts _).bind fun source z hmoves _ ↦ ?_
    have hgoal := h.mono (Moves.nextVariable_le hmoves)
    exact discard_acts (attempt_acts _ (Prover.backwards_acts hp source hgoal))
  -- hints, expectations and output
  · refine (reference_acts _).bind fun source y _ _ ↦ ?_
    exact step_acts _ (Building.hint_acts source)
  · refine (expression_acts _).bind fun expected y _ _ ↦ ?_
    refine (reference_acts _).bind fun target z _ _ ↦ ?_
    have hproposition : P.Acts (Building.proposition target) z.session.state fun _ _ ↦ True :=
      (Building.resolve_acts target).bind fun name _ _ _ ↦
        (Building.lookup_acts name).mono fun _ _ _ ↦ trivial
    refine (step_acts _ hproposition).bind fun actual w _ _ ↦ ?_
    split
    · exact .throw _
    · exact .pure trivial
  · refine (reference_acts _).bind fun target y _ _ ↦ ?_
    refine (step_acts _ (Building.resolve_acts target)).bind fun name z _ _ ↦ ?_
    refine (step_acts _ (Building.lookup_acts name)).bind fun statement w _ _ ↦ ?_
    exact .of_tidy fun ht ↦ .of_modify .refl ht.keeps trivial
  -- aborts, and what is no command
  · exact .throw _
  · split <;> exact .throw _
  · exact .throw _

/-! ### Goals -/

/-- An introduction peels the goal, and what remains of the goal is below the counter. -/
theorem introduce_acts {g : Goal} (hg : g.Below x.session.state.nextVariable) (name : Option String)
    (position : Position) : P.Acts (introduce g name position) x
      fun p y ↦ p.1.Below y.session.state.nextVariable := by
  have hact : P.Acts (fun s ↦
      let ran := (Goal.introduce name).run.run (g, s)
      (ran.1.map (·, ran.2.1), ran.2.2) : Building (Introduction × Goal)) x.session.state fun p s ↦
        p.2.Below s.nextVariable ∧ ∀ v, p.1 = .parameter v → v.id < s.nextVariable := by
    intro ht
    have hintroduce : P.Acts (Goal.introduce name) (g, x.session.state) _ :=
      Goal.introduce_acts name _
    obtain ⟨hmoves, hkeeps, hpost⟩ := hintroduce ⟨ht.state, hg⟩
    refine ⟨hmoves, trivial, fun p hp ↦ ?_⟩
    have hp : ((Goal.introduce name).run.run (g, x.session.state)).1.map
        (·, ((Goal.introduce name).run.run (g, x.session.state)).2.1) = .ok p := hp
    cases hresult : ((Goal.introduce name).run.run (g, x.session.state)).1 with
    | error e => rw [hresult] at hp; cases hp
    | ok introduction =>
      rw [hresult] at hp
      cases hp
      exact ⟨hkeeps, hpost introduction hresult⟩
  refine (step_acts position hact).bind fun p y _ h ↦ ?_
  obtain ⟨introduction, g'⟩ := p
  obtain ⟨hg', hv⟩ := h
  cases introduction with
  | parameter v =>
    refine (define_acts _ (hv v rfl)).bind fun _ z hmoves _ ↦ .pure ?_
    exact hg'.mono (Moves.nextVariable_le hmoves)
  | hypothesis => exact .pure hg'
  | done => exact .pure hg'

/-- Introductions with given names act by moves, one after the other. -/
theorem introduceNamed_acts {g : Goal} (hg : g.Below x.session.state.nextVariable)
    (position : Position) (es : List SExpr) : P.Acts (introduceNamed g position es) x
      fun g' y ↦ g'.Below y.session.state.nextVariable := by
  induction es generalizing g x with
  | nil => exact .pure hg
  | cons e rest ih =>
    refine (word_acts e .notAName).bind fun name y hmoves _ ↦ ?_
    have hg := hg.mono (Moves.nextVariable_le hmoves)
    refine (introduce_acts hg (some name) position).bind fun p z _ hp ↦ ?_
    obtain ⟨g', peeled⟩ := p
    cases peeled with
    | true => exact ih hp
    | false => exact .throw _

/-- Introductions for as long as there is something to introduce act by moves. -/
theorem introduceRest_acts {g : Goal} (hg : g.Below x.session.state.nextVariable)
    (position : Position) (budget : Nat) : P.Acts (introduceRest position budget g) x
      fun g' y ↦ g'.Below y.session.state.nextVariable := by
  induction budget generalizing g x with
  | zero => exact .pure hg
  | succ budget ih =>
    refine (introduce_acts hg none position).bind fun p y _ hp ↦ ?_
    obtain ⟨g', peeled⟩ := p
    cases peeled with
    | true => exact ih hp
    | false => exact .pure hp

/-! ### Commands -/

/-- Whether a command acts by moves, whatever it does. -/
def CommandActs (P : Policy) (p : Prover μ) (e : SExpr) : Prop :=
  ∀ x : Run μ, P.Acts (command p e) x fun _ _ ↦ True

/-- A block acts by moves if each of its commands does. -/
theorem block_acts {p : Prover μ} {es : List SExpr} (h : ∀ e ∈ es, CommandActs P p e) :
    P.Acts (block p es) x fun _ _ ↦ True := by
  induction es generalizing x with
  | nil =>
    rw [block]
    exact .pure trivial
  | cons e rest ih =>
    obtain ⟨he, hrest⟩ := List.forall_mem_cons.1 h
    rw [block]
    exact (he x).bind fun _ y _ _ ↦ ih hrest

/-- A command in a goal is an introduction or a command like any other. -/
theorem goalCommand_acts {p : Prover μ} {g : Goal} (hg : g.Below x.session.state.nextVariable)
    {e : SExpr} (h : CommandActs P p e) : P.Acts (goalCommand p g e) x
      fun g' y ↦ g'.Below y.session.state.nextVariable := by
  rw [goalCommand.eq_def]
  dsimp only
  split
  · refine count_acts.bind fun _ y hmoves _ ↦ ?_
    refine (introduce_acts (hg.mono (Moves.nextVariable_le hmoves)) none _).bind fun r z _ hr ↦ ?_
    exact .pure hr
  · refine count_acts.bind fun _ y hmoves _ ↦ ?_
    refine (word_acts _ .notAName).bind fun name z hmoves' _ ↦ ?_
    have hg := hg.mono (Moves.nextVariable_le (hmoves.trans hmoves'))
    exact (introduce_acts hg (some name) _).bind fun r w _ hr ↦ .pure hr
  · refine count_acts.bind fun _ y hmoves _ ↦ ?_
    have hg := hg.mono (Moves.nextVariable_le hmoves)
    exact (introduceNamed_acts hg _ _).bind fun g' z _ hg' ↦ introduceRest_acts hg' _ _
  · exact (h x).bind fun _ y hmoves _ ↦ .pure (hg.mono (Moves.nextVariable_le hmoves))

/-- The commands of a goal act by moves, and what remains of the goal stays below the counter. -/
theorem goalBlock_acts {p : Prover μ} {g : Goal} (hg : g.Below x.session.state.nextVariable)
    {es : List SExpr} (h : ∀ e ∈ es, CommandActs P p e) : P.Acts (goalBlock p g es) x
      fun g' y ↦ g'.Below y.session.state.nextVariable := by
  induction es generalizing g x with
  | nil =>
    rw [goalBlock]
    exact .pure hg
  | cons e rest ih =>
    obtain ⟨he, hrest⟩ := List.forall_mem_cons.1 h
    rw [goalBlock]
    exact (goalCommand_acts hg he).bind fun g' y _ hg' ↦ ih hg' hrest

/-- A deduction with a body acts by moves, also where the body ends with an error and what it opened
is discarded. -/
theorem deduction_acts {p : Prover μ} {body : List SExpr} (name : Option String)
    (position : Position) (h : ∀ e ∈ body, CommandActs P p e) :
    P.Acts (do
      let depth ← step position (Building.push name)
      inside depth (block p body)
      record (← step position (Building.closeAt depth none)) : Running μ Unit) x
      fun _ _ ↦ True := by
  refine (step_acts position (Building.push_acts name)).bind fun depth y _ _ ↦ ?_
  have hbody : P.Acts (inside depth (block p body)) y fun _ _ ↦ True :=
    inside_acts (fun _ _ ↦ True) depth fun z _ ↦ block_acts h
  refine hbody.bind fun _ z _ _ ↦ ?_
  refine (step_acts position (Building.closeAt_acts depth none)).bind fun name w _ _ ↦ ?_
  exact record_acts name

/-- **Commands act by moves.** -/
theorem commandActs [P.Permissive] {p : Prover μ} (hp : p.LawfulFor P) (e : SExpr) :
    CommandActs P p e := by
  induction e with
  | word text position | quotation text position =>
    intro x
    rw [command.eq_def]
    exact .throw _
  | list position items ih =>
    intro x
    rw [command.eq_def]
    cases items with
    | nil => exact .throw _
    | cons first args =>
      obtain ⟨-, hargs⟩ := List.forall_mem_cons.1 ih
      cases first with
      | quotation | list => exact .throw _
      | word head place =>
        refine count_acts.bind fun _ y _ _ ↦ ?_
        split
        · rename_i name _ body _
          obtain ⟨-, hbody⟩ := List.forall_mem_cons.1 hargs
          exact deduction_acts (some name) position hbody
        · exact deduction_acts none position hargs
        · rename_i name statement body _
          obtain ⟨-, hargs⟩ := List.forall_mem_cons.1 hargs
          obtain ⟨-, hbody⟩ := List.forall_mem_cons.1 hargs
          refine (word_acts name .notAName).bind fun name z _ _ ↦ ?_
          refine (expression_acts statement).bind fun statement w _ hstatement ↦ ?_
          refine (step_acts position (Goal.start_acts (some name) hstatement)).bind fun g u _ hg ↦
            ?_
          have hinside : P.Acts (inside g.depth (goalBlock p g body)) u
              fun g' t ↦ g'.Below t.session.state.nextVariable :=
            inside_acts (fun g' n ↦ Goal.Below n g') g.depth fun t ht ↦
              goalBlock_acts (hg.mono ht) hbody
          refine hinside.bind fun g' t _ _ ↦ ?_
          refine (step_acts position (Goal.conclude_acts g' _)).bind fun name r _ _ ↦ ?_
          exact record_acts name
        -- the counter never moves back, so the scope from before the attempt is still below it
        · refine .of_tidy fun ht ↦ .get_bind ?_
          refine (outcome_acts (block_acts hargs)).bind fun result z hmoves _ ↦ ?_
          split
          · exact .pure trivial
          · refine (modifyState_acts (Building.rollback_moves _ _)).bind fun _ w hmoves' _ ↦ ?_
            have hscope := ht.keeps.mono (Moves.nextVariable_le (hmoves.trans hmoves'))
            exact .of_modify .refl hscope trivial
          · exact .throw _
        · exact simple_acts hp _ head _ _

end Running

/-! ### Scripts -/

/-- The commands of a script act by moves, up to the one that stops it. -/
theorem runCommands_acts [P.Permissive] {p : Prover μ} (hp : p.LawfulFor P) (depth : Nat)
    (es : List SExpr) :
    P.Acts (runCommands p depth es) x fun _ _ ↦ True := by
  induction es generalizing x with
  | nil => exact .get_bind (.pure trivial)
  | cons e rest ih =>
    unfold runCommands
    refine (Running.outcome_acts (Running.commandActs hp e x)).bind fun result y _ _ ↦ ?_
    have htruncate : P.Acts (Running.modifyState (·.truncate depth)) y fun _ _ ↦ True :=
      Running.modifyState_acts (Building.truncate_moves _ _)
    split
    · exact ih
    · exact htruncate.bind fun _ z _ _ ↦ .get_bind (.pure trivial)
    · exact htruncate.bind fun _ z _ _ ↦ .throw _

/-- **Scripts act by moves**, whether they can be read or not, and however they end. -/
theorem run_moves [P.Permissive] {p : Prover μ} (hp : p.LawfulFor P) (text : String)
    (session : Session μ)
    (h : session.state.TidyFor P) : Moves P session.state (run p text session).2.state := by
  unfold run
  split
  · exact .refl
  · rename_i commands _
    have hstart : TidyFor P (Run.start session) := ⟨h, fun p hp ↦ absurd hp List.not_mem_nil⟩
    exact (runCommands_acts hp session.state.depth commands hstart).1

end NaturalDeduction.Script
