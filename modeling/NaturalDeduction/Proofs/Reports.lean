import NaturalDeduction.Proofs.Balance

/-!
# What scripts report

A script reports the names of the theorems that its goals and deductions install, as far as they are
in no other goal or deduction. A block that is tried may contain some; if it is aborted, they are
gone with all that it did, but they have been reported, and stay so (`exists_undone_report`).

`reports` is a list of what is reported and how: for each name, the deduction as it was when it was
closed, and whether it was undone later on. Following the commands, it says in order all that the
output has, and everything in it that was not undone stands in the deduction in which the script
started (`stands_of_reported`).

The names alone would not do. A name that was reported and undone may be reported again, with
another theorem, so every report carries the deduction that was closed and whether it is still meant
to stand.

Main definitions and statements:

* `Report`: a deduction that was closed at the outermost level, and whether that was undone.
* `Report.Stands`: its name stands for its theorem in the deduction in which the script started.
* `Running.Told`: the reports are what was added to the output, and stand unless they were undone.
* `Running.commandTold`, `stands_of_reported`: every command tells what it should, and so does a
  script.
-/

namespace NaturalDeduction

/-! ### Closing, if it succeeds -/

namespace Building

variable {s t : ProofState} {name : String}

/-- An installation that succeeds leaves the name with the statement, which may have been there
before. -/
theorem install_of_ok {n : String} {e : Expression} {j : Justification}
    (h : (install n e j).run.run s = (.ok name, t)) :
    name = n ∧ ∃ existing, t.current.deduction.get? name = some existing ∧
      existing.alphaEq e = true := by
  unfold install at h
  rw [run_bind_ok (run_get_eq s)] at h
  cases hinsert : s.current.deduction.insert ⟨n, e, j⟩ with
  | error existing =>
    rw [hinsert] at h
    cases h
  | ok d =>
    rw [hinsert] at h
    obtain ⟨hname, rfl⟩ := Prod.mk.inj h
    obtain rfl : n = name := Except.ok.inj hname
    refine ⟨rfl, ?_⟩
    show ∃ existing, d.get? n = some existing ∧ _
    unfold Deduction.insert at hinsert
    split at hinsert
    · rename_i existing hexisting
      split at hinsert
      · cases hinsert
        exact ⟨existing, hexisting, ‹_›⟩
      · cases hinsert
    · cases hinsert
      refine ⟨e, ?_, Expression.alphaEq_iff.2 rfl⟩
      simp [Deduction.get?, Deduction.find?]

/-- The theorem of the deduction that was closed stands outside. -/
theorem close_of_ok {given : Option String} (h : (close given).run.run s = (.ok name, t)) :
    name = given.getD s.current.deduction.name ∧
      ∃ e existing, s.current.deduction.closedTheorem? = some e ∧
        t.current.deduction.get? name = some existing ∧ existing.alphaEq e = true := by
  rw [close_run] at h
  split at h
  · cases h
  · cases h
  · rename_i e _ htheorem
    obtain ⟨hname, existing, hexisting⟩ := install_of_ok h
    exact ⟨hname, e, existing, htheorem, hexisting⟩

/-- Closing by depth that succeeds is closing what is there at that depth. -/
theorem closing_of_ok {α : Type} {act : Building α} {depth : Nat} {a : α}
    (h : (closing depth act).run.run s = (.ok a, t)) :
    act.run.run (s.truncate depth) = (.ok a, t) := by
  have hrun : (closing depth act).run.run s =
      (tryCatch act fun refusal ↦ do abandon depth; throw refusal).run.run (s.truncate depth) := rfl
  rw [hrun, run_tryCatch_eq] at h
  revert h
  rcases act.run.run (s.truncate depth) with ⟨⟨e⟩ | ⟨b⟩, u⟩ <;> intro h
  · cases h
  · exact h

end Building

/-- So is the conclusion of a goal. -/
theorem Goal.conclude_of_ok {g : Goal} {s t : ProofState} {name : String}
    (h : (conclude g).run.run s = (.ok name, t)) :
    (Building.close g.name).run.run (s.truncate g.depth) = (.ok name, t) := by
  unfold conclude at h
  split at h
  · cases h
  · have hact := Building.closing_of_ok h
    have htheorem := Building.currentTheorem_run (s.truncate g.depth)
    split at htheorem
    · rw [run_bind_ok htheorem] at hact
      split at hact
      · cases hact
      · exact hact
    · rw [run_bind_error htheorem] at hact
      cases hact

/-! ### Reports -/

namespace Script

/-- A goal or deduction of a script that was closed, with no other one around it. -/
structure Report where
  /-- The deduction as it was when it was closed. -/
  deduction : Deduction
  /-- Whether a block that it was in was aborted afterwards. -/
  undone : Bool

namespace Report

/-- The name of the theorem. -/
def name (r : Report) : String := r.deduction.name

/-- The report, if the block that it is from is aborted. -/
def undo (r : Report) : Report := { r with undone := true }

/-- Whether the name stands for the theorem of the deduction in the current deduction of a state. -/
def Stands (r : Report) (s : ProofState) : Prop :=
  ∃ e existing, r.deduction.closedTheorem? = some e ∧
    s.current.deduction.get? r.name = some existing ∧ existing.alphaEq e = true

/-- What stands goes on to stand in a state that only adds. -/
theorem Stands.balances {r : Report} {s t : ProofState} (h : r.Stands s) (hst : s.Balances t) :
    r.Stands t := by
  obtain ⟨e, existing, htheorem, hexisting, heq⟩ := h
  exact ⟨e, existing, htheorem, hst.current.get? _ _ hexisting, heq⟩

end Report

variable {μ : Type}

namespace Running

/-- Does what a goal or deduction is to do before it is closed. Answers how it is to be closed;
nothing for other commands. -/
def draft (p : Prover μ) : SExpr → Running μ (Option (Building String))
  | .list position (.word head _ :: args) => do
    count
    match Verb.ofWord? head, args with
    | some .deduction, .word name _ :: body => do
      let depth ← step position (Building.push (some name))
      inside depth (block p body)
      return some (Building.closeAt depth none)
    | some .deduction, body => do
      let depth ← step position (Building.push none)
      inside depth (block p body)
      return some (Building.closeAt depth none)
    | some .goal, name :: statement :: body => do
      let name ← word name .notAName
      let statement ← expression statement
      let g ← step position (Goal.start (some name) statement)
      let g ← inside g.depth (goalBlock p g body)
      return some g.conclude
    | _, _ => return none
  | _ => return none

/-- What is reported where a goal or deduction is to be closed, if anything is. -/
def closingReport : Except Stop (Option (Building String)) × Run μ → List Report
  | (.ok (some close), y) =>
    match (close.run.run y.session.state).1 with
    | .ok _ => [⟨y.session.state.current.deduction, false⟩]
    | .error _ => []
  | _ => []

/-- Whether a result is an abort. -/
def isAborted : Except Stop Unit → Bool
  | .error (.aborted _) => true
  | _ => false

mutual

/-- What a command reports that no goal or deduction is around. -/
def reports (p : Prover μ) : SExpr → Run μ → List Report
  | .list position (.word head place :: args), x =>
    match Verb.ofWord? head with
    | some .attempt =>
      let y := ((count : Running μ Unit).run.run x).2
      if isAborted ((block p args).run.run y).1 then (blockReports p args y).map .undo
      else blockReports p args y
    | _ => closingReport ((draft p (.list position (.word head place :: args))).run.run x)
  | _, _ => []

/-- What commands report that are run one after the other. -/
def blockReports (p : Prover μ) : List SExpr → Run μ → List Report
  | [], _ => []
  | e :: rest, x =>
    match (command p e).run.run x with
    | (.ok (), y) => reports p e x ++ blockReports p rest y
    | _ => reports p e x

end

/-! ### What is reported stands

A report is made when a deduction is closed at the outermost level. From then on the state only adds
to the deduction in which the theorem was installed, unless the report is in a block that is
aborted.
-/

variable {p : Prover μ} {x : Run μ}

/-- Whether reports are what was added to the output of a run, and stand where they were not
undone. -/
structure Told (x y : Run μ) (made : List Report) : Prop where
  proved : y.output.proved = x.output.proved ++ made.map (·.name)
  stands : ∀ r ∈ made, r.undone = false → r.Stands y.session.state

/-- Nothing reported. -/
theorem Told.nil {y : Run μ} (h : y.output.proved = x.output.proved) : Told x y [] where
  proved := by rw [h, List.map_nil, List.append_nil]
  stands _ hr := absurd hr List.not_mem_nil

/-- Reports of one part and then of the next. -/
theorem Told.append {y z : Run μ} {made made' : List Report} (h : Told x y made)
    (h' : Told y z made') (hyz : y.session.state.Balances z.session.state) :
    Told x z (made ++ made') where
  proved := by rw [h'.proved, h.proved, List.map_append, List.append_assoc]
  stands r hr hstands := by
    rcases List.mem_append.1 hr with hr | hr
    · exact (h.stands r hr hstands).balances hyz
    · exact h'.stands r hr hstands

/-- What is opened, worked on inside and closed again is reported once it is closed. -/
theorem bracket_told {α β : Type} {opening : Building α} {depth : α → Nat} {act : α → Running μ β}
    {close : α → β → Building String} (position : Position) {a : α} {s : ProofState} {name : String}
    {post : β → Prop} (hx : x.nesting = 0)
    (hopen : opening.run.run x.session.state = (.ok a, s.opened name))
    (hact : ∀ z, Leads (Run.Proceeds ProofState.Balances) (act a) z) (hyields : Yields (act a) post)
    (hclose : ∀ b t n u, post b → (s.opened name).Balances t → (close a b).run.run t = (.ok n, u) →
      n = t.current.deduction.name ∧ ∃ e existing, t.current.deduction.closedTheorem? = some e ∧
        u.current.deduction.get? n = some existing ∧ existing.alphaEq e = true) :
    Told x
      ((do
        let a ← step position opening
        let b ← inside (depth a) (act a)
        record (← step position (close a b)) : Running μ Unit).run.run x).2
      (closingReport ((do
        let a ← step position opening
        let b ← inside (depth a) (act a)
        return some (close a b) : Running μ (Option (Building String))).run.run x)) := by
  rw [run_bind_ok (step_run position hopen), run_bind_ok (step_run position hopen)]
  have hinner := hact { x with
    session := { x.session with state := s.opened name }
    nesting := x.nesting + 1 }
  rw [run_bind_eq, run_bind_eq]
  rcases hrun : (act a).run.run { x with
    session := { x.session with state := s.opened name }
    nesting := x.nesting + 1 } with ⟨⟨stop⟩ | ⟨b⟩, z⟩
  -- what was done inside failed, so nothing is closed
  · rw [Leads, hrun] at hinner
    rw [inside_run hrun]
    exact .nil (hinner.proved (Nat.succ_pos _))
  -- nothing inside is reported, as it is not at the outermost level
  · rw [Leads, hrun] at hinner
    rw [inside_run hrun]
    have hproved : z.output.proved = x.output.proved := hinner.proved (Nat.succ_pos _)
    have hnesting : z.nesting - 1 = 0 :=
      congrArg (· - 1) (hinner.nesting.trans (congrArg (· + 1) hx))
    let y : Run μ := { z with nesting := z.nesting - 1, scope := x.scope }
    show Told x ((step position (close a b) >>= record).run.run y).2
      (closingReport (.ok (some (close a b)), y))
    unfold closingReport
    dsimp only
    rcases hend : (close a b).run.run y.session.state with ⟨⟨refusal⟩ | ⟨n⟩, t⟩
    -- closing was refused
    · rw [run_bind_error (step_run_error position hend)]
      exact .nil hproved
    -- closed: the name is reported, since the nesting is back at zero
    · obtain ⟨hn, e, existing, htheorem, hexisting, heq⟩ :=
        hclose b _ n t (hyields _ b z hrun) hinner.state hend
      have hrecord : ((record n : Running μ Unit).run.run
          { y with session := { y.session with state := t } }).2 =
            { y with
              session := { y.session with state := t }
              output.proved := y.output.proved ++ [n] } := if_pos hnesting
      rw [run_bind_ok (step_run position hend), hrecord]
      refine ⟨?_, fun r hr _ ↦ ?_⟩
      · show z.output.proved ++ [n] = x.output.proved ++ [z.session.state.current.deduction.name]
        rw [hproved, hn]
      · rw [List.mem_singleton.1 hr]
        exact ⟨e, existing, htheorem, hn ▸ hexisting, heq⟩

/-- What counts as a command says nothing about the reports. -/
theorem Told.count {y : Run μ} {made : List Report}
    (h : Told ((count : Running μ Unit).run.run x).2 y made) : Told x y made := ⟨h.proved, h.stands⟩

/-- A deduction at the outermost level reports what it closes with. -/
theorem deduction_told (hp : p.Respects ProofState.Balances) (hx : x.nesting = 0)
    (name : Option String) (position : Position) (body : List SExpr) :
    Told x
      ((do
        let depth ← step position (Building.push name)
        inside depth (block p body)
        record (← step position (Building.closeAt depth none)) : Running μ Unit).run.run x).2
      (closingReport ((do
        let depth ← step position (Building.push name)
        inside depth (block p body)
        return some (Building.closeAt depth none) :
          Running μ (Option (Building String))).run.run x)) := by
  obtain ⟨s, text, hrun, -⟩ :=
    Building.exists_push_run (R := ProofState.Balances) name x.session.state
  refine bracket_told position hx hrun (fun _ ↦ block_proceeds fun e _ ↦ commandKeeps hp e)
    (Yields.trivial _) fun _ t n u _ ht hclose ↦ ?_
  have hclosed := Building.closing_of_ok hclose
  have hdepth : t.depth = s.depth + 1 := ht.depth
  rw [← hdepth, t.truncate_depth] at hclosed
  exact Building.close_of_ok hclosed

/-- What is done before a goal is started reports nothing. -/
theorem told_of_quiet {α : Type} {act : Running μ α} {next : α → Running μ Unit}
    {next' : α → Running μ (Option (Building String))}
    (h : Leads (Run.Quiet ProofState.Balances) act x)
    (hnext : ∀ a y, x.Quiet ProofState.Balances y →
      Told y ((next a).run.run y).2 (closingReport ((next' a).run.run y))) :
    Told x ((act >>= next).run.run x).2 (closingReport ((act >>= next').run.run x)) := by
  rw [run_bind_eq, run_bind_eq]
  unfold Leads at h
  revert h
  rcases act.run.run x with ⟨⟨stop⟩ | ⟨a⟩, y⟩ <;> intro h
  · exact .nil h.proved
  · have hy := hnext a y h
    exact ⟨hy.proved.trans (congrArg (· ++ _) h.proved), hy.stands⟩

/-- A goal that was started reports its conclusion. -/
theorem started_goal_told (hp : p.Respects ProofState.Balances) (hx : x.nesting = 0) (name : String)
    (statement : Expression) (position : Position) (body : List SExpr) :
    Told x
      ((do
        let g ← step position (Goal.start (some name) statement)
        let g ← inside g.depth (goalBlock p g body)
        record (← step position g.conclude) : Running μ Unit).run.run x).2
      (closingReport ((do
        let g ← step position (Goal.start (some name) statement)
        let g ← inside g.depth (goalBlock p g body)
        return some g.conclude : Running μ (Option (Building String))).run.run x)) := by
  let s := x.session.state
  have hstart : (Goal.start (some name) statement).run.run x.session.state =
      (.ok ⟨some name, statement, statement, .untouched, s.depth + 1⟩, s.opened name) := rfl
  refine bracket_told position hx hstart (fun _ ↦ goalBlock_proceeds _ fun e _ ↦ commandKeeps hp e)
    (goalBlock_yields p _ body) fun g t n u hg ht hclose ↦ ?_
  have hclosed := Goal.conclude_of_ok hclose
  have hdepth : t.depth = g.depth := ht.depth.trans hg.depth.symm
  rw [← hdepth, t.truncate_depth, hg.name] at hclosed
  obtain ⟨hn, htheorem⟩ := Building.close_of_ok hclosed
  have hname : t.current.deduction.name = name := ht.current.name
  exact ⟨hn.trans hname.symm, htheorem⟩

/-- The command for a goal reads its name and statement first, which reports nothing. -/
theorem goal_told (hp : p.Respects ProofState.Balances) (hx : x.nesting = 0)
    (name statement : SExpr) (position : Position) (body : List SExpr) :
    Told x
      ((do
        let name ← word name .notAName
        let statement ← expression statement
        let g ← step position (Goal.start (some name) statement)
        let g ← inside g.depth (goalBlock p g body)
        record (← step position g.conclude) : Running μ Unit).run.run x).2
      (closingReport ((do
        let name ← word name .notAName
        let statement ← expression statement
        let g ← step position (Goal.start (some name) statement)
        let g ← inside g.depth (goalBlock p g body)
        return some g.conclude : Running μ (Option (Building String))).run.run x)) := by
  refine told_of_quiet (word_quiet name .notAName) fun name y hy ↦ ?_
  refine told_of_quiet (expression_quiet statement) fun statement z hz ↦ ?_
  have hz' : z.nesting = 0 := hz.nesting.trans (hy.nesting.trans hx)
  exact started_goal_told hp hz' name statement position body

/-- What is reported in a block that is aborted has been undone. -/
theorem Told.undo {y : Run μ} {made : List Report} (h : Told x y made) (s : ProofState)
    (scope : Scope) :
    Told x { y with session := { y.session with state := s }, scope := scope }
      (made.map .undo) where
  proved := by
    rw [List.map_map]
    exact h.proved
  stands r hr hstands := by
    obtain ⟨r', -, rfl⟩ := List.mem_map.1 hr
    cases hstands

/-- Whether a command reports what it should. -/
def CommandTold (p : Prover μ) (e : SExpr) : Prop :=
  ∀ x : Run μ, x.nesting = 0 → Told x ((command p e).run.run x).2 (reports p e x)

/-- A block reports what its commands do, in their order. -/
theorem block_told (hp : p.Respects ProofState.Balances) {es : List SExpr}
    (h : ∀ e ∈ es, CommandTold p e) (hx : x.nesting = 0) :
    Told x ((block p es).run.run x).2 (blockReports p es x) := by
  induction es generalizing x with
  | nil =>
    rw [block]
    exact .nil rfl
  | cons e rest ih =>
    obtain ⟨he, hrest⟩ := List.forall_mem_cons.1 h
    have hcommand := he x hx
    have hproceeds := commandKeeps hp e x
    rw [block, blockReports, run_bind_eq]
    rw [Leads] at hproceeds
    rcases hrun : (command p e).run.run x with ⟨⟨stop⟩ | ⟨⟨⟩⟩, y⟩
    · rw [hrun] at hcommand
      exact hcommand
    · rw [hrun] at hcommand hproceeds
      have hy : y.nesting = 0 := hproceeds.nesting.trans hx
      have hblock : Leads (Run.Proceeds ProofState.Balances) (block p rest) y :=
        block_proceeds fun e _ ↦ commandKeeps hp e
      exact hcommand.append (ih hrest hy) hblock.state

/-- A block that is tried reports what was in it. If it is aborted, that is undone. -/
theorem attempt_told {body : List SExpr}
    (h : Told x ((block p body).run.run x).2 (blockReports p body x)) :
    Told x
      ((do
        let run ← get
        let checkpoint := run.session.state.checkpoint
        match ← outcome (block p body) with
        | .ok () => return
        | .error (.aborted _) => do
          modifyState (·.rollback checkpoint)
          modify fun run' ↦ { run' with scope := run.scope }
        | .error stop => throw stop : Running μ Unit).run.run x).2
      (if isAborted ((block p body).run.run x).1 then (blockReports p body x).map .undo
        else blockReports p body x) := by
  show Told x ((match ((block p body).run.run x).1 with
    | .ok () => return
    | .error (.aborted _) => do
      modifyState (·.rollback x.session.state.checkpoint)
      modify fun run' ↦ { run' with scope := x.scope }
    | .error stop => throw stop : Running μ Unit).run.run
      ((block p body).run.run x).2).2 _
  revert h
  rcases (block p body).run.run x with ⟨⟨stop⟩ | ⟨⟨⟩⟩, y⟩ <;> intro h
  · cases stop with
    | aborted abort => exact h.undo _ _
    | unreadable | malformed | refused | failed | unexpected => exact h
  · exact h

/-- **Commands report** what they install, and what they report stands unless it was undone. -/
theorem commandTold (hp : p.Respects ProofState.Balances) (e : SExpr) : CommandTold p e := by
  induction e with
  | word text position | quotation text position =>
    intro x _
    rw [command.eq_def, reports]
    · exact .nil rfl
    · simp
  | list position items ih =>
    intro x hx
    cases items with
    | nil =>
      rw [command.eq_def, reports]
      · exact .nil rfl
      · simp
    | cons first args =>
      obtain ⟨-, hargs⟩ := List.forall_mem_cons.1 ih
      cases first with
      | quotation | list =>
        rw [command.eq_def, reports]
        · exact .nil rfl
        · simp
      | word head place =>
        have hy : ((count : Running μ Unit).run.run x).2.nesting = 0 := hx
        have hcount : ∀ {α : Type} (act : Running μ α), (do count; act : Running μ α).run.run x =
            act.run.run ((count : Running μ Unit).run.run x).2 := fun _ ↦ rfl
        -- a command that contains no others reports nothing
        have hsimple : ∀ verb, Told x
            ((do count; simple p (.list position (.word head place :: args)) head verb args :
              Running μ Unit).run.run x).2 [] := fun verb ↦ by
          have hquiet : Leads (Run.Quiet ProofState.Balances) (do
              count
              simple p (.list position (.word head place :: args)) head verb args) x :=
            count_quiet.bind fun _ _ ↦ simple_quiet hp _ head verb args
          exact .nil hquiet.proved
        rw [command.eq_def, reports]
        unfold draft
        dsimp only
        cases hverb : Verb.ofWord? head with
        | none => exact hsimple none
        | some verb =>
          cases verb with
          | deduction =>
            cases args with
            | nil => exact (deduction_told hp hy none position []).count
            | cons first body =>
              cases first with
              | word name _ => exact (deduction_told hp hy (some name) position body).count
              | quotation | list => exact (deduction_told hp hy none position _).count
          | goal =>
            match args with
            | [] | [_] => exact hsimple _
            | name :: statement :: body =>
              exact (goal_told hp hy name statement position body).count
          | attempt =>
            exact (attempt_told (block_told hp hargs hy)).count
          | _ => exact hsimple _

end Running

/-- What a script reports. -/
def reports (p : Prover μ) (text : String) (session : Session μ) : List Report :=
  match SExpr.parse text with
  | .ok commands => Running.blockReports p commands (.start session)
  | .error _ => []

/-- However a script ends, its reports are in the output, which is what is answered. -/
theorem runCommands_told {p : Prover μ} (hp : p.Respects ProofState.Balances) {x : Run μ}
    (hx : x.nesting = 0) (es : List SExpr) :
    let ran := (runCommands p x.session.state.depth es).run.run x
    Running.Told x ran.2 (Running.blockReports p es x) ∧
      ∀ output, ran.1 = .ok output → output.proved = ran.2.output.proved := by
  induction es generalizing x with
  | nil =>
    refine ⟨.nil rfl, fun output houtput ↦ ?_⟩
    cases houtput
    rfl
  | cons e rest ih =>
    have htold := Running.commandTold hp e x hx
    have hproceeds : x.Proceeds ProofState.Balances ((Running.command p e).run.run x).2 :=
      Running.commandKeeps hp e x
    have hrun : (runCommands p x.session.state.depth (e :: rest)).run.run x =
        (match ((Running.command p e).run.run x).1 with
        | .ok () => runCommands p x.session.state.depth rest
        | .error (.aborted abort) => do
          Running.modifyState (·.truncate x.session.state.depth)
          return { (← get).output with aborted := some abort }
        | .error stop => do
          Running.modifyState (·.truncate x.session.state.depth)
          throw stop : Running μ Output).run.run ((Running.command p e).run.run x).2 := rfl
    rw [hrun, Running.blockReports]
    revert htold hproceeds
    rcases (Running.command p e).run.run x with ⟨⟨stop⟩ | ⟨⟨⟩⟩, y⟩ <;> intro htold hproceeds
    · -- nothing is open that would have to be discarded
      have htruncate : y.session.state.truncate x.session.state.depth = y.session.state := by
        rw [← hproceeds.state.depth, ProofState.truncate_depth]
      have hstays : Running.Told x
          { y with session := { y.session with
            state := y.session.state.truncate x.session.state.depth } }
          (Running.reports p e x) := ⟨htold.proved, htruncate.symm ▸ htold.stands⟩
      cases stop with
      | aborted abort =>
        refine ⟨hstays, fun output houtput ↦ ?_⟩
        cases houtput
        rfl
      | unreadable | malformed | refused | failed | unexpected =>
        exact ⟨hstays, fun _ houtput ↦ nomatch houtput⟩
    · have hy : y.nesting = 0 := hproceeds.nesting.trans hx
      have hdepth : y.session.state.depth = x.session.state.depth := hproceeds.state.depth
      obtain ⟨hrest, houtput⟩ := ih hy
      have hkeeps := runCommands_keeps (R := ProofState.Balances) hp
        (StepRelation.refl y.session.state) rest
      rw [hdepth] at hrest houtput hkeeps
      exact ⟨htold.append hrest hkeeps, houtput⟩

end Script

/-! ### The theorem -/

variable {μ : Type}

/-- **What a script reports stands**, unless it was undone. If a script is run to its end or to an
abort, then the names that it reports are those of the goals and deductions that were closed with no
other one around them, in order; and each name whose goal or deduction is not in a block that was
aborted afterwards stands, in the deduction in which the script started, for the theorem of its
deduction. -/
theorem stands_of_reported {external : External μ}
    (hexternal : external.Respects ProofState.Balances)
    (text : String) (session t : Session μ) (output : Script.Output)
    (hrun : Script.run (Search.prover external) text session = (.ok output, t)) :
    output.proved = (Script.reports (Search.prover external) text session).map (·.name) ∧
      t.state.depth = session.state.depth ∧
      ∀ r ∈ Script.reports (Search.prover external) text session, r.undone = false →
        ∃ e existing, r.deduction.closedTheorem? = some e ∧
          t.state.current.deduction.get? r.name = some existing ∧ existing.alphaEq e = true := by
  have hprover := Search.prover_respects hexternal
  have hbalances := Script.run_keeps hprover text session
  rw [hrun] at hbalances
  unfold Script.run at hrun
  unfold Script.reports
  split at hrun
  · cases hrun
  · rename_i commands hparse
    obtain ⟨htold, houtput⟩ := Script.runCommands_told hprover (x := .start session) rfl commands
    obtain ⟨hresult, rfl⟩ := Prod.mk.inj hrun
    rw [hparse]
    exact ⟨(houtput output hresult).trans htold.proved, hbalances.depth, htold.stands⟩

/-- A goal; a deduction in a block that is not aborted; a goal in one that is; and an abort. -/
theorem stands_of_reported_tried :
    let session : Session Unit := ⟨(Host.start 0 16 ()).bench.state, ()⟩
    let text :=
      "(goal g (= 1 1) (autodeduce (= 1 1))) (try (deduction d (suppose p) (verify (= 2 2)))) " ++
      "(try (goal lost (= 3 3) (verify (= 3 3))) (abort)) (abort done)"
    let made := Script.reports (Search.prover .none) text session
    made.map (·.undone) = [false, false, true] ∧
      ∃ output t, Script.run (Search.prover .none) text session = (.ok output, t) ∧
        output.proved = ["g", "d", "lost"] ∧
        ∀ r ∈ made, r.undone = false → ∃ e existing, r.deduction.closedTheorem? = some e ∧
          t.state.current.deduction.get? r.name = some existing ∧ existing.alphaEq e = true := by
  intro session text made
  have hnames : made.map (·.name) = ["g", "d", "lost"] := by decide +kernel
  have hok : (Script.run (Search.prover .none) text session).1.isOk = true := by decide +kernel
  refine ⟨by decide +kernel, ?_⟩
  rcases hrun : Script.run (Search.prover .none) text session with ⟨⟨stop⟩ | ⟨output⟩, t⟩
  · rw [hrun] at hok
    cases hok
  · obtain ⟨hproved, -, hstands⟩ :=
      stands_of_reported External.none_respects text session t output hrun
    exact ⟨output, t, rfl, hproved.trans hnames, hstands⟩

/-- What is installed in a block that is aborted afterwards is reported and gone. -/
theorem exists_undone_report :
    ∃ (session t : Session Unit) (text name : String) (output : Script.Output),
      Script.run (Search.prover .none) text session = (.ok output, t) ∧ name ∈ output.proved ∧
        t.state.current.deduction.get? name = none := by
  let session : Session Unit := ⟨(Host.start 0 16 ()).bench.state, ()⟩
  let text := "(try (goal g (= 1 1) (autodeduce (= 1 1))) (abort))"
  have hproved : ((Script.run (Search.prover .none) text session).1.toOption.map (·.proved)) =
      some ["g"] := by decide +kernel
  have hgone : ((Script.run (Search.prover .none) text session).2.state.current.deduction.find?
      "g").isNone = true := by decide +kernel
  rcases hrun : Script.run (Search.prover .none) text session with ⟨⟨stop⟩ | ⟨output⟩, t⟩
  · rw [hrun] at hproved
    cases hproved
  · rw [hrun] at hproved hgone
    have hname : output.proved = ["g"] := Option.some.inj hproved
    refine ⟨session, t, text, "g", output, hrun, hname ▸ List.mem_cons_self, ?_⟩
    rw [Deduction.get?, Option.isNone_iff_eq_none.1 hgone]
    rfl

end NaturalDeduction
