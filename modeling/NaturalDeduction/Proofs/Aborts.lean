import NaturalDeduction.Proofs.Untraced

/-!
# Who catches an abort

An abort ends what it comes up in, and what is around that, up to a catcher. There are two sorts of
catchers. An attempt with a name catches the aborts that are for this name or for nobody in
particular, and lets the others pass. A `try` block of a script has no name, and catches them all:
also those that are for somebody else (`exists_misdirected_abort`). Nothing else catches an abort:
what comes before or after in a sequence, the deductions and goals that are open, searches and the
rules that they are trying, and the writing out of abbreviations all let it pass.

What is around what is said one layer at a time (`Within`). Layers are put together in any order and
any number (`Encloses`). An abort is followed through one layer (`Within.stops`, `Within.caught`)
and then through all of them, from the inside out (`Encloses.stops`, `Encloses.caught`). That
nothing is tried behind an abort is also seen by what is never set back, whatever is undone: a
user's memory and the counters of names and variables.

Main definitions and statements:

* `Catcher.catches`: which aborts a catcher catches, from the abort and the catcher alone.
* `Activity`: an attempt or a part of a script together with the session that it is run on, so
  that both kinds of computation can be around one another.
* `Within`, `Encloses`: one layer, and any number of them, with the catchers between the two ends.
* `caught_by_innermost`: an abort that comes up anywhere is caught by the innermost catcher around
  it that catches it, and by none if there is none.
-/

namespace NaturalDeduction

variable {μ : Type}

/-- What is never set back: a user's memory and the counters of names and variables. -/
def Session.lasting (x : Session μ) : μ × Nat × Nat :=
  (x.memory, x.state.nextName, x.state.nextVariable)

/-- Leaving deductions sets neither counter back. -/
theorem ProofState.lasting_truncate (s : ProofState) (depth : Nat) :
    (s.truncate depth).nextName = s.nextName ∧
      (s.truncate depth).nextVariable = s.nextVariable := by
  unfold truncate
  split <;> exact ⟨rfl, rfl⟩

/-- Neither going back nor discarding deductions sets it back. -/
theorem Session.lasting_truncate (x : Session μ) (depth : Nat) :
    Session.lasting { x with state := x.state.truncate depth } = x.lasting := by
  obtain ⟨hname, hvariable⟩ := x.state.lasting_truncate depth
  exact congrArg₂ (fun n m ↦ (x.memory, n, m)) hname hvariable

/-- Nor does undoing, so an attempt that was given up can still be told from one that was never
made. -/
theorem Session.lasting_rollback (x : Session μ) (c : Checkpoint) :
    Session.lasting { x with state := x.state.rollback c } = x.lasting :=
  x.lasting_truncate c.depth

/-! ### Catchers -/

/-- What may catch an abort. -/
inductive Catcher where
  /-- An attempt that catches aborts, with or without a name. -/
  | attempt (name : Option String)
  /-- A `try` block. -/
  | block
  deriving DecidableEq

/-- Whether a catcher catches an abort. A block does, whoever the abort is for. -/
def Catcher.catches (abort : Abort) : Catcher → Bool
  | attempt name => Attempt.catches name abort
  | block => true

/-- Makes an attempt in the deduction that was opened at `depth`, which is discarded if the attempt
does not succeed. -/
def Attempt.guarded {α : Type} (depth : Nat) (act : Attempt μ α) : Attempt μ α := do
  match ← outcome act with
  | .ok a => return a
  | .error setback => do
    step (Building.abandon depth)
    throw setback

/-! ### Activities inside one another -/

/-- A computation and what it is run on. -/
inductive Activity (μ : Type) : Type 1 where
  | attempt {α : Type} (act : Attempt μ α) (x : Session μ)
  | running {α : Type} (act : Script.Running μ α) (r : Script.Run μ)

/-- Whether an activity ends with an abort, and what is never set back is then `lasting`. -/
def Activity.Stops (abort : Abort) (lasting : μ × Nat × Nat) : Activity μ → Prop
  | attempt act x => ∃ y, act.run.run x = (.error (.aborted abort), y) ∧ y.lasting = lasting
  | running act r => ∃ s, act.run.run r = (.error (.aborted abort), s) ∧ s.session.lasting = lasting

open Attempt Script Script.Running in
/-- Whether one activity runs directly inside another one, which is a catcher or is none. -/
inductive Within : Option Catcher → Activity μ → Activity μ → Prop
  /-- What comes first. -/
  | first {α β : Type} (act : Attempt μ α) (next : α → Attempt μ β) (x : Session μ) :
      Within none (.attempt act x) (.attempt (act >>= next) x)
  /-- What comes next, when what comes first is over. -/
  | next {α β : Type} {act : Attempt μ α} {x y : Session μ} {a : α}
      (hrun : act.run.run x = (.ok a, y)) (next : α → Attempt μ β) :
      Within none (.attempt (next a) y) (.attempt (act >>= next) x)
  /-- A deduction was opened. -/
  | guarded {α : Type} (depth : Nat) (act : Attempt μ α) (x : Session μ) :
      Within none (.attempt act x) (.attempt (guarded depth act) x)
  | catching {α : Type} (name : Option String) (act : Attempt μ α) (x : Session μ) :
      Within (some (.attempt name)) (.attempt act x) (.attempt (catchAbort name act) x)
  /-- A rule is tried by a search. -/
  | rule {run : Rule → Bindings → Attempt μ String} {goal : Expression} {rule : Rule}
      {bindings : Bindings} (hmatch : rule.pattern.match? goal = some bindings) (rest : List Rule)
      (x : Session μ) :
      Within none (.attempt (run rule bindings) x)
        (.attempt (Search.tryRules run goal (rule :: rest)) x)
  /-- A search is counted. -/
  | counted (act : Attempt μ String) (x : Session μ) :
      Within none
        (.attempt act { x with state := { x.state with searching := x.state.searching + 1 } })
        (.attempt (Search.counted act) x)
  /-- A definition is looked for, to write an abbreviation out. -/
  | definition {p : Prover μ} {name : String} {statement expansion : Expression} {index : Nat}
      {x y z : Session μ} (budget : Nat)
      (hlookup : (step (Building.lookup name) : Attempt μ _).run.run x = (.ok statement, y))
      (hquantified : ∀ v body, statement ≠ .binder .universal v body)
      (hexpand : (step (Building.expand? statement) : Attempt μ _).run.run y =
        (.ok (some (index, expansion)), z)) :
      Within none (.attempt (p.prove (.equals statement expansion)) z)
        (.attempt (p.exposeWithin (budget + 1) name) x)
  /-- A command makes an attempt. -/
  | command {α : Type} (position : Position) (act : Attempt μ α) (r : Run μ) :
      Within none (.attempt act r.session) (.running (Running.attempt position act) r)
  | commandsFirst {α β : Type} (act : Running μ α) (next : α → Running μ β) (r : Run μ) :
      Within none (.running act r) (.running (act >>= next) r)
  | commandsNext {α β : Type} {act : Running μ α} {r s : Run μ} {a : α}
      (hrun : act.run.run r = (.ok a, s)) (next : α → Running μ β) :
      Within none (.running (next a) s) (.running (act >>= next) r)
  /-- A goal or a deduction of a script was opened. -/
  | inside {α : Type} (depth : Nat) (act : Running μ α) (r : Run μ) :
      Within none (.running act { r with nesting := r.nesting + 1 }) (.running (inside depth act) r)
  | block (p : Prover μ) (position place : Position) (body : List SExpr) (r : Run μ) :
      Within (some .block) (.running (do count; block p body) r)
        (.running (command p (.list position (.word "try" place :: body))) r)

/-- Whether one activity runs inside another one, and which catchers are between the two, the
innermost first. -/
inductive Encloses : List Catcher → Activity μ → Activity μ → Prop
  | refl (a : Activity μ) : Encloses [] a a
  | layer {catcher : Option Catcher} {between : List Catcher} {a b c : Activity μ}
      (hwithin : Within catcher a b) (h : Encloses between b c) :
      Encloses (catcher.toList ++ between) a c

/-! ### One layer -/

variable {abort : Abort} {lasting : μ × Nat × Nat}

/-- Whether an activity ends with an abort caught: what was done is undone, and a script goes on. -/
inductive Activity.Caught (abort : Abort) (lasting : μ × Nat × Nat) : Activity μ → Prop
  | attempt {α : Type} {act : Attempt μ (Except Abort α)} {x y : Session μ}
      (hrun : act.run.run x =
        (.ok (.error abort), { y with state := y.state.rollback x.state.checkpoint }))
      (hlasting : y.lasting = lasting) : Caught abort lasting (.attempt act x)
  | running {act : Script.Running μ Unit} {r s : Script.Run μ}
      (hrun : act.run.run r = (.ok (), { s with
        session := { s.session with
          state := s.session.state.rollback r.session.state.checkpoint }
        scope := r.scope }))
      (hlasting : s.session.lasting = lasting) : Caught abort lasting (.running act r)

namespace Attempt

variable {α : Type} {x y : Session μ}

/-- A guard discards the deduction that it opened and passes the abort on. -/
theorem guarded_run_aborted {act : Attempt μ α}
    (h : act.run.run x = (.error (.aborted abort), y)) (depth : Nat) :
    (guarded depth act).run.run x =
      (.error (.aborted abort), { y with state := y.state.truncate (depth - 1) }) :=
  outcome_bind_run h _

/-- What becomes of an abort in an attempt with a name. -/
theorem catchAbort_run_aborted {act : Attempt μ α}
    (h : act.run.run x = (.error (.aborted abort), y)) (name : Option String) :
    (catchAbort name act).run.run x =
      if catches name abort then
        (.ok (.error abort), { y with state := y.state.rollback x.state.checkpoint })
      else (.error (.aborted abort), y) := by
  rw [catchAbort, proofState_bind_run, outcome_bind_run h]
  dsimp only
  split <;> rfl

/-- Behind an abort no rule is tried, whatever the rules are that are left. -/
theorem tryRules_run_aborted {run : Rule → Bindings → Attempt μ String} {goal : Expression}
    {rule : Rule} {bindings : Bindings} (hmatch : rule.pattern.match? goal = some bindings)
    (h : (run rule bindings).run.run x = (.error (.aborted abort), y)) (rest : List Rule) :
    (Search.tryRules run goal (rule :: rest)).run.run x =
      (.error (.aborted abort), { y with state := y.state.rollback x.state.checkpoint }) := by
  rw [Search.tryRules_cons_run hmatch, h]

/-- A search counts itself out again when it ends in an abort. -/
theorem counted_run_aborted {act : Attempt μ String}
    (h : act.run.run { x with state := { x.state with searching := x.state.searching + 1 } } =
      (.error (.aborted abort), y)) :
    (Search.counted act).run.run x = (.error (.aborted abort),
      { y with state := { y.state with searching := y.state.searching - 1 } }) := by
  rw [Search.counted_run, h]

/-- An abort that comes up while a notation is written out is not taken for a failed expansion. -/
theorem exposeWithin_run_aborted {p : Prover μ} {name : String} {statement expansion : Expression}
    {index : Nat} {w z : Session μ} (budget : Nat)
    (hlookup : (step (Building.lookup name) : Attempt μ _).run.run x = (.ok statement, w))
    (hquantified : ∀ v body, statement ≠ .binder .universal v body)
    (hexpand : (step (Building.expand? statement) : Attempt μ _).run.run w =
      (.ok (some (index, expansion)), z))
    (h : (p.prove (.equals statement expansion)).run.run z = (.error (.aborted abort), y)) :
    (p.exposeWithin (budget + 1) name).run.run x = (.error (.aborted abort), y) := by
  rw [Prover.exposeWithin, run_bind_ok hlookup]
  split
  · exact absurd rfl (hquantified _ _)
  · rw [run_bind_ok hexpand]
    dsimp only
    rw [outcome_bind_run h]
    rfl

end Attempt

/-- Nor does a goal or deduction of a script catch anything; it is discarded. -/
theorem Script.Running.inside_run_aborted {α : Type} {act : Script.Running μ α}
    {r s : Script.Run μ}
    (h : act.run.run { r with nesting := r.nesting + 1 } = (.error (.aborted abort), s))
    (depth : Nat) :
    (inside depth act).run.run r = (.error (.aborted abort), { s with
      session := { s.session with state := s.session.state.truncate (depth - 1) }
      scope := r.scope
      nesting := s.nesting - 1 }) := by
  rw [inside_run h]
  rfl

/-- **One layer** lets an abort pass, unless it is a catcher that the abort is for. -/
theorem Within.stops {catcher : Option Catcher} {a b : Activity μ} (h : Within catcher a b)
    (hstops : a.Stops abort lasting) (hpass : ∀ k ∈ catcher, k.catches abort = false) :
    b.Stops abort lasting := by
  cases h with
  | first act next x =>
    obtain ⟨y, hrun, hlasting⟩ := hstops
    exact ⟨y, run_bind_error hrun, hlasting⟩
  | next hover next =>
    obtain ⟨z, hrun, hlasting⟩ := hstops
    exact ⟨z, (run_bind_ok hover).trans hrun, hlasting⟩
  | guarded depth act x =>
    obtain ⟨y, hrun, hlasting⟩ := hstops
    exact ⟨_, Attempt.guarded_run_aborted hrun depth, (y.lasting_truncate _).trans hlasting⟩
  | catching name act x =>
    obtain ⟨y, hrun, hlasting⟩ := hstops
    have hcatches : Attempt.catches name abort = false := hpass _ rfl
    refine ⟨y, ?_, hlasting⟩
    rw [Attempt.catchAbort_run_aborted hrun, hcatches]
    rfl
  | rule hmatch rest x =>
    obtain ⟨y, hrun, hlasting⟩ := hstops
    exact ⟨_, Attempt.tryRules_run_aborted hmatch hrun rest, (y.lasting_rollback _).trans hlasting⟩
  | counted act x =>
    obtain ⟨y, hrun, hlasting⟩ := hstops
    exact ⟨_, Attempt.counted_run_aborted hrun, hlasting⟩
  | definition budget hlookup hquantified hexpand =>
    obtain ⟨y, hrun, hlasting⟩ := hstops
    exact ⟨y, Attempt.exposeWithin_run_aborted budget hlookup hquantified hexpand hrun, hlasting⟩
  | command position act r =>
    obtain ⟨y, hrun, hlasting⟩ := hstops
    refine ⟨{ r with session := y }, ?_, hlasting⟩
    show ((act.run.run r.session).1.mapError _, { r with session := (act.run.run r.session).2 }) = _
    rw [hrun]
    rfl
  | commandsFirst act next r =>
    obtain ⟨s, hrun, hlasting⟩ := hstops
    exact ⟨s, run_bind_error hrun, hlasting⟩
  | commandsNext hover next =>
    obtain ⟨s, hrun, hlasting⟩ := hstops
    exact ⟨s, (run_bind_ok hover).trans hrun, hlasting⟩
  | inside depth act r =>
    obtain ⟨s, hrun, hlasting⟩ := hstops
    exact ⟨_, Script.Running.inside_run_aborted hrun depth,
      (s.session.lasting_truncate _).trans hlasting⟩
  -- a block catches every abort
  | block => cases hpass _ rfl

/-- **A catcher** catches what is for it, and goes on behind it. -/
theorem Within.caught {catcher : Catcher} {a b : Activity μ} (h : Within (some catcher) a b)
    (hstops : a.Stops abort lasting) (hcatches : catcher.catches abort = true) :
    b.Caught abort lasting := by
  cases h with
  | catching name act x =>
    obtain ⟨y, hrun, hlasting⟩ := hstops
    exact .attempt ((Attempt.catchAbort_run_aborted hrun name).trans (if_pos hcatches)) hlasting
  | block p position place body r =>
    obtain ⟨s, hrun, hlasting⟩ := hstops
    exact .running (Script.Running.command_try_run p position place body r hrun) hlasting

/-! ### All layers -/

namespace Encloses

variable {before after between : List Catcher} {a b c : Activity μ}

/-- One layer that catches nothing. -/
theorem of_within (h : Within none a b) : Encloses [] a b := layer h (refl b)

/-- Layers inside layers, with their catchers from the inside out. -/
theorem trans (h : Encloses before a b) (h' : Encloses after b c) :
    Encloses (before ++ after) a c := by
  induction h with
  | refl => exact h'
  | layer hwithin _ ih =>
    rw [List.append_assoc]
    exact .layer hwithin (ih h')

/-- An abort passes all layers that are around it, if it is for none of the catchers among them. -/
theorem stops (h : Encloses between a b) (hstops : a.Stops abort lasting)
    (hpass : ∀ k ∈ between, k.catches abort = false) : b.Stops abort lasting := by
  induction h with
  | refl => exact hstops
  | layer hwithin _ ih =>
    obtain ⟨hcatcher, hbetween⟩ := List.forall_mem_append.1 hpass
    exact ih (hwithin.stops hstops fun k hk ↦ hcatcher k (Option.mem_toList.2 hk)) hbetween

/-- The innermost of the catchers that an abort is for catches it. -/
theorem caught (h : Encloses between a c) (hstops : a.Stops abort lasting) {catcher : Catcher}
    (hfind : between.find? (·.catches abort) = some catcher) :
    ∃ before after b b', between = before ++ catcher :: after ∧
      (∀ k ∈ before, k.catches abort = false) ∧ Encloses before a b ∧
      Within (some catcher) b b' ∧ b'.Caught abort lasting ∧ Encloses after b' c := by
  induction h with
  | refl => cases hfind
  | @layer k between a b c hwithin hencloses ih =>
    cases hk : k.toList.find? (·.catches abort) with
    | some found =>
      rw [List.find?_append, hk] at hfind
      obtain rfl : found = catcher := Option.some.inj hfind
      cases k with
      | none => cases hk
      | some k =>
        obtain ⟨hcatches, rfl⟩ : k.catches abort = true ∧ k = found := by simpa using hk
        exact ⟨[], between, a, b, rfl, nofun, refl a, hwithin, hwithin.caught hstops hcatches,
          hencloses⟩
    | none =>
      rw [List.find?_append, hk] at hfind
      have hpass : ∀ k' ∈ k.toList, k'.catches abort = false := by simpa using hk
      have hstops' := hwithin.stops hstops fun k' hk' ↦ hpass k' (Option.mem_toList.2 hk')
      obtain ⟨before, after, d, d', hbetween, hbefore, hinner, hcatcher, hcaught, hafter⟩ :=
        ih hstops' hfind
      refine ⟨k.toList ++ before, after, d, d', ?_, ?_, .layer hwithin hinner, hcatcher, hcaught,
        hafter⟩
      · rw [hbetween, List.append_assoc]
      · exact List.forall_mem_append.2 ⟨hpass, hbefore⟩

end Encloses

/-! ### Searches and scripts as layers

Searches and the commands of scripts are made of the layers above. So whatever a rule, a goal or a
deduction is nested in is around it in the sense of `Encloses`. -/

/-- Reading the state is no layer of its own. -/
theorem Within.proofState_bind {α : Type} {x : Session μ} (next : ProofState → Attempt μ α)
    {act : Attempt μ α} (h : next x.state = act) :
    Within none (.attempt act x) (.attempt (Attempt.proofState >>= next) x) :=
  h ▸ .next (show (Attempt.proofState : Attempt μ _).run.run x = (.ok x.state, x) from rfl) next

namespace Encloses

open Attempt Search

/-- The search is the one with the number of levels that are left. -/
theorem prove (external : External μ) (goal : Expression) (x : Session μ) :
    let levels := max x.state.searchLimit external.reach - x.state.searching
    Encloses [] (.attempt (Search.proveAt external levels goal) x)
      (.attempt (Search.prove external goal) x) :=
  of_within (.proofState_bind
    (fun s ↦ Search.proveAt external (max s.searchLimit external.reach - s.searching) goal) rfl)

/-- A search that has to try rules tries them inside itself. -/
theorem proveAt {external : External μ} {goal : Expression} {x : Session μ} (levels : Nat)
    (hrecall : x.state.«recall?» goal = none) (hevaluate : ¬ (goal.evaluate matches .ok true))
    (hlimit : x.state.searching < x.state.searchLimit) :
    Encloses []
      (.attempt (tryRules (fun rule ↦
          (Prover.runTactic ⟨Search.proveAt external levels, external.slack⟩ external rule.tactic ·
            goal)) goal (x.state.frames.flatMap (·.rules)))
        { x with state := { x.state with searching := x.state.searching + 1 } })
      (.attempt (Search.proveAt external (levels + 1) goal) x) := by
  refine .layer (.counted _ x) (of_within ?_)
  rw [Search.proveAt]
  refine .proofState_bind _ ?_
  dsimp only
  rw [hrecall]
  exact (if_neg hevaluate).trans (if_neg (Nat.not_le_of_lt hlimit))

open Script Script.Running

variable {p : Prover μ} {position place : Position} {r s : Run μ}

/-- A command that asks for a proof searches once it has read what is to be proved. -/
theorem autodeduce {statement : SExpr} {goal : Expression}
    (hread : (do count; expression statement : Running μ Expression).run.run r = (.ok goal, s)) :
    Encloses [] (.attempt (p.prove goal) s.session)
      (.running (command p (.list position [.word "autodeduce" place, statement])) r) := by
  have hcommand : command p (.list position [.word "autodeduce" place, statement]) =
      (do count; expression statement : Running μ Expression) >>= fun e ↦
        Running.attempt position (p.prove e) >>= fun _ ↦ pure () := by
    rw [command.eq_def, bind_assoc]
    refine bind_congr fun _ ↦ bind_congr fun e ↦ ?_
    exact map_eq_pure_bind (m := Running μ) _ _
  have hnext := Within.commandsNext hread fun e ↦
    Running.attempt position (p.prove e) >>= fun _ ↦ pure ()
  rw [hcommand]
  exact .layer (.command position _ s) (.layer (.commandsFirst _ _ s) (of_within hnext))

/-- The commands in a deduction run once it is open. -/
theorem deductionBlock {name : String} {word : Position} {body : List SExpr} {depth : Nat}
    (hopen : (do count; Running.step position (Building.push (some name)) :
      Running μ Nat).run.run r = (.ok depth, s)) :
    Encloses [] (.running (block p body) { s with nesting := s.nesting + 1 })
      (.running (command p (.list position (.word "deduction" place :: .word name word :: body)))
        r) := by
  have hcommand : command p (.list position (.word "deduction" place :: .word name word :: body)) =
      (do count; Running.step position (Building.push (some name)) : Running μ Nat) >>=
        fun depth ↦ inside depth (block p body) >>= fun _ ↦
          Running.step position (Building.closeAt depth none) >>= record := by
    rw [command.eq_def, bind_assoc]
    rfl
  have hnext := Within.commandsNext hopen fun depth ↦ inside depth (block p body) >>= fun _ ↦
    Running.step position (Building.closeAt depth none) >>= record
  rw [hcommand]
  exact .layer (.inside depth _ s) (.layer (.commandsFirst _ _ s) (of_within hnext))

/-- The commands in a goal run once it is open. -/
theorem goalBlock {name statement : SExpr} {body : List SExpr} {g : Goal}
    (hopen : (do
      count
      let name ← word name .notAName
      let statement ← expression statement
      Running.step position (Goal.start (some name) statement) : Running μ Goal).run.run r =
        (.ok g, s)) :
    Encloses [] (.running (Running.goalBlock p g body) { s with nesting := s.nesting + 1 })
      (.running (command p (.list position (.word "goal" place :: name :: statement :: body)))
        r) := by
  have hcommand : command p (.list position (.word "goal" place :: name :: statement :: body)) =
      (do
        count
        let name ← word name .notAName
        let statement ← expression statement
        Running.step position (Goal.start (some name) statement) : Running μ Goal) >>=
        fun g ↦ inside g.depth (Running.goalBlock p g body) >>= fun g ↦
          Running.step position g.conclude >>= record := by
    rw [command.eq_def]
    simp only [bind_assoc]
    rfl
  have hnext := Within.commandsNext hopen fun g ↦ inside g.depth (Running.goalBlock p g body) >>=
    fun g ↦ Running.step position g.conclude >>= record
  rw [hcommand]
  exact .layer (.inside g.depth _ s) (.layer (.commandsFirst _ _ s) (of_within hnext))

/-- The first command of what is inside a goal, unless it peels the goal. -/
theorem goalBlock_head {g : Goal} {e : SExpr} (rest : List SExpr)
    (hplain : ∀ head args, e.form? = some (head, args) →
      Verb.ofWord? head ≠ some .introduce ∧ Verb.ofWord? head ≠ some .intros) :
    Encloses [] (.running (command p e) r) (.running (Running.goalBlock p g (e :: rest)) r) := by
  have hcommand : goalCommand p g e = command p e >>= fun _ ↦ pure g := by
    rw [goalCommand]
    cases hform : e.form? with
    | none => rfl
    | some form =>
      obtain ⟨hintroduce, hintros⟩ := hplain form.1 form.2 hform
      dsimp only [Option.getD_some]
      split
      · exact absurd ‹_› hintroduce
      · exact absurd ‹_› hintroduce
      · exact absurd ‹_› hintros
      · rfl
  rw [Running.goalBlock, hcommand]
  exact .layer (.commandsFirst _ _ r) (of_within (.commandsFirst _ _ r))

/-- The first command of a block is inside the block; what comes behind it is never run. -/
theorem block_head {e : SExpr} (rest : List SExpr) :
    Encloses [] (.running (command p e) r) (.running (block p (e :: rest)) r) := by
  rw [block]
  exact of_within (.commandsFirst _ _ r)

end Encloses

/-- An abort that no catcher caught ends a script and is reported, whatever commands are left. -/
theorem Script.runCommands_run_aborted {p : Prover μ} {e : SExpr} {r s : Run μ}
    (h : (Running.command p e).run.run r = (.error (.aborted abort), s)) (depth : Nat)
    (rest : List SExpr) :
    (runCommands p depth (e :: rest)).run.run r =
      (.ok { s.output with aborted := some abort },
        { s with session := { s.session with state := s.session.state.truncate depth } }) := by
  rw [runCommands, run_bind_eq, Running.outcome_run h]
  rfl

/-! ### The theorem -/

/-- An abort for nobody in particular is for every catcher; one that is for a name is for the
attempts with this name, and for blocks. -/
theorem Catcher.catches_iff (catcher : Catcher) (abort : Abort) :
    catcher.catches abort = true ↔ abort.target = none ∨ catcher = .block ∨
      ∃ name, abort.target = some name ∧ catcher = .attempt (some name) := by
  cases catcher with
  | block => simp [catches]
  | attempt name =>
    cases htarget : abort.target with
    | none => simp [catches, Attempt.catches, htarget]
    | some target =>
      have hcatches : catches abort (attempt name) = true ↔ some target = name := by
        simp [catches, Attempt.catches, htarget]
      simp [hcatches, eq_comm]

/-- **Aborts reach the innermost catcher that they are for.** Whatever is around an activity that
ends with an abort, the first of the catchers around it that the abort is for catches it, and the
abort comes out of everything before. An abort for nobody in particular is for every catcher, one
for a name is for the attempts with this name and for the blocks of scripts, which have no name. If
there is no such catcher, then the abort comes out of everything, up to a script, which reports it.
A search that it passes is left without a look at the rules that are left, and until it is caught
neither a memory nor a counter changes. -/
theorem caught_by_innermost {raised : Activity μ} (hraised : raised.Stops abort lasting) :
    (∀ catcher : Catcher, catcher.catches abort = true ↔ abort.target = none ∨ catcher = .block ∨
      ∃ name, abort.target = some name ∧ catcher = .attempt (some name)) ∧
    (∀ between outer, Encloses between raised outer →
      match between.find? (·.catches abort) with
      | none => outer.Stops abort lasting
      | some catcher => ∃ before after inside caught, between = before ++ catcher :: after ∧
        (∀ k ∈ before, k.catches abort = false) ∧ Encloses before raised inside ∧
        Within (some catcher) inside caught ∧ caught.Caught abort lasting ∧
        Encloses after caught outer) ∧
    (∀ between (run : Rule → Bindings → Attempt μ String) goal rule bindings x,
      Encloses between raised (.attempt (run rule bindings) x) →
      (∀ k ∈ between, k.catches abort = false) → rule.pattern.match? goal = some bindings →
      ∃ y, y.lasting = lasting ∧ ∀ rest,
        (Search.tryRules run goal (rule :: rest)).run.run x = (.error (.aborted abort), y)) ∧
    (∀ between (p : Prover μ) e r,
      Encloses between raised (.running (Script.Running.command p e) r) →
      (∀ k ∈ between, k.catches abort = false) → ∀ depth, ∃ s, s.session.lasting = lasting ∧
        ∃ output, output.aborted = some abort ∧ ∀ rest,
          (Script.runCommands p depth (e :: rest)).run.run r = (.ok output, s)) := by
  refine ⟨(·.catches_iff abort), fun between outer h ↦ ?_, ?_, ?_⟩
  · split
    · rename_i hfind
      exact h.stops hraised fun k hk ↦ Bool.eq_false_iff.2 (List.find?_eq_none.1 hfind k hk)
    · exact h.caught hraised ‹_›
  · intro between run goal rule bindings x h hpass hmatch
    obtain ⟨y, hrun, hlasting⟩ := h.stops hraised hpass
    exact ⟨_, (y.lasting_rollback _).trans hlasting, Attempt.tryRules_run_aborted hmatch hrun⟩
  · intro between p e r h hpass depth
    obtain ⟨s, hrun, hlasting⟩ := h.stops hraised hpass
    exact ⟨_, (s.session.lasting_truncate _).trans hlasting, _, rfl,
      Script.runCommands_run_aborted hrun depth⟩

/-- The rule for `A` opens a deduction and searches for `B` in it, inside two attempts with names.
The rule for `B` aborts to the outer one. -/
theorem caught_by_innermost_outer :
    let stop : Abort := ⟨"no", some "outer"⟩
    let draft (p : Prover Unit) : Attempt Unit (Except Abort String) :=
      Attempt.step (Building.push (some "draft")) >>= fun depth ↦
        .guarded depth (.catchAbort (some "other") (p.prove (.symbol "B")))
    let call (p : Prover Unit) : Attempt Unit String :=
      Attempt.catchAbort (some "outer") (draft p) >>= fun _ ↦ .fail (.symbol "A") .noRule
    let external : External Unit :=
      ⟨fun key p _ _ ↦ if key = 0 then call p else throw (.aborted stop), 0, 0⟩
    let rules : List Rule :=
      [⟨"call", .symbol "A", .external 0⟩, ⟨"stop", .symbol "B", .external 1⟩]
    let x : Session Unit := ⟨rules.foldl (·.addRule ·) (.initial 0 16), ()⟩
    let outer := Activity.attempt (Search.prove external (.symbol "A")) x
    ∃ raised : Activity Unit, raised.Stops stop x.lasting ∧
      ∃ before after inside caught,
        [.attempt (some "other"), .attempt (some "outer")] =
          before ++ .attempt (some "outer") :: after ∧
        (∀ k ∈ before, k.catches stop = false) ∧ Encloses before raised inside ∧
        Within (some (.attempt (some "outer"))) inside caught ∧ caught.Caught stop x.lasting ∧
        Encloses after caught outer := by
  intro stop draft call external rules x outer
  obtain ⟨a, ha⟩ : ∃ bindings, (Expression.symbol "A").match? (.symbol "A") = some bindings :=
    Option.isSome_iff_exists.1 (by decide +kernel)
  obtain ⟨b, hb⟩ : ∃ bindings, (Expression.symbol "B").match? (.symbol "B") = some bindings :=
    Option.isSome_iff_exists.1 (by decide +kernel)
  let search (levels : Nat) : Prover Unit := ⟨Search.proveAt external levels, 0⟩
  -- the rule for `A`, in the search at the root
  let y : Session Unit := { x with state := { x.state with searching := 1 } }
  have hcall : Encloses [] (.attempt (call (search 15)) y) outer :=
    .layer (.rule ha _ y) ((Encloses.proveAt 15 (by decide +kernel) (by decide +kernel)
      (by decide +kernel)).trans (.prove external _ x))
  -- the deduction, between the two attempts
  let z : Session Unit := { y with state := y.state.opened "draft" }
  have hpush : (Attempt.step (Building.push (some "draft"))).run.run y = (.ok 2, z) := rfl
  have hdraft : Encloses [.attempt (some "other"), .attempt (some "outer")]
      (.attempt ((search 15).prove (.symbol "B")) z) outer :=
    .layer (.catching _ _ z) (.layer (.guarded 2 _ z) (.layer (.next hpush _)
      (.layer (.catching _ _ y) (.layer (.first _ _ y) hcall))))
  -- the rule for `B`, in the search in the deduction
  let w : Session Unit := { z with state := { z.state with searching := 2 } }
  let run (rule : Rule) (bindings : Bindings) : Attempt Unit String :=
    (search 14).runTactic external rule.tactic bindings (.symbol "B")
  have hno : (Expression.symbol "A").match? (.symbol "B") = none :=
    Option.isNone_iff_eq_none.1 (by decide +kernel)
  have hskip : Search.tryRules run (.symbol "B") rules =
      Search.tryRules run (.symbol "B") rules.tail := by
    show Search.tryRules run (.symbol "B") (_ :: _) = _
    rw [Search.tryRules, hno]
    rfl
  have hsearch : Encloses [] (.attempt (Search.tryRules run (.symbol "B") rules) w)
      (.attempt ((search 15).prove (.symbol "B")) z) :=
    Encloses.proveAt (x := z) 14 (by decide +kernel) (by decide +kernel) (by decide +kernel)
  rw [hskip] at hsearch
  have hstop : Encloses [] (.attempt (throw (.aborted stop) : Attempt Unit String) w)
      (.attempt ((search 15).prove (.symbol "B")) z) :=
    .layer (.rule hb [] w) hsearch
  have hraised : (Activity.attempt (throw (.aborted stop) : Attempt Unit String) w).Stops stop
      x.lasting := ⟨w, rfl, rfl⟩
  obtain ⟨-, hcaught, -, -⟩ := caught_by_innermost hraised
  exact ⟨_, hraised, hcaught _ _ (hstop.trans hdraft)⟩

/-- A `try` block catches an abort that is for somebody else. Here nobody with the name is around:
on its own the search ends the script with the abort, and in a block nothing is left of it. -/
theorem exists_misdirected_abort :
    ∃ (external : External Unit) (x : Session Unit),
      let aborted (text : String) :=
        (Script.run (Search.prover external) text x).1.toOption.map (·.aborted)
      aborted "(autodeduce A)" = some (some ⟨"no", some "outer"⟩) ∧
        aborted "(try (autodeduce A))" = some none :=
  ⟨⟨fun _ _ _ _ ↦ throw (.aborted ⟨"no", some "outer"⟩), 0, 0⟩,
    ⟨(ProofState.initial 0 16).addRule ⟨"stop", .symbol "A", .external 0⟩, ()⟩,
    by decide +kernel⟩

end NaturalDeduction
