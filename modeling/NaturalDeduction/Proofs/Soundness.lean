import NaturalDeduction.Proofs.Building

/-!
# Soundness of construction

A proof state is worked on by operations, in any order and however often they are refused. Whatever
is reached from a new state, every statement in it is derivable from what is supposed in its own
deduction and in those around it (`derivable_of_reachable`).

A user also has things in hand that lie outside the proof state: checkpoints to go back to, and
goals. They are part of the `Workbench`. A checkpoint may be used at any time, also when another
deduction is current than the one it was taken in, and goals may be worked on in any order.

The expressions that a user comes up with are supposed to be below the counter, so a variable that
is drawn is never one that is in use.

The invariant is `Workbench.Sound`: the state is tidy, its frames are justified, and the goals are
below the counter.

An operation is one call of one of the library's functions, with its arguments. It is performed even
if it is refused, and the state is then what the function has left. `Reachable` quantifies over all
lists of operations, so there is no discipline in which goals are concluded or deductions closed.
-/

namespace NaturalDeduction

/-! ### Runs -/

/-- A proof state and what its user has in hand. -/
structure Workbench where
  state : ProofState
  /-- The checkpoints that were taken, oldest first. -/
  checkpoints : List Checkpoint
  /-- The goals that were started and not concluded, oldest first. -/
  goals : List Goal

/-- What a user can do with a proof state. Checkpoints and goals are meant by their place. -/
inductive Operation where
  /-- Draw a variable. -/
  | draw (hint : String)
  | suppose (name : Option String) (statement : Expression)
  | newParameter (hint : String)
  | bind (target : Reference) (value : Expression)
  | apply (rule condition : Reference)
  | substitute (target : Expression) (replacements : List Replacement) (chosen : Occurrences)
  | verify (statement : Expression)
  | push (name : Option String)
  | pop
  | truncate (depth : Nat)
  /-- Close the current deduction with its theorem. -/
  | close (name : Option String)
  | checkpoint
  | rollback (place : Nat)
  | startGoal (name : Option String) (statement : Expression)
  | introduce (place : Nat) (name : Option String)
  | intros (place : Nat)
  | concludeGoal (place : Nat)

/-- Whether every variable that an operation mentions has a number below `n`. -/
def Operation.Below (n : Nat) : Operation → Prop
  | suppose _ statement => statement.Below n
  | bind _ value => value.Below n
  | substitute target replacements _ => target.Below n ∧ ∀ r ∈ replacements, r.Below n
  | verify statement => statement.Below n
  | startGoal _ statement => statement.Below n
  | _ => True

namespace Workbench

/-- Does something to the proof state. What it has reached is kept if it is refused. -/
def build {α : Type} (w : Workbench) (act : Building α) : Workbench :=
  { w with state := (act.run.run w.state).2 }

/-- Works on a goal, if there is one at the place. -/
def work {α : Type} (w : Workbench) (place : Nat) (act : GoalBuilding α) : Workbench :=
  match w.goals[place]? with
  | none => w
  | some g =>
    let (g, state) := (act.run.run (g, w.state)).2
    { w with state := state, goals := w.goals.set place g }

/-- Carries out an operation. -/
def perform (w : Workbench) : Operation → Workbench
  | .draw hint => w.build (Building.draw (Variable.fresh hint))
  | .suppose name statement => w.build (Building.suppose name statement)
  | .newParameter hint => w.build (Building.newParameter hint)
  | .bind target value => w.build (Building.bind target value)
  | .apply rule condition => w.build (Building.apply rule condition)
  | .substitute target replacements chosen =>
    w.build (Building.substitute target replacements chosen)
  | .verify statement => w.build (Building.verify statement)
  | .push name => w.build (Building.push name)
  | .pop => w.build Building.pop
  | .truncate depth => { w with state := w.state.truncate depth }
  | .close name => w.build (Building.close name)
  | .checkpoint => { w with checkpoints := w.checkpoints ++ [w.state.checkpoint] }
  | .rollback place =>
    match w.checkpoints[place]? with
    | none => w
    | some c => { w with state := w.state.rollback c }
  | .startGoal name statement =>
    match (Goal.start name statement).run.run w.state with
    | (.ok g, state) => { w with state := state, goals := w.goals ++ [g] }
    | (.error _, state) => { w with state := state }
  | .introduce place name => w.work place (Goal.introduce name)
  | .intros place => w.work place Goal.intros
  | .concludeGoal place =>
    match w.goals[place]? with
    | none => w
    | some g => { w.build g.conclude with goals := w.goals.eraseIdx place }

/-- Nothing has happened yet. -/
def initial (nextVariable searchLimit : Nat) : Workbench :=
  ⟨ProofState.initial nextVariable searchLimit, [], []⟩

/-- What is reached from a new proof state by operations that mention only variables below the
counter. -/
inductive Reachable : Workbench → Prop
  | initial (nextVariable searchLimit : Nat) : Reachable (initial nextVariable searchLimit)
  | perform {w : Workbench} (h : Reachable w) (operation : Operation)
      (hbelow : operation.Below w.state.nextVariable) : Reachable (w.perform operation)

/-! ### Operations advance -/

section Advances

variable {P : Policy} {w w' : Workbench}

/-- The state is tidy for a policy, and the goals are below the counter. -/
structure TidyFor (P : Policy) (w : Workbench) : Prop where
  state : w.state.TidyFor P
  goals : ∀ g ∈ w.goals, g.Below w.state.nextVariable

/-- A new workbench is tidy, as nothing is on it. -/
theorem tidyFor_initial (P : Policy) (nextVariable searchLimit : Nat) :
    (initial nextVariable searchLimit).TidyFor P := by
  refine ⟨⟨fun f hf ↦ ?_, fun a ha ↦ absurd ha List.not_mem_nil, trivial⟩,
    fun g hg ↦ absurd hg List.not_mem_nil⟩
  rw [List.mem_singleton.1 hf]
  exact ⟨fun e he ↦ absurd he List.not_mem_nil, fun p hp ↦ absurd hp List.not_mem_nil,
    fun r hr ↦ absurd hr List.not_mem_nil⟩

/-- Whether the state is reached by moves, and new goals are below the counter. -/
structure Advances (P : Policy) (w w' : Workbench) : Prop where
  moves : Moves P w.state w'.state
  goals : ∀ g ∈ w'.goals, g ∈ w.goals ∨ g.Below w'.state.nextVariable

/-- A workbench that has advanced from a tidy one is tidy. -/
theorem Advances.tidyFor (h : w.Advances P w') (hw : w.TidyFor P) : w'.TidyFor P where
  state := h.moves.tidyFor hw.state
  goals g hg := (h.goals g hg).elim (fun hg ↦ (hw.goals g hg).mono h.moves.nextVariable_le) id

/-- Goals may be given up. -/
theorem Advances.of_moves {s : ProofState} {goals : List Goal} (hmoves : Moves P w.state s)
    (hgoals : ∀ g ∈ goals, g ∈ w.goals) (checkpoints : List Checkpoint) :
    w.Advances P ⟨s, checkpoints, goals⟩ := ⟨hmoves, fun g hg ↦ .inl (hgoals g hg)⟩

/-- A function on the state that acts by moves advances the workbench. -/
theorem TidyFor.build {α : Type} {act : Building α} {post : α → ProofState → Prop}
    (h : w.TidyFor P) (hact : P.Acts act w.state post) : w.Advances P (w.build act) :=
  .of_moves (hact ⟨h.state, trivial⟩).1 (fun _ ↦ id) w.checkpoints

/-- A function on a goal that acts by moves advances the workbench; a goal that is not there is left
alone. -/
theorem TidyFor.work {α : Type} {act : GoalBuilding α} {post : α → Goal × ProofState → Prop}
    (h : w.TidyFor P) (place : Nat) (hact : ∀ x, P.Acts act x post) :
    w.Advances P (w.work place act) := by
  unfold Workbench.work
  split
  · exact .of_moves .refl (fun _ ↦ id) w.checkpoints
  · rename_i g hg
    have hmem : g ∈ w.goals := List.mem_of_getElem? hg
    obtain ⟨hmoves, hkeeps, -⟩ := hact (g, w.state) ⟨h.state, h.goals g hmem⟩
    refine ⟨hmoves, fun g' hg' ↦ ?_⟩
    rcases List.mem_or_eq_of_mem_set hg' with hg' | rfl
    · exact .inl hg'
    · exact .inr hkeeps

/-- **Every operation advances a tidy workbench**, if what the user gives to it is below the
counter. -/
theorem TidyFor.perform (h : w.TidyFor P) {operation : Operation}
    (hbelow : operation.Below w.state.nextVariable) : w.Advances P (w.perform operation) := by
  cases operation with
  | draw hint =>
    exact h.build (Building.draw_acts (Variable.fresh_draws hint w.state.nextVariable))
  | suppose name statement => exact h.build (Building.suppose_acts name hbelow)
  | newParameter hint => exact h.build (Building.newParameter_acts hint)
  | bind target value => exact h.build (Building.bind_acts target hbelow)
  | apply rule condition => exact h.build (Building.apply_acts rule condition)
  | substitute target replacements chosen =>
    exact h.build (Building.substitute_acts hbelow.1 hbelow.2 chosen)
  | verify statement => exact h.build (Building.verify_acts hbelow)
  | push name => exact h.build (Building.push_acts name)
  | pop => exact h.build Building.pop_acts
  | truncate depth =>
    exact .of_moves (Building.truncate_moves w.state depth) (fun _ ↦ id) w.checkpoints
  | close name => exact h.build (Building.close_acts name)
  | checkpoint => exact .of_moves .refl (fun _ ↦ id) _
  | rollback place =>
    unfold Workbench.perform
    dsimp only
    split
    · exact .of_moves .refl (fun _ ↦ id) w.checkpoints
    · exact .of_moves (Building.rollback_moves w.state _) (fun _ ↦ id) w.checkpoints
  | startGoal name statement =>
    have hacts : P.Acts (Goal.start name statement) w.state
        fun g s ↦ g.Below s.nextVariable := Goal.start_acts name hbelow
    -- a goal that was started joins the handles, so it has to be below the counter
    have hreached := hacts ⟨h.state, trivial⟩
    unfold Workbench.perform
    dsimp only
    split <;> rename_i hrun
    · rw [hrun] at hreached
      obtain ⟨hmoves, -, hpost⟩ := hreached
      refine ⟨hmoves, fun g hg ↦ (List.mem_append.1 hg).imp_right fun hg ↦ ?_⟩
      rw [List.mem_singleton.1 hg]
      exact hpost _ rfl
    · rw [hrun] at hreached
      exact .of_moves hreached.1 (fun _ ↦ id) w.checkpoints
  | introduce place name => exact h.work place (Goal.introduce_acts name)
  | intros place => exact h.work place Goal.intros_acts
  | concludeGoal place =>
    unfold Workbench.perform
    dsimp only
    split
    · exact .of_moves .refl (fun _ ↦ id) w.checkpoints
    · rename_i g hg
      have hacts : P.Acts g.conclude w.state fun _ _ ↦ True := Goal.conclude_acts g w.state
      exact .of_moves (hacts ⟨h.state, trivial⟩).1 (fun _ ↦ List.mem_of_mem_eraseIdx) w.checkpoints

end Advances

/-! ### The invariant -/

/-- The state is tidy, its frames are justified, and the goals are below the counter. -/
structure Sound (defining : Bool) (w : Workbench) : Prop where
  tidy : w.state.Tidy
  justified : Justified defining w.state.frames
  goals : ∀ g ∈ w.goals, g.Below w.state.nextVariable

variable {defining : Bool} {w w' : Workbench}

/-- A new workbench is sound. -/
theorem sound_initial (nextVariable searchLimit : Nat) :
    (initial nextVariable searchLimit).Sound defining where
  tidy :=
    ProofState.tidyFor_root_iff.1 (tidyFor_initial (.root defining) nextVariable searchLimit).state
  justified := ⟨.nil, fun _ hp ↦ absurd hp List.not_mem_nil, trivial⟩
  goals _ hg := absurd hg List.not_mem_nil

/-- A sound workbench is tidy for the policy of the root. -/
theorem Sound.tidyFor (h : w.Sound defining) : w.TidyFor (.root defining) :=
  ⟨ProofState.tidyFor_root_iff.2 h.tidy, h.goals⟩

/-- What advances under a policy about the root stays sound, since its moves are steps. -/
theorem Sound.advances (h : w.Sound defining) (hadvances : w.Advances (.root defining) w') :
    w'.Sound defining where
  tidy := ProofState.tidyFor_root_iff.1 (hadvances.tidyFor h.tidyFor).state
  justified := (moves_root_iff.1 hadvances.moves).justified h.justified
  goals := (hadvances.tidyFor h.tidyFor).goals

/-- Operations keep a workbench sound. -/
theorem Sound.perform (h : w.Sound defining) {operation : Operation}
    (hbelow : operation.Below w.state.nextVariable) : (w.perform operation).Sound defining :=
  h.advances (h.tidyFor.perform hbelow)

/-- So every workbench that can be reached is sound. -/
theorem Reachable.sound (h : w.Reachable) : w.Sound defining := by
  induction h with
  | initial nextVariable searchLimit => exact sound_initial nextVariable searchLimit
  | perform _ operation hbelow ih => exact ih.perform hbelow

end Workbench

/-! ### The theorem -/

open Nameless

/-- What is supposed in the deductions from the root up to the one with an index. -/
def ProofState.supposedUpTo (s : ProofState) (index : Nat) : List Expression :=
  (s.frames.reverse.take (index + 1)).flatMap (·.deduction.conditions)

/-- What justified frames show is derivable from what is supposed in them, by induction on the
establishing of each entry. -/
theorem Justified.derivable {frames : List Frame} (h : Justified false frames) :
    ∀ a ∈ visible (stackOf frames), DerivableFrom (assumptions (stackOf frames)) a.nameless := by
  induction frames with
  | nil => intro a ha; exact absurd ha List.not_mem_nil
  | cons f rest ih => exact h.1.derivable (ih h.2.2)

/-- The frames around justified frames are justified. -/
theorem Justified.of_append {axiomatic : Bool} {inner outer : List Frame}
    (h : Justified axiomatic (inner ++ outer)) : Justified axiomatic outer := by
  induction inner with
  | nil => exact h
  | cons f rest ih => exact ih h.2.2

/-- What is assumed in frames is supposed in one of them. -/
theorem assumptions_subset_suppositions (frames : List Frame) :
    assumptions (stackOf frames) ⊆
      (frames.flatMap (·.deduction.conditions)).map Expression.nameless := by
  refine List.map_subset _ fun x hx ↦ ?_
  obtain ⟨e, he, rfl⟩ := List.mem_map.1 hx
  obtain ⟨hmem, hcondition⟩ := List.mem_filter.1 he
  obtain ⟨es, hes, hmem⟩ := List.mem_flatten.1 hmem
  obtain ⟨f, hf, rfl⟩ := List.mem_map.1 hes
  refine List.mem_flatMap.2 ⟨f, hf, List.mem_reverse.2 (List.mem_map_of_mem ?_)⟩
  exact List.mem_filter.2 ⟨hmem, hcondition⟩

/-- **Construction is sound.** In every state that operations reach from a new one, a statement of
the deduction with an index, counted from the root, is derivable from what is supposed in the
deductions up to that one. -/
theorem derivable_of_reachable {w : Workbench} (h : w.Reachable) {index : Nat} {f : Frame}
    (hf : w.state.frameAt? index = some f) {e : Entry} (he : e ∈ f.deduction.entries) :
    DerivableFrom ((w.state.supposedUpTo index).map Expression.nameless) e.statement.nameless := by
  have hjustified : Justified false w.state.frames := h.sound.justified
  have hframes : w.state.frames =
      (w.state.frames.reverse.drop (index + 1)).reverse ++
        (w.state.frames.reverse.take (index + 1)).reverse := by
    rw [← List.reverse_append, List.take_append_drop, List.reverse_reverse]
  rw [hframes] at hjustified
  have hmem : f ∈ (w.state.frames.reverse.take (index + 1)).reverse := by
    refine List.mem_reverse.2 (List.mem_of_getElem? (i := index) ?_)
    rw [List.getElem?_take_of_lt (Nat.lt_succ_self index)]
    exact hf
  have hvisible : e.statement ∈
      visible (stackOf (w.state.frames.reverse.take (index + 1)).reverse) :=
    List.mem_map_of_mem (List.mem_flatten.2 ⟨_, List.mem_map_of_mem hmem, he⟩)
  refine (hjustified.of_append.derivable _ hvisible).mono fun t ht ↦ ?_
  obtain ⟨a, ha, rfl⟩ := List.mem_map.1 (assumptions_subset_suppositions _ ht)
  obtain ⟨g, hg, ha⟩ := List.mem_flatMap.1 ha
  exact List.mem_map_of_mem (List.mem_flatMap.2 ⟨g, List.mem_reverse.1 hg, ha⟩)

/-- A deduction with a parameter and two conditions, closed at the root, where nothing is
supposed. -/
theorem derivable_closed_detachment :
    let x := Expression.var ⟨"x", 0⟩
    let p := Expression.call "P" [x]
    let q := Expression.call "Q" [x]
    let w := [.push (some "modus"), .newParameter "x", .suppose (some "rule") (.implies p q),
      .suppose (some "fact") p, .apply (.name "rule") (.relative (-1)),
      .close none].foldl Workbench.perform (.initial 0 16)
    ∃ f, w.state.frameAt? 0 = some f ∧ ∃ e ∈ f.deduction.entries,
      e.statement = .all ⟨"x", 0⟩ (.rules [.implies p q, p] q) ∧
        DerivableFrom [] e.statement.nameless := by
  intro x p q w
  have hp : p.Below 1 := ⟨trivial, Nat.one_pos, trivial⟩
  have hrule : (Expression.implies p q).Below 1 := ⟨hp, trivial, Nat.one_pos, trivial⟩
  have hw : w.Reachable := by
    have h := (Workbench.Reachable.initial 0 16).perform (.push (some "modus")) trivial
    have h := h.perform (.newParameter "x") trivial
    have h := h.perform (.suppose (some "rule") (.implies p q)) hrule
    have h := h.perform (.suppose (some "fact") p) hp
    have h := h.perform (.apply (.name "rule") (.relative (-1))) trivial
    exact h.perform (.close none) trivial
  have hf : w.state.frameAt? 0 = some w.state.root := rfl
  have hsupposed : w.state.supposedUpTo 0 = [] := List.isEmpty_iff.1 (by decide +kernel)
  obtain ⟨e, he, hstatement⟩ : ∃ e ∈ w.state.root.deduction.entries,
      e.statement = .all ⟨"x", 0⟩ (.rules [.implies p q, p] q) := ⟨_, List.mem_cons_self, rfl⟩
  have hderivable := derivable_of_reachable hw hf he
  rw [hsupposed] at hderivable
  exact ⟨w.state.root, hf, e, he, hstatement, hderivable⟩

end NaturalDeduction
