import NaturalDeduction.Proofs.Matching
import NaturalDeduction.Proofs.Rewriting

/-!
# The search acts by moves

Whatever tactics and searches do to a proof state, they do by steps: they add inferences, suppose
definitions at the root, move counters, and go back to checkpoints. That holds for attempts that
fail as well, and for every number of levels that searches may be nested.

A user's tactics may do what they like to their own memory, but to the proof state only what the
library's functions do; that is what it means for them to be lawful (`External.Lawful`). What they
are given is below the counter, and the search that they are given is itself lawful
(`Prover.Lawful`).

Main statements: `Search.prove_acts`, and one lemma for each tactic of `Prover`.

Each proof follows the computation bind by bind. What is carried along is that the expressions in
hand are below the counter, which is why a postcondition names the state at the end: steps only
raise the counter, so what was below it stays below it. The recursion of the search on itself is cut
by the number of levels that are left (`Search.proveAt_acts`); inside of one level the search is a
parameter `p`, and all that is known about it is that it is lawful.
-/

namespace NaturalDeduction

instance {μ : Type} : Proving (Session μ) where
  state x := x.state
  Keeps _ := True

variable {μ : Type} {x : Session μ}

/-! ### Attempts -/

namespace Attempt

variable {P : Policy} {α : Type}

/-- A step of the search does to the proof state what the proof state's own function does. -/
theorem step_acts {act : Building α} {post : α → ProofState → Prop}
    (h : P.Acts act x.state post) :
    P.Acts (step act : Attempt μ α) x fun a y ↦ post a y.state := by
  intro ht
  obtain ⟨hmoves, -, hpost⟩ := h ⟨ht.state, trivial⟩
  have hrun : (step act : Attempt μ α).run.run x =
      ((act.run.run x.state).1.mapError .refused,
        { x with state := (act.run.run x.state).2 }) := rfl
  rw [hrun]
  exact ⟨hmoves, trivial, fun a ha ↦ hpost a (ok_of_mapError ha)⟩

/-- Looking at the proof state is no move. -/
theorem proofState_bind {next : ProofState → Attempt μ α} {post : α → Session μ → Prop}
    (h : P.Acts (next x.state) x post) : P.Acts (proofState >>= next) x post := h

/-- A change of the proof state that moves alone can bring about is an attempt that acts by moves.
-/
theorem modifyState_acts {f : ProofState → ProofState} (h : Moves P x.state (f x.state)) :
    P.Acts (modifyState f : Attempt μ Unit) x fun _ _ ↦ True :=
  .of_modify h trivial trivial

/-- Catching what an attempt ends with leaves what it did; only a result carries the postcondition.
-/
theorem outcome_acts {act : Attempt μ α} {post : α → Session μ → Prop}
    (h : P.Acts act x post) :
    P.Acts (outcome act) x fun result y ↦ ∀ a, result = .ok a → post a y := by
  intro ht
  obtain ⟨hmoves, hkeeps, hpost⟩ := h ht
  refine ⟨hmoves, hkeeps, fun result hresult ↦ ?_⟩
  cases hresult
  exact hpost

/-- Ending with a given outcome does nothing to the state. -/
theorem ofOutcome_acts {result : Except Setback α} {post : α → Session μ → Prop}
    (h : ∀ a, result = .ok a → post a x) : P.Acts (ofOutcome result) x post := by
  cases result with
  | ok a => exact .pure (h a rfl)
  | error e => exact .throw e

/-- Going back to a checkpoint is a move. -/
theorem rollback_acts (c : Checkpoint) :
    P.Acts (modifyState (·.rollback c) : Attempt μ Unit) x fun _ _ ↦ True :=
  modifyState_acts (Building.rollback_moves x.state c)

end Attempt

/-! ### Lawful searches and tactics -/

/-- Whether a search acts by steps. -/
def Prover.Lawful (p : Prover μ) : Prop :=
  ∀ (goal : Expression) (x : Session μ), goal.Below x.state.nextVariable →
    Acts true (p.prove goal) x fun _ _ ↦ True

/-- Whether a user's tactics act by steps, given a search that does. -/
def External.Lawful (external : External μ) : Prop :=
  ∀ (key : Nat) (p : Prover μ) (bindings : Bindings) (goal : Expression) (x : Session μ), p.Lawful →
    bindings.Below x.state.nextVariable → goal.Below x.state.nextVariable →
      Acts true (external.run key p bindings goal) x fun _ _ ↦ True

/-- Whether a search acts by moves under a policy. -/
def Prover.LawfulFor (P : Policy) (p : Prover μ) : Prop :=
  ∀ (goal : Expression) (x : Session μ), goal.Below x.state.nextVariable →
    P.Acts (p.prove goal) x fun _ _ ↦ True

/-- Whether a user's tactics act by moves under a policy, given a search that does. -/
def External.LawfulFor (P : Policy) (external : External μ) : Prop :=
  ∀ (key : Nat) (p : Prover μ) (bindings : Bindings) (goal : Expression) (x : Session μ),
    p.LawfulFor P → bindings.Below x.state.nextVariable → goal.Below x.state.nextVariable →
      P.Acts (external.run key p bindings goal) x fun _ _ ↦ True

/-- Where there are no tactics of a user, none of them breaks a policy. -/
theorem External.none_lawfulFor (P : Policy) : (External.none : External μ).LawfulFor P :=
  fun _ _ _ _ _ _ _ _ ↦ .throw _

/-- Where there are no tactics of a user, all of them are lawful. -/
theorem External.none_lawful : (External.none : External μ).Lawful :=
  fun _ _ _ _ _ _ _ _ ↦ acts_root_iff.1 (.throw _)

/-- Tactics that act by steps are lawful for the policy that keeps abbreviations at the root. -/
theorem External.Lawful.lawfulFor {external : External μ} (h : external.Lawful) :
    external.LawfulFor (.root true) := by
  intro key p bindings goal x hp hbindings hgoal
  have hlawful : p.Lawful := fun goal x hgoal ↦ acts_root_iff.1 (hp goal x hgoal)
  exact acts_root_iff.2 (h key p bindings goal x hlawful hbindings hgoal)

/-! ### Filling -/

namespace Expression

/-- Filling a pattern draws variables for its binders only, so the result is below the counter. -/
theorem fill_draws {pattern : Expression} {bindings : Bindings} {n : Nat}
    (hpattern : pattern.Below n)
    (hbindings : bindings.Below n) : (pattern.fill bindings).Draws n fun e m ↦ e.Below m :=
  (substitute_draws hpattern hbindings.replacements .all).mono fun _ _ _ h ↦ h.1

end Expression

/-! ### Tactics -/

namespace Prover

open Attempt

variable {P : Policy} {p : Prover μ}

/-- Expanding notation until a quantification shows supposes definitions at the root and derives
from them. -/
theorem exposeWithin_acts [P.Permissive] (hp : p.LawfulFor P) (budget : Nat) (name : String) :
    P.Acts (exposeWithin p budget name) x fun _ _ ↦ True := by
  induction budget generalizing name x with
  | zero => exact (step_acts (Building.lookup_acts name)).bind fun _ _ _ _ ↦ .throw _
  | succ budget ih =>
    refine (step_acts (Building.lookup_below name)).bind fun statement y _ h ↦ ?_
    obtain ⟨hstate, hstatement⟩ := h
    rw [← hstate] at hstatement
    dsimp only
    split
    · exact .pure trivial
    · refine (step_acts (Building.expand?_acts hstatement)).bind fun result z hmoves hresult ↦ ?_
      cases result with
      | none => exact .throw _
      | some expanded =>
        obtain ⟨index, expansion⟩ := expanded
        obtain ⟨hdefinable, hexpansion⟩ := hresult _ rfl
        have hdefinition : (Expression.equals statement expansion).Below z.state.nextVariable :=
          ⟨hstatement.mono (Moves.nextVariable_le hmoves), hexpansion⟩
        have heliminate : ∀ (equation : String) (u : Session μ),
            P.Acts (step (Building.eliminate equation name) >>= exposeWithin p budget) u
              fun _ _ ↦ True := fun equation u ↦
          (step_acts (Building.eliminate_acts equation name)).bind fun name _ _ _ ↦ ih name
        refine (outcome_acts (hp _ z hdefinition)).bind fun result w hmoves' _ ↦ ?_
        -- the equation is what was proved, or else the definition supposed
        split
        · exact heliminate _ w
        · have hbelow := hdefinition.mono (Moves.nextVariable_le hmoves')
          refine (step_acts (Building.supposeAt_acts hdefinable hbelow)).bind fun equation u _ _ ↦
            ?_
          exact heliminate equation u
        · exact .throw_bind _

/-- Specializing to one value after the other acts by moves, each time after notation is expanded.
-/
theorem bindEach_acts [P.Permissive] (hp : p.LawfulFor P) (current : String)
    {values : List Expression} (h : ∀ e ∈ values, e.Below x.state.nextVariable) :
    P.Acts (bindEach p current values) x fun _ _ ↦ True := by
  induction values generalizing current x with
  | nil => exact .pure trivial
  | cons value rest ih =>
    obtain ⟨hvalue, hrest⟩ := List.forall_mem_cons.1 h
    refine (exposeWithin_acts hp maxExpansions current).bind fun exposed y hmoves _ ↦ ?_
    have hle := Moves.nextVariable_le hmoves
    refine (step_acts (Building.bind_acts (.name exposed) (hvalue.mono hle))).bind
      fun bound z hmoves' _ ↦ ?_
    exact ih bound fun e he ↦ ((hrest e he).mono hle).mono (Moves.nextVariable_le hmoves')

/-- Specializing a reference to several values acts by moves, whatever had to be expanded for it. -/
theorem autobind_acts [P.Permissive] (hp : p.LawfulFor P) (target : Reference)
    {values : List Expression} (h : ∀ e ∈ values, e.Below x.state.nextVariable) :
    P.Acts (autobind p target values) x fun _ _ ↦ True := by
  refine (step_acts (Building.resolve_acts target)).bind fun name y hmoves _ ↦ ?_
  exact bindEach_acts hp name fun e he ↦ (h e he).mono (Moves.nextVariable_le hmoves)

/-- Proving condition after condition acts by moves, as the search for each of them does. -/
theorem dischargeWithin_acts (hp : p.LawfulFor P) (budget : Nat) (current : String) :
    P.Acts (dischargeWithin p budget current) x fun _ _ ↦ True := by
  induction budget generalizing current x with
  | zero => exact .pure trivial
  | succ budget ih =>
    refine (step_acts (Building.lookup_below current)).bind fun statement y _ h ↦ ?_
    obtain ⟨hstate, hstatement⟩ := h
    rw [← hstate] at hstatement
    split
    · refine (hp _ y hstatement.1).bind fun evidence z _ _ ↦ ?_
      refine (step_acts (Building.apply_acts (.name current) (.name evidence))).bind
        fun applied w _ _ ↦ ?_
      exact ih applied
    · exact .pure trivial

/-- Applying a statement to conditions that are searched for acts by moves. -/
theorem autoapply_acts (hp : p.LawfulFor P) (target : Reference) :
    P.Acts (autoapply p target) x fun _ _ ↦ True := by
  refine (step_acts (Building.resolve_acts target)).bind fun name y _ _ ↦ ?_
  refine (step_acts (Building.lookup_acts name)).bind fun statement z _ _ ↦ ?_
  exact dischargeWithin_acts hp _ name

/-- Proving a goal backwards acts by moves: the match is computed without a change of the state. -/
theorem backwards_acts [P.Permissive] (hp : p.LawfulFor P) (source : Reference) {goal : Expression}
    (hgoal : goal.Below x.state.nextVariable) :
    P.Acts (backwards p source goal) x fun _ _ ↦ True := by
  refine (step_acts (Building.resolve_acts source)).bind fun source y hmoves _ ↦ ?_
  refine (step_acts (Building.lookup_below source)).bind fun statement z hmoves' h ↦ ?_
  obtain ⟨hstate, hstatement⟩ := h
  rw [← hstate] at hstatement
  refine (step_acts (Building.draw_acts (Expression.openAlls_draws hstatement))).bind
    fun opened w hmoves'' _ ↦ ?_
  obtain ⟨slots, body⟩ := opened
  have hgoal : goal.Below w.state.nextVariable :=
    hgoal.mono (Moves.nextVariable_le (hmoves.trans (hmoves'.trans hmoves'')))
  dsimp only
  split
  · exact .throw _
  · rename_i bindings hmatch
    have hbindings := Expression.match?_below hgoal hmatch
    split
    · exact .throw _
    · rename_i values hvalues
      have hbelow : ∀ e ∈ values, e.Below w.state.nextVariable := hbindings.mapM_get? hvalues
      refine (autobind_acts hp (.name source) hbelow).bind fun bound u _ _ ↦ ?_
      refine (autoapply_acts hp (.name bound)).bind fun applied t _ _ ↦ ?_
      refine (step_acts (Building.lookup_acts applied)).bind fun found r _ _ ↦ ?_
      split
      · exact .pure trivial
      · exact .throw _

/-- The tactic that specializes a statement to filled values and applies it acts by moves. -/
theorem specialize_acts [P.Permissive] (hp : p.LawfulFor P) (source : String)
    {values : List Expression}
    {bindings : Bindings} (hvalues : ∀ e ∈ values, e.Below x.state.nextVariable)
    (hbindings : bindings.Below x.state.nextVariable) :
    P.Acts (specialize p source values bindings) x fun _ _ ↦ True := by
  have hdraws : (values.mapM fun e : Expression ↦ e.fill bindings).Draws x.state.nextVariable
      fun values m ↦ ∀ e ∈ values, e.Below m :=
    Fresh.Draws.mapM (fun e m m' hle he ↦ he.mono hle) fun e he m hle ↦
      Expression.fill_draws ((hvalues e he).mono hle) (hbindings.mono hle)
  refine (step_acts (Building.draw_acts hdraws)).bind fun values y _ h ↦ ?_
  obtain ⟨n, hstate, -, hvalues⟩ := h
  have hbelow : ∀ e ∈ values, e.Below y.state.nextVariable := by rw [hstate]; exact hvalues
  refine (autobind_acts hp (.name source) hbelow).bind fun bound z _ _ ↦ ?_
  exact autoapply_acts hp (.name bound)

/-- The tactic that proves an equation from its reverse acts by moves. -/
theorem turnAround_acts [P.Permissive] (hp : p.LawfulFor P) (goal : Expression)
    {left right : Expression}
    (hleft : left.Below x.state.nextVariable) (hright : right.Below x.state.nextVariable) :
    P.Acts (turnAround p goal left right) x fun _ _ ↦ True := by
  refine proofState_bind ?_
  split
  · exact .throw _
  · rename_i known _
    have hvalues : ∀ e ∈ [right, left], e.Below x.state.nextVariable := by
      simpa using ⟨hright, hleft⟩
    refine (autobind_acts hp (.name "eq_sym") hvalues).bind fun rule y _ _ ↦ ?_
    exact step_acts (Building.apply_acts (.name rule) (.name known))

/-- Whichever tactic a rule has, running it acts by moves. For a user's tactics that is the
assumption. -/
theorem runTactic_acts [P.Permissive] (hp : p.LawfulFor P) {external : External μ}
    (hexternal : external.LawfulFor P) {tactic : Tactic} {bindings : Bindings} {goal : Expression}
    (htactic : tactic.Below x.state.nextVariable) (hbindings : bindings.Below x.state.nextVariable)
    (hgoal : goal.Below x.state.nextVariable) :
    P.Acts (runTactic p external tactic bindings goal) x fun _ _ ↦ True := by
  cases tactic with
  | specialize source values => exact specialize_acts hp source htactic hbindings
  | turnAround left right =>
    unfold runTactic
    dsimp only
    split
    · rename_i l r hl hr
      exact turnAround_acts hp goal (hbindings.get? hl) (hbindings.get? hr)
    · exact .throw _
  | backwards source => exact backwards_acts hp (.name source) hgoal
  | external key => exact hexternal key p bindings goal x hp hbindings hgoal

end Prover

/-! ### The search -/

namespace Search

open Attempt

variable {P : Policy}

/-- Trying rules acts by moves, also those rules that fail and are rolled back. -/
theorem tryRules_acts {run : Rule → Bindings → Attempt μ String} {goal : Expression} {n : Nat}
    {rules : List Rule} (hgoal : goal.Below n) (hn : n ≤ x.state.nextVariable)
    (hrun : ∀ rule ∈ rules, ∀ (bindings : Bindings) (y : Session μ), n ≤ y.state.nextVariable →
      bindings.Below y.state.nextVariable → P.Acts (run rule bindings) y fun _ _ ↦ True) :
    P.Acts (tryRules run goal rules) x fun _ _ ↦ True := by
  induction rules generalizing x with
  | nil => exact .throw _
  | cons rule rest ih =>
    obtain ⟨hrule, hrest⟩ := List.forall_mem_cons.1 hrun
    -- the next rule is tried where the rollback ends
    have hnext : ∀ (c : Checkpoint) (y : Session μ), n ≤ y.state.nextVariable →
        P.Acts (modifyState (·.rollback c) >>= fun _ ↦ tryRules run goal rest) y
          fun _ _ ↦ True := fun c y hy ↦
      (rollback_acts c).bind fun _ z hmoves _ ↦
        ih (Nat.le_trans hy (Moves.nextVariable_le hmoves)) hrest
    unfold tryRules
    split
    · exact ih hn hrest
    · rename_i bindings hmatch
      have hbindings := (Expression.match?_below hgoal hmatch).mono hn
      refine proofState_bind ?_
      refine (outcome_acts (hrule bindings x hn hbindings)).bind fun result y hmoves _ ↦ ?_
      have hy := Nat.le_trans hn (Moves.nextVariable_le hmoves)
      split
      · refine proofState_bind ?_
        split
        · exact .pure trivial
        · exact hnext _ y hy
      · exact hnext _ y hy
      · exact (rollback_acts _).bind fun _ _ _ _ ↦ .throw _

/-- Counting an attempt as a level of searching is a move, before it and after it. -/
theorem counted_acts {act : Attempt μ String}
    (h : ∀ y : Session μ, x.state.nextVariable ≤ y.state.nextVariable →
      P.Acts act y fun _ _ ↦ True) :
    P.Acts (counted act) x fun _ _ ↦ True := by
  have hcount : ∀ (f : Nat → Nat) (y : Session μ), P.Acts
      (modifyState fun s ↦ { s with searching := f s.searching } : Attempt μ Unit) y
        fun _ _ ↦ True := fun f y ↦ modifyState_acts (.single (.search _ _))
  refine (hcount (· + 1) x).bind fun _ y hmoves _ ↦ ?_
  refine (outcome_acts (h y (Moves.nextVariable_le hmoves))).bind fun result z _ _ ↦ ?_
  exact (hcount (· - 1) z).bind fun _ w _ _ ↦ ofOutcome_acts fun _ _ ↦ trivial

/-- **Searches act by moves**, however deep they nest. -/
theorem proveAt_acts [P.Permissive] {external : External μ} (hexternal : external.LawfulFor P)
    (levels : Nat) {goal : Expression} (hgoal : goal.Below x.state.nextVariable) :
    P.Acts (proveAt external levels goal) x fun _ _ ↦ True := by
  induction levels using Nat.strongRecOn generalizing goal x with
  | ind levels ih =>
    refine .of_tidy fun ht ↦ ?_
    unfold proveAt
    refine proofState_bind ?_
    split
    · exact .pure trivial
    · split
      · rw [if_pos rfl]
        exact step_acts (Building.verify_acts hgoal)
      · rw [if_neg Bool.false_ne_true]
        split
        · exact .throw _
        · cases levels with
          | zero => exact .throw _
          | succ levels =>
            have hinner : Prover.LawfulFor P ⟨proveAt external levels, external.slack⟩ :=
              fun goal y hy ↦ ih levels (Nat.lt_succ_self levels) hy
            have hrules : ∀ r ∈ x.state.frames.flatMap (·.rules),
                r.tactic.Below x.state.nextVariable := by
              intro r hr
              obtain ⟨f, hf, hr⟩ := List.mem_flatMap.1 hr
              exact (ht.state.below f hf).rules r hr
            refine counted_acts fun y hy ↦ tryRules_acts hgoal hy fun r hr bindings z hz hb ↦ ?_
            exact Prover.runTactic_acts hinner hexternal ((hrules r hr).mono hz) hb (hgoal.mono hz)

/-- **The search acts by moves**, whatever it is asked for and however it ends. -/
theorem prove_acts [P.Permissive] {external : External μ} (hexternal : external.LawfulFor P)
    {goal : Expression} (hgoal : goal.Below x.state.nextVariable) :
    P.Acts (prove external goal) x fun _ _ ↦ True :=
  proofState_bind (proveAt_acts hexternal _ hgoal)

/-- So the search may be given to tactics as one that respects the policy. -/
theorem prover_lawfulFor [P.Permissive] {external : External μ} (hexternal : external.LawfulFor P) :
    (prover external).LawfulFor P := fun _ _ hgoal ↦ prove_acts hexternal hgoal

end Search

end NaturalDeduction
