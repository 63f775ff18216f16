import NaturalDeduction.Proofs.Achieving
import NaturalDeduction.Proofs.Opening

/-!
# Proving backwards from a statement

To prove a goal backwards from a statement, its quantifiers are opened, its conclusion is matched
against the goal, and the match says which values to specialize the statement to. Then the
conditions are discharged, one after the other, until what is left is no rule. It is shown here that
this succeeds where everything is at hand (`ProofState.Supplies`): the conclusion matches, the match
determines every value, and each condition, filled with the values, is known.

What is followed is again the form that a name shows. Specialized to the values, the statement has
the form of its opened body with the holes filled (`fillHoles_openAlls`), which is a rule from the
filled conditions to the goal. Every condition is recalled, under a name that shows it, as long as
no name is ambiguous.

Two things have to be excluded. If the goal is a rule itself, then discharging does not stop at it.
And holes of the statement itself are no quantified variables: the match may give them values, but
nothing puts these values into the statement.

Main definitions and statements:

* `ProofState.Supplies`: everything that the proof needs is at hand. It can be decided from a
  match and a list of known statements (`ProofState.exists_supplies_iff`).
* `Prover.backwards_achieves`: the tactic succeeds with any prover that recalls what is known.
* `Search.backwards_succeeds`: so it does with the search.
* `Search.exists_unproved`: what the two exclusions are for, by one goal for each.
-/

namespace NaturalDeduction

/-! ### Names that are not ambiguous -/

/-- Names are unambiguous if nothing is shadowed. -/
theorem ProofState.unambiguous_of_not_shadowed {s : ProofState}
    (hframes : ∀ f ∈ s.frames, f.Distinct) (h : ∀ i, ¬ Shadowed s.frames i) : s.Unambiguous := by
  refine List.pairwise_iff_getElem.2 fun j i hj hi hlt hname ↦ ?_
  rw [List.length_map] at hj hi
  rw [List.getElem_map, List.getElem_map] at hname
  exact h i (shadowed_of_lt hframes (List.getElem?_eq_getElem hi) (List.getElem?_eq_getElem hj)
    hname hlt)

/-- In every state that is reached, variables are below the counter, and names are unambiguous if
nothing is shadowed. -/
theorem Host.VisitedFor.unambiguous {μ : Type} {P : Policy} [P.Permissive] {external : External μ}
    {h : Host μ} (hP : P.Registrable 0 Prelude.boundedQuantifier) (hexternal : external.LawfulFor P)
    (hvisited : h.VisitedFor P external) (hshadowed : ∀ i, ¬ Shadowed h.bench.state.frames i) :
    h.bench.state.Settled ∧ h.bench.state.Unambiguous := by
  obtain ⟨htidy, hdistinct⟩ := hvisited.tidyFor_distinct hP hexternal
  exact ⟨ProofState.settled_of_frames htidy.state.below,
    ProofState.unambiguous_of_not_shadowed hdistinct hshadowed⟩

/-! ### Tactics that succeed -/

/-- A statement has at least the conditions that its form has. -/
theorem Expression.length_le_length_splitRules {e : Expression} {conditions : List Nameless}
    {b : Nameless} (h : e.nameless = conditions.foldr .implies b) :
    conditions.length ≤ e.splitRules.1.length := by
  induction conditions generalizing e with
  | nil => exact Nat.zero_le _
  | cons c rest ih =>
    obtain ⟨condition, conclusion, rfl, -, hconclusion⟩ := exists_of_nameless_eq_implies h
    exact Nat.succ_le_succ (ih hconclusion)

namespace Prover

open Attempt ProofState

variable {μ : Type} {p : Prover μ} {x : Session μ}

/-- Whether a search finds what is known already, as long as no name is ambiguous. -/
def Recalls (p : Prover μ) : Prop :=
  ∀ (x : Session μ) (e : Expression) (known : String), x.state.Unambiguous →
    x.state.Shows known e.nameless → Achieves (p.prove e) x fun name t ↦ t.Shows name e.nameless

/-- Values are bound in turn. Every quantifier is in sight, so nothing has to be exposed in between.
-/
theorem bindEach_achieves {target : String} {values : List Expression} {a b : Nameless}
    (h : x.state.Shows target a) (hopens : a.Opens values b)
    (hvalues : ∀ e ∈ values, e.Below x.state.nextVariable) :
    Achieves (bindEach p target values) x fun name t ↦ t.Shows name b := by
  induction hopens generalizing x target with
  | nil => exact .pure h
  | @cons body t value values _ ih =>
    obtain ⟨hvalue, hvalues⟩ := List.forall_mem_cons.1 hvalues
    -- there is nothing to write out, as the statement is a quantification already
    have hexpose : Achieves (exposeWithin p maxExpansions target) x fun name _ ↦ name = target := by
      obtain ⟨e, he, hform⟩ := h
      obtain ⟨v, e, rfl, -⟩ := Expression.exists_of_nameless_eq_binder hform
      exact .read (Building.get?_lookup_run he) (.pure rfl)
    refine hexpose.bind fun name y hy hname ↦ ?_
    subst hname
    refine (Achieves.step (Building.bind_achieves (hy.shows h) (hy.below hvalue))).bind
      fun bound z hz hbound ↦ ?_
    exact ih hbound fun e he ↦ hz.below (hy.below (hvalues e he))

/-- By induction on the conditions. Each of them is recalled, and every application leaves one
condition less to discharge. -/
theorem dischargeWithin_achieves (hp : p.Recalls) {rule : String} {conditions : List Nameless}
    {b : Nameless} {budget : Nat} (hrule : x.state.Shows rule (conditions.foldr .implies b))
    (hconditions : ∀ c ∈ conditions, ∃ known, x.state.Shows known c)
    (hb : ∀ s t, b ≠ .implies s t) (hx : x.state.Unambiguous)
    (hbudget : conditions.length ≤ budget) :
    Achieves (dischargeWithin p budget rule) x fun name t ↦ t.Shows name b := by
  induction conditions generalizing x rule budget with
  | nil =>
    cases budget with
    | zero => exact .pure hrule
    | succ budget =>
      obtain ⟨e, he, hform⟩ := hrule
      refine .read (Building.get?_lookup_run he) ?_
      split
      · exact absurd hform.symm (hb _ _)
      · exact .pure ⟨_, he, hform⟩
  | cons c rest ih =>
    obtain ⟨budget, rfl⟩ := Nat.exists_eq_add_of_le' (Nat.le_trans (Nat.le_add_left 1 _) hbudget)
    obtain ⟨⟨known, hknown⟩, hrest⟩ := List.forall_mem_cons.1 hconditions
    obtain ⟨e, he, hform⟩ := hrule
    obtain ⟨condition, conclusion, rfl, rfl, hconclusion⟩ :=
      Expression.exists_of_nameless_eq_implies hform
    refine .read (Building.get?_lookup_run he) ?_
    refine (hp x condition known hx hknown).bind fun evidence y hy hevidence ↦ ?_
    have hrule : y.state.Shows rule (.implies condition.nameless (rest.foldr .implies b)) :=
      ⟨_, hy.get? he, hform⟩
    refine (Achieves.step (Building.apply_achieves hrule hevidence)).bind fun name z hz hname ↦ ?_
    have hretains := hy.trans hz
    exact ih hname (fun c hc ↦ (hrest c hc).imp fun _ h ↦ hretains.shows h)
      (hretains.unambiguous hx) (Nat.le_of_succ_le_succ hbudget)

/-- Binding through notations comes to binding, where the quantifiers are in sight. -/
theorem autobind_achieves {target : String} {values : List Expression} {a b : Nameless}
    (h : x.state.Shows target a) (hopens : a.Opens values b)
    (hvalues : ∀ e ∈ values, e.Below x.state.nextVariable) :
    Achieves (autobind p (.name target) values) x fun name t ↦ t.Shows name b := by
  have ⟨_, he, _⟩ := h
  exact .read (Building.get?_resolve_run he) (bindEach_achieves h hopens hvalues)

/-- The budget for conditions is the number of parts of the rule, which is enough. -/
theorem autoapply_achieves (hp : p.Recalls) {rule : String} {conditions : List Nameless}
    {b : Nameless} (hrule : x.state.Shows rule (conditions.foldr .implies b))
    (hconditions : ∀ c ∈ conditions, ∃ known, x.state.Shows known c)
    (hb : ∀ s t, b ≠ .implies s t) (hx : x.state.Unambiguous) :
    Achieves (autoapply p (.name rule)) x fun name t ↦ t.Shows name b := by
  have ⟨e, he, hform⟩ := hrule
  refine .read (Building.get?_resolve_run he) (.read (Building.get?_lookup_run he) ?_)
  refine dischargeWithin_achieves hp hrule hconditions hb hx ?_
  exact Nat.le_trans (Expression.length_le_length_splitRules hform) (Nat.le_add_right _ _)

/-- What is opened, matched and specialized comes to the goal, if the conditions are known. -/
theorem backwards_achieves (hp : p.Recalls) {source : Reference} {name : String}
    {statement goal body : Expression} {slots : List Variable} {m : Nat} {bindings : Bindings}
    {values : List Expression} {conditions : List Nameless} (hx : x.state.Unambiguous)
    (hname : (Building.resolve source).run.run x.state = (.ok name, x.state))
    (hstatement : x.state.get? name = some statement)
    (hopen : statement.openAlls.run x.state.nextVariable = ((slots, body), m))
    (hm : x.state.nextVariable ≤ m) (hconclusion : body.splitRules.2.match? goal = some bindings)
    (hvalues : slots.mapM bindings.get? = some values) (hbelow : ∀ e ∈ values, e.Below m)
    (hopens : statement.nameless.Opens values (conditions.foldr .implies goal.nameless))
    (hconditions : ∀ c ∈ conditions, ∃ known, x.state.Shows known c)
    (hgoal : ∀ s t, goal.nameless ≠ .implies s t) :
    Achieves (p.backwards source goal) x fun name t ↦ t.Shows name goal.nameless := by
  refine .read hname (.read (Building.get?_lookup_run hstatement) ?_)
  have hdraws : statement.openAlls.Draws x.state.nextVariable
      fun result n ↦ result = (slots, body) ∧ n = m := .of_run hopen hm ⟨rfl, rfl⟩
  refine (Achieves.step (Building.draw_achieves hdraws)).bind fun result y hy hresult ↦ ?_
  obtain ⟨rfl, hnext⟩ := hresult
  simp only [hconclusion, hvalues]
  refine (autobind_achieves (hy.shows ⟨_, hstatement, rfl⟩) hopens (hnext ▸ hbelow)).bind
    fun bound z hz hbound ↦ ?_
  have hretains := hy.trans hz
  refine (autoapply_achieves hp hbound
    (fun c hc ↦ (hconditions c hc).imp fun _ h ↦ hretains.shows h) hgoal
    (hretains.unambiguous hx)).bind fun applied w _ happlied ↦ ?_
  obtain ⟨e, he, hform⟩ := happlied
  refine .read (Building.get?_lookup_run he) ?_
  rw [if_pos (Expression.alphaEq_iff.2 hform)]
  exact .pure ⟨e, he, hform⟩

end Prover

namespace Search

open Attempt ProofState

variable {μ : Type}

/-- Before it tries any rule, the search looks for the goal among what is known. -/
theorem proveAt_recalls (external : External μ) (levels slack : Nat) :
    (⟨proveAt external levels, slack⟩ : Prover μ).Recalls := by
  intro x e known hx hknown hsettled
  obtain ⟨name, hname, hshows⟩ := hknown.recall? hx
  refine ⟨name, x, ?_, .refl hsettled, hshows⟩
  show (proveAt external levels e).run.run x = _
  unfold proveAt
  rw [proofState_bind_run, hname]
  rfl

/-- So does the prover that tactics are run with. -/
theorem prover_recalls (external : External μ) : (prover external).Recalls :=
  fun x e known ↦ proveAt_recalls external
    (max x.state.searchLimit external.reach - x.state.searching) external.slack x e known

end Search

/-! ### The opened statement -/

namespace Expression

/-- The conditions and the conclusion of a statement mention no variable that it does not mention.
-/
theorem splitRules_below {e : Expression} {n : Nat} (h : e.Below n) :
    (∀ c ∈ e.splitRules.1, c.Below n) ∧ e.splitRules.2.Below n := by
  fun_induction splitRules e with
  | case1 c d cs e hd ih =>
    rw [hd] at ih
    obtain ⟨hcs, he⟩ := ih h.2
    exact ⟨List.forall_mem_cons.2 ⟨h.1, hcs⟩, he⟩
  | case2 e => exact ⟨fun c hc ↦ absurd hc List.not_mem_nil, h⟩

/-- Holes are filled in the conditions and in the conclusion. -/
theorem fillHoles_splitRules (values : Nat → Option Nameless) (e : Expression) :
    e.nameless.fillHoles values = (e.splitRules.1.map (·.nameless.fillHoles values)).foldr .implies
      (e.splitRules.2.nameless.fillHoles values) := by
  fun_induction splitRules e with
  | case1 c d cs e hd ih =>
    rw [hd] at ih
    exact congrArg (Nameless.implies _) ih
  | case2 e => rfl

end Expression

/-- Slots that all have a value have a list of values. -/
theorem Bindings.exists_mapM_get? {bindings : Bindings} {slots : List Variable}
    (h : ∀ slot ∈ slots, (bindings.get? slot).isSome = true) :
    ∃ values, slots.mapM bindings.get? = some values ∧
      List.Forall₂ (fun slot value ↦ bindings.get? slot = some value) slots values := by
  induction slots with
  | nil => exact ⟨[], rfl, .nil⟩
  | cons slot slots ih =>
    obtain ⟨hslot, hslots⟩ := List.forall_mem_cons.1 h
    obtain ⟨value, hvalue⟩ := Option.isSome_iff_exists.1 hslot
    obtain ⟨values, hvalues, hall⟩ := ih hslots
    exact ⟨value :: values, by rw [List.mapM_cons, hvalue, hvalues]; rfl, .cons hvalue hall⟩

/-- Specialized to the values that are found for its slots, a statement has the form of its opened
body with the holes filled. -/
theorem Expression.opens_fillHoles {statement body : Expression} {slots : List Variable}
    {values : List Expression} {bindings : Bindings} {n m : Nat} (hbelow : statement.Below n)
    (hdistinct : (statement.splitAlls.1.map (·.id)).Nodup)
    (hopen : statement.openAlls.run n = ((slots, body), m))
    (hvalues : List.Forall₂ (fun slot value ↦ bindings.get? slot = some value) slots values)
    (hkept : ∀ slot value, statement.hasHole slot = true → bindings.get? slot = some value →
      value.alphaEq (.hole slot) = true) :
    statement.nameless.Opens values (body.nameless.fillHoles bindings.form?) := by
  obtain ⟨slots', body', m', hopen', -, hids, -⟩ := openAlls_run hbelow
  cases hopen.symm.trans hopen'
  have hlength : values.length = statement.splitAlls.1.length := by
    rw [← hvalues.length_eq, ← List.length_map (·.id), hids, List.length_range']
  have hopens := opens_alls_of_nodup hdistinct hlength statement.splitAlls.2
  rw [alls_splitAlls] at hopens
  rw [fillHoles_openAlls hbelow hopen hvalues fun slot hslot ↦ ?_]
  · exact hopens
  · rw [Bindings.form?_eq]
    cases hvalue : bindings.get? slot with
    | none => rfl
    | some value => exact alphaEq_iff.1 (hkept slot value hslot hvalue)

/-! ### The theorem -/

/-- Whether everything is at hand to prove a goal from a statement: its conclusion, once it is
opened, matches the goal; the match determines a value for every slot; and each condition, filled
with the values, is known. -/
structure ProofState.Supplies (s : ProofState) (statement goal : Expression) (bindings : Bindings) :
    Prop where
  conclusion : (statement.openAlls.run s.nextVariable).1.2.splitRules.2.match? goal = some bindings
  values : ∀ slot ∈ (statement.openAlls.run s.nextVariable).1.1, (bindings.get? slot).isSome = true
  conditions : ∀ c ∈ (statement.openAlls.run s.nextVariable).1.2.splitRules.1, ∃ e ∈ s.history,
    ((c.fill bindings).run (statement.openAlls.run s.nextVariable).2).1.alphaEq e.statement = true

/-- Whether everything is at hand can be computed. -/
theorem ProofState.exists_supplies_iff {s : ProofState} {statement goal : Expression} :
    (∃ bindings, s.Supplies statement goal bindings) ↔
      ((statement.openAlls.run s.nextVariable).1.2.splitRules.2.match? goal).any (fun bindings ↦
        (statement.openAlls.run s.nextVariable).1.1.all (fun slot ↦ (bindings.get? slot).isSome) &&
        (statement.openAlls.run s.nextVariable).1.2.splitRules.1.all fun c ↦ s.history.any fun e ↦
          ((c.fill bindings).run (statement.openAlls.run s.nextVariable).2).1.alphaEq e.statement)
            = true := by
  simp only [Option.any_eq_true, Bool.and_eq_true, List.all_eq_true, List.any_eq_true]
  exact exists_congr fun bindings ↦
    ⟨fun ⟨h, h', h''⟩ ↦ ⟨h, h', h''⟩, fun ⟨h, h', h''⟩ ↦ ⟨h, h', h''⟩⟩

instance (s : ProofState) (statement goal : Expression) :
    Decidable (∃ bindings, s.Supplies statement goal bindings) :=
  decidable_of_iff _ ProofState.exists_supplies_iff.symm

/-- The statement, specialized to the values, is then a rule from known conditions to the goal. -/
theorem ProofState.Supplies.exists_opens {s : ProofState} {statement goal body : Expression}
    {bindings : Bindings} {slots : List Variable} {m : Nat}
    (h : s.Supplies statement goal bindings) (hnames : s.Unambiguous)
    (hbelow : statement.Below s.nextVariable) (hgoal : goal.Below s.nextVariable)
    (hdistinct : (statement.splitAlls.1.map (·.id)).Nodup)
    (hkept : ∀ slot value, statement.hasHole slot = true → bindings.get? slot = some value →
      value.alphaEq (.hole slot) = true)
    (hopen : statement.openAlls.run s.nextVariable = ((slots, body), m)) :
    ∃ values, ∃ conditions : List Nameless, slots.mapM bindings.get? = some values ∧
      (∀ e ∈ values, e.Below m) ∧ (∀ c ∈ conditions, ∃ known, s.Shows known c) ∧
        statement.nameless.Opens values (conditions.foldr .implies goal.nameless) := by
  obtain ⟨hconclusion, hslots, hconditions⟩ := h
  rw [hopen] at hconclusion hslots hconditions
  obtain ⟨slots', body', m', hopen', hle, -, hbody, -⟩ := Expression.openAlls_run hbelow
  cases hopen.symm.trans hopen'
  have hm : s.nextVariable ≤ m := Nat.le_trans (Nat.le_add_right _ _) hle
  have hbindings : bindings.Below m := Expression.match?_below (hgoal.mono hm) hconclusion
  obtain ⟨values, hvalues, hall⟩ := Bindings.exists_mapM_get? hslots
  obtain ⟨hbelowConditions, hbelowConclusion⟩ := Expression.splitRules_below hbody
  have hfilled : body.splitRules.2.nameless.fillHoles bindings.form? = goal.nameless :=
    (Expression.fill_alphaEq_iff hbelowConclusion hbindings).1
      (Expression.solves_of_matchWith hbelowConclusion (hgoal.mono hm)
        (fun _ hb ↦ absurd hb List.not_mem_nil) hconclusion).fills
  refine ⟨values, body.splitRules.1.map (·.nameless.fillHoles bindings.form?), hvalues,
    hbindings.mapM_get? hvalues, List.forall_mem_map.2 fun c hc ↦ ?_, ?_⟩
  · obtain ⟨entry, hentry, halpha⟩ := hconditions c hc
    have hform := (Expression.fill_alphaEq_iff (hbelowConditions c hc) hbindings).1 halpha
    exact ⟨entry.name, entry.statement, by rw [get?, hnames.find? hentry]; rfl, hform.symm⟩
  · rw [← hfilled, ← Expression.fillHoles_splitRules]
    exact Expression.opens_fillHoles hbelow hdistinct hopen hall hkept

namespace Search

open Attempt ProofState Expression

variable {μ : Type} {x : Session μ}

/-- **Proving backwards succeeds if everything is at hand.** If no name is ambiguous, and a
statement with different quantified variables supplies what a goal needs, then the goal is proved
backwards from the statement, and the name that is answered stands for it. The goal is to be no
rule, and the match is to give no other value to a hole that the statement itself has. Any rules and
tactics may be registered; none is needed. -/
theorem backwards_succeeds (external : External μ) {source : Reference}
    {statement goal : Expression}
    {bindings : Bindings} (hsettled : x.state.Settled) (hnames : x.state.Unambiguous)
    (hsource : (Building.proposition source).run.run x.state = (.ok statement, x.state))
    (hdistinct : (statement.splitAlls.1.map (·.id)).Nodup)
    (hgoal : goal.Below x.state.nextVariable)
    (hsupplies : x.state.Supplies statement goal bindings)
    (hrule : ∀ a b, goal ≠ .implies a b)
    (hkept : ∀ slot value, statement.hasHole slot = true → bindings.get? slot = some value →
      value.alphaEq (.hole slot) = true) :
    ∃ name y e, ((prover external).backwards source goal).run.run x = (.ok name, y) ∧
      y.state.get? name = some e ∧ e.alphaEq goal = true := by
  obtain ⟨name, hname, hstatement⟩ := Building.exists_of_proposition_run hsource
  have hbelow := hsettled.below hstatement
  obtain ⟨slots, body, m, hopen, hle, -, -, -⟩ := Expression.openAlls_run hbelow
  have hm : x.state.nextVariable ≤ m := Nat.le_trans (Nat.le_add_right _ _) hle
  obtain ⟨values, conditions, hvalues, hvaluesBelow, hknown, hopens⟩ :=
    hsupplies.exists_opens hnames hbelow hgoal hdistinct hkept hopen
  have hconclusion := hsupplies.conclusion
  rw [hopen] at hconclusion
  have hstop : ∀ s t, goal.nameless ≠ .implies s t := fun s t h ↦ by
    obtain ⟨a, b, rfl, -⟩ := Expression.exists_of_nameless_eq_implies h
    exact hrule a b rfl
  obtain ⟨name, y, hrun, -, e, he, hform⟩ := Prover.backwards_achieves (prover_recalls external)
    hnames hname hstatement hopen hm hconclusion hvalues hvaluesBelow hopens hknown hstop hsettled
  exact ⟨name, y, e, hrun, he, Expression.alphaEq_iff.2 hform⟩

/-- The values are the variables of the quantifiers, exchanged. -/
theorem backwards_succeeds_exchanged :
    let x : Variable := ⟨"x", 0⟩
    let y : Variable := ⟨"y", 1⟩
    let statement : Expression :=
      alls [x, y] (rules [.call "R" [.var x, .var y], .call "S" [.var y]]
      (.call "P" [.var x, .var y]))
    let known : List Entry := [⟨"k", .call "S" [.var x], .supposition⟩,
      ⟨"h", .call "R" [.var y, .var x], .supposition⟩, ⟨"lemma", statement, .supposition⟩]
    let session : Session Unit :=
      ⟨{ ProofState.initial 2 16 with current := { deduction := ⟨"root", [], known⟩ } }, ()⟩
    ∃ name t e, ((prover .none).backwards (.name "lemma") (.call "P" [.var y, .var x])).run.run
      session = (.ok name, t) ∧ t.state.get? name = some e ∧
        e.alphaEq (.call "P" [.var y, .var x]) = true := by
  intro x y statement known session
  have hx : x.id < 2 := by decide
  have hy : y.id < 2 := by decide
  have hsettled : ∀ e ∈ known, e.statement.Below 2 := by
    simpa [known, statement] using ⟨⟨trivial, hx, trivial⟩, ⟨trivial, hy, hx, trivial⟩,
      hx, hy, ⟨trivial, hx, hy, trivial⟩, ⟨trivial, hy, trivial⟩, trivial, hx, hy, trivial⟩
  obtain ⟨bindings, hsupplies⟩ : ∃ bindings,
      session.state.Supplies statement (.call "P" [.var y, .var x]) bindings := by decide +kernel
  exact backwards_succeeds .none hsettled (by decide +kernel) rfl (by decide)
    ⟨trivial, hy, hx, trivial⟩ hsupplies (fun _ _ h ↦ by cases h) fun _ _ h ↦ by cases h

/-- Two goals that are not proved, although everything is at hand. The first is a rule, which is
discharged itself. The second would be an instance of the statement, if its hole were a quantified
variable. -/
theorem exists_unproved :
    let p : Variable := ⟨"p", 0⟩
    let rule := implies (.symbol "a") (.symbol "b")
    ∀ given ∈ [([⟨"known", .call "holds" [rule], .supposition⟩,
        ⟨"lemma", all p (implies (.call "holds" [.var p]) (.var p)), .supposition⟩], rule),
      ([⟨"lemma", .call "P" [.hole p], .supposition⟩], .call "P" [.symbol "a"])],
      let session : Session Unit :=
        ⟨{ ProofState.initial 1 16 with current := { deduction := ⟨"root", [], given.1⟩ } }, ()⟩
      session.state.Settled ∧ session.state.Unambiguous ∧ ∃ statement,
        (Building.proposition (.name "lemma")).run.run session.state =
          (.ok statement, session.state) ∧ (statement.splitAlls.1.map (·.id)).Nodup ∧
        given.2.Below 1 ∧ (∃ bindings, session.state.Supplies statement given.2 bindings) ∧
          (((prover .none).backwards (.name "lemma") given.2).run.run session).1.isOk = false := by
  intro p rule
  have hp : p.id < 1 := by decide
  refine List.forall_mem_cons.2 ⟨⟨?_, by decide +kernel, _, rfl, by decide, ⟨trivial, trivial⟩,
    by decide +kernel, by decide +kernel⟩, List.forall_mem_singleton.2 ⟨?_, by decide +kernel, _,
      rfl, by decide, ⟨trivial, trivial, trivial⟩, by decide +kernel, by decide +kernel⟩⟩
  · exact List.forall_mem_cons.2 ⟨⟨trivial, ⟨trivial, trivial⟩, trivial⟩,
      List.forall_mem_singleton.2 ⟨hp, ⟨trivial, hp, trivial⟩, hp⟩⟩
  · exact List.forall_mem_singleton.2 ⟨trivial, trivial, trivial⟩

end Search

end NaturalDeduction
