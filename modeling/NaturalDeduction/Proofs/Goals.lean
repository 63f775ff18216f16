import NaturalDeduction.Proofs.Congruence
import NaturalDeduction.Proofs.Rollback

/-!
# Goals

A goal is worked on from the outside: introductions peel its quantifiers and conditions, in whatever
order they stand, and make parameters and conditions of its deduction. When the goal is concluded,
the deduction is closed the other way round, with all its conditions below all its parameters. So
the two are inverse for the goals in which all quantifiers that can be peeled stand above all
conditions (`Expression.Prenex`), and only for these (`Goal.conclude_of_intros`).

Introductions always succeed, because a parameter is drawn for each quantifier and nothing mentions
it yet, and because conditions are supposed under names that are generated. What they do is
collected in `Goal.Peels`. Between introducing and concluding any operations may be carried out that
do not close the goal's deduction or cut it back (`Workbench.ReachesAbove`).

That the conditions end up below the parameters is how deductions are closed. For a goal like `(-> p
(forall (x) q))` the closed theorem is `(forall (x) (-> p q))`, which is provable from it but is not
it, and the conclusion is refused (`exists_goal_missed`).

Main definitions and statements:

* `Expression.layers`: what there is to peel, in order; `Expression.Prenex` says which orders are
  fine.
* `Goal.Peels`: what introductions do, with the parameters and the conditions that they made.
* `Goal.Ready.intros_run`: introductions succeed until no layer is left.
* `Goal.conclude_of_intros`: the two directions, for every goal and everything that is done
  between introducing and concluding.
-/

namespace NaturalDeduction

/-! ### Layers -/

/-- What one introduction peels. -/
inductive Layer where
  | quantifier
  | condition
  deriving DecidableEq

namespace Expression

/-- What introductions peel, the outermost layer first. -/
def layers : Expression → List Layer
  | binder .universal _ body => .quantifier :: body.layers
  | implies _ conclusion => .condition :: conclusion.layers
  | _ => []

/-- Whether all quantifiers that introductions peel stand above all conditions. -/
def Prenex (e : Expression) : Prop :=
  e.layers.Pairwise fun outer inner ↦ inner = .quantifier → outer = .quantifier

instance (e : Expression) : Decidable e.Prenex := inferInstanceAs (Decidable (List.Pairwise _ _))

/-- Quantifiers in front are layers in front. -/
theorem layers_alls (vs : List Variable) (e : Expression) :
    (alls vs e).layers = List.replicate vs.length .quantifier ++ e.layers := by
  induction vs with
  | nil => rfl
  | cons v rest ih => exact congrArg (Layer.quantifier :: ·) ih

theorem layers_rules (conditions : List Expression) (e : Expression) :
    (rules conditions e).layers = List.replicate conditions.length .condition ++ e.layers := by
  induction conditions with
  | nil => rfl
  | cons c rest ih => exact congrArg (Layer.condition :: ·) ih

/-- A closed theorem is prenex, unless what was derived has layers itself. -/
theorem prenex_alls_rules (vs : List Variable) (conditions : List Expression) {e : Expression}
    (h : e.layers = []) : (alls vs (rules conditions e)).Prenex := by
  rw [Prenex, layers_alls, layers_rules, h, List.append_nil]
  refine List.pairwise_append.2 ⟨?_, ?_, ?_⟩
  · exact List.pairwise_replicate.2 (.inr fun _ ↦ rfl)
  · exact List.pairwise_replicate.2 (.inr fun h ↦ h)
  · intro a ha b hb _
    exact (List.mem_replicate.1 ha).2

/-- What is left open in a comparison has no layers. -/
theorem layers_eq_of_equalUnder {leeway : Leeway} {pairs : Pairing} {a b : Expression}
    (h : equalUnder leeway pairs a b = true) : a.layers = b.layers := by
  induction h using equalUnder_induction with
  | @binder _ kind _ _ _ _ _ ih =>
    cases kind with
    | universal => exact congrArg (Layer.quantifier :: ·) ih
    | _ => rfl
  | implies _ _ _ ih => exact congrArg (Layer.condition :: ·) ih
  | _ => rfl

/-- The number of nodes is enough of a budget for peeling all layers. -/
theorem length_layers_lt_size (e : Expression) : e.layers.length < e.size := by
  induction e with
  | binder k v body ih =>
    cases k with
    | universal =>
      rw [layers, List.length_cons, size]
      omega
    | _ => exact size_pos _
  | implies a b iha ihb =>
    rw [layers, List.length_cons, size]
    omega
  | _ => exact size_pos _

end Expression

/-! ### Quantifying again

When a quantifier is peeled, a parameter is put for its variable, and when the deduction is closed,
the parameter is bound again. The second undoes the first if the parameter does not occur in the
body, as is the case for one that was just drawn.
-/

/-- Opening a binder with a new variable and closing it again changes nothing. -/
theorem Nameless.abstractAt_instantiateAt {id : Nat} {t : Nameless} (h : t.occurs id = false)
    (depth : Nat) : (t.instantiateAt (.free id) depth).abstractAt id depth = t := by
  induction t generalizing depth with
  | free i =>
    have hi : i ≠ id := by simpa [occurs] using h
    simp [instantiateAt, abstractAt, hi]
  | bound index =>
    by_cases hindex : index = depth <;> simp [instantiateAt, abstractAt, hindex]
  | binder kind body ih => rw [instantiateAt, abstractAt, ih h]
  | implies a b iha ihb | equals a b iha ihb =>
    obtain ⟨ha, hb⟩ := Bool.or_eq_false_iff.1 h
    rw [instantiateAt, abstractAt, iha ha, ihb hb]
  | application items ih =>
    rw [occurs, occursIn_eq_any, List.any_eq_false] at h
    rw [instantiateAt, abstractAt, instantiateAllAt_eq_map, abstractAllAt_eq_map, List.map_map]
    refine congrArg application ((List.map_congr_left fun t ht ↦ ?_).trans (List.map_id items))
    exact ih t ht (Bool.eq_false_iff.2 (h t ht)) depth
  | _ => rfl

namespace Expression

/-- A bound variable may be replaced by a new one. -/
theorem nameless_all_of_instantiateAt {v w : Variable} {body body' : Expression} {n : Nat}
    (hbody : body.Below n) (hw : n ≤ w.id)
    (h : body'.nameless = (body.namelessIn [v.id]).instantiateAt (.free w.id) 0) :
    (all w body').nameless = (all v body).nameless := by
  have hfree : (body.namelessIn [v.id]).occurs w.id = false := by
    refine Bool.eq_false_iff.2 fun hoccurs ↦ ?_
    have hlt := hbody.lt_of_occursFree (occurs_namelessIn.1 hoccurs).1
    omega
  rw [nameless_all, h, Nameless.abstractAt_instantiateAt hfree]
  rfl

/-- Quantifying does not tell forms apart that are the same. -/
theorem nameless_alls_congr {a b : Expression} (h : a.nameless = b.nameless) (vs : List Variable) :
    (alls vs a).nameless = (alls vs b).nameless := by
  induction vs with
  | nil => exact h
  | cons v rest ih =>
    show (all v (alls rest a)).nameless = (all v (alls rest b)).nameless
    rw [nameless_all, nameless_all, ih]

theorem nameless_rules_congr {a b : Expression} (h : a.nameless = b.nameless)
    (conditions : List Expression) :
    (rules conditions a).nameless = (rules conditions b).nameless := by
  induction conditions with
  | nil => exact h
  | cons c rest ih => exact congrArg (Nameless.implies c.nameless) ih

end Expression

/-! ### Introductions

One introduction is run by the case of the layer that it peels (`Goal.introduce_run_implies`,
`Goal.introduce_run_universal`). Neither case is refused, and each leaves a goal that is ready
again, so the run of all introductions is an induction on the budget.
-/

namespace ProofState

variable {s : ProofState}

/-- A variable that is numbered above everything around may become a parameter. -/
theorem parameterObstacle?_eq_none {v : Variable} {n : Nat}
    (h : ∀ f ∈ s.enclosing, f.Below n) (hv : n ≤ v.id) : s.parameterObstacle? v = none := by
  refine List.findSome?_eq_none_iff.2 fun f hf ↦ ?_
  have hbelow := h f (List.mem_reverse.1 hf)
  have hparameters : f.deduction.parameters.any (·.id == v.id) = false := by
    refine List.any_eq_false.2 fun p hp ↦ ?_
    have hlt := hbelow.parameters p hp
    simp only [beq_iff_eq]
    omega
  have hstatements : f.deduction.entries.reverse.find? (·.statement.occursFree v) = none := by
    refine List.find?_eq_none.2 fun e he hfree ↦ ?_
    have hlt := (hbelow.statements e (List.mem_reverse.1 he)).lt_of_occursFree hfree
    omega
  rw [hparameters, hstatements]
  rfl

end ProofState

/-- What was added last is found under its name in the current deduction. -/
theorem ProofState.get?_add (s : ProofState) (e : Entry) :
    (s.add e).current.deduction.get? e.name = some e.statement := by
  have hfind : (s.add e).current.deduction.find? e.name = some e :=
    List.find?_cons_of_pos (beq_self_eq_true e.name)
  rw [Deduction.get?, hfind]
  rfl

/-- The conditions of a frame that grows stay the first ones. -/
theorem Frame.Grows.conditions {f g : Frame} (h : f.Grows g) :
    f.deduction.conditions <+: g.deduction.conditions :=
  List.reverse_prefix.2 ((h.entries.filter _).map _)

/-- A new parameter comes behind the others, so they stand in the order of the quantifiers. -/
theorem Deduction.parameters_addParameter {d : Deduction} {v : Variable}
    (h : ∀ p ∈ d.parameters, p.id ≠ v.id) :
    (d.addParameter v).parameters = d.parameters ++ [v] := by
  have hany : d.parameters.any (·.id == v.id) = false := by simpa using h
  rw [addParameter, hany]
  rfl

namespace Building

variable {s : ProofState}

/-- A statement that is supposed under a generated name is always added. -/
theorem suppose_none_run (e : Expression) (s : ProofState) :
    (suppose none e).run.run s = (.ok (ProofState.generatedName s.freeNumber),
      ({ s with nextName := s.freeNumber + 1 } : ProofState).add
        ⟨ProofState.generatedName s.freeNumber, e, .supposition⟩) := conclude_run e .supposition s

/-- A parameter that nothing mentions is added without further ado. -/
theorem addParameter_run {v : Variable} (h : s.parameterObstacle? v = none) :
    (addParameter v).run.run s = (.ok (), s.mapDeduction (·.addParameter v)) := by
  unfold addParameter
  rw [run_bind_ok (run_get_eq s), h]
  rfl

end Building

namespace Goal

variable {g : Goal} {s : ProofState}

/-- Whether a goal can be worked on, and all variables are below the counter. -/
structure Ready (g : Goal) (s : ProofState) : Prop where
  phase : g.phase ≠ .concluded
  remaining : g.remaining.Below s.nextVariable
  frames : ∀ f ∈ s.frames, f.Below s.nextVariable

/-- A goal stays ready when a parameter is added: the body that remains mentions no variable beyond
the counter. -/
theorem Ready.parameter {w : Variable} {body : Expression} {n : Nat} (h : g.Ready s)
    (hw : s.nextVariable ≤ w.id) (hlt : w.id < n) (hbody : body.Below n) :
    Ready { g with remaining := body, phase := .peeling }
      (({ s with nextVariable := n } : ProofState).mapDeduction (·.addParameter w)) := by
  have hle : s.nextVariable ≤ n := by omega
  refine ⟨nofun, hbody, fun f hf ↦ ?_⟩
  rcases List.mem_cons.1 hf with rfl | hf
  · have hcurrent := (h.frames s.current List.mem_cons_self).mono hle
    refine ⟨fun e he ↦ hcurrent.statements e ?_, fun p hp ↦ ?_, hcurrent.rules⟩
    · exact Deduction.entries_addParameter s.current.deduction w ▸ he
    · rcases Deduction.mem_parameters_addParameter hp with hp | rfl
      · exact hcurrent.parameters p hp
      · exact hlt
  · exact (h.frames f (List.mem_cons_of_mem _ hf)).mono hle

/-- It stays ready when a condition is supposed. -/
theorem Ready.condition {c d : Expression} (h : g.Ready s) (hg : g.remaining = .implies c d)
    (k : Nat) (name : String) :
    Ready { g with remaining := d, phase := .peeling }
      (({ s with nextName := k } : ProofState).add ⟨name, c, .supposition⟩) := by
  have himplies := h.remaining
  rw [hg] at himplies
  refine ⟨nofun, himplies.2, fun f hf ↦ ?_⟩
  rcases List.mem_cons.1 hf with rfl | hf
  · exact (h.frames s.current List.mem_cons_self).add himplies.1
  · exact h.frames f (List.mem_cons_of_mem _ hf)

/-- An operation of construction runs beside the goal. -/
theorem step_run {α : Type} {act : Building α} {result : Except Refusal α} {s' : ProofState}
    (h : act.run.run s = (result, s')) : (step act).run.run (g, s) = (result, (g, s')) := by
  show ((act.run.run s).1, (g, (act.run.run s).2)) = _
  rw [h]

/-- A condition becomes a condition of the deduction, under a generated name. -/
theorem introduce_run_implies {c d : Expression} (h : g.phase ≠ .concluded)
    (hg : g.remaining = .implies c d) :
    (introduce none).run.run (g, s) =
      (.ok (.hypothesis (ProofState.generatedName s.freeNumber) c),
        ({ g with remaining := d, phase := .peeling },
          ({ s with nextName := s.freeNumber + 1 } : ProofState).add
            ⟨ProofState.generatedName s.freeNumber, c, .supposition⟩)) := by
  unfold introduce
  rw [run_bind_ok (run_get_eq (g, s))]
  dsimp only
  rw [if_neg h, hg]
  dsimp only
  rw [run_bind_ok (step_run (Building.suppose_none_run c s))]
  rfl

/-- A quantifier becomes a parameter of the deduction, with a variable that is drawn for it. -/
theorem introduce_run_universal {v : Variable} {body : Expression} (h : g.Ready s)
    (hg : g.remaining = .binder .universal v body) (name : Option String) :
    ∃ w body' n, (introduce name).run.run (g, s) =
        (.ok (.parameter w), ({ g with remaining := body', phase := .peeling },
          ({ s with nextVariable := n } : ProofState).mapDeduction (·.addParameter w))) ∧
      s.nextVariable ≤ w.id ∧ w.id < n ∧ body'.Below n ∧
        (Expression.all w body').nameless = g.remaining.nameless := by
  have hbinder := h.remaining
  rw [hg] at hbinder
  obtain ⟨hv, hbody⟩ : v.id < s.nextVariable ∧ body.Below s.nextVariable := hbinder
  let w : Variable := ⟨v.hint, s.nextVariable⟩
  have hvalue : (Expression.var w).Below (s.nextVariable + 1) := Nat.lt_succ_self _
  obtain ⟨hle, hbody', hform⟩ := Expression.substitute_var_draws (Nat.lt_succ_of_lt hv)
    (hbody.mono (Nat.le_succ _)) hvalue
  -- the variable is drawn at the counter, so nothing in an enclosing deduction mentions it
  have hobstacle : ∀ n, ({ s with nextVariable := n } : ProofState).parameterObstacle? w = none :=
    fun n ↦ ProofState.parameterObstacle?_eq_none
      (fun f hf ↦ h.frames f (List.mem_cons_of_mem _ hf)) (Nat.le_refl s.nextVariable)
  obtain ⟨⟨body', n⟩, hrun⟩ : ∃ drawn,
      (body.substitute [⟨.var v, .var w⟩] .all).run (s.nextVariable + 1) = drawn := ⟨_, rfl⟩
  rw [hrun] at hle hbody' hform
  refine ⟨w, body', n, ?_, Nat.le_refl _, hle, hbody', ?_⟩
  · have hrefresh : (Building.draw v.refresh).run.run s =
        (.ok w, { s with nextVariable := s.nextVariable + 1 }) := rfl
    have hsubstitute : (Building.draw (body.substitute [⟨.var v, .var w⟩] .all)).run.run
        { s with nextVariable := s.nextVariable + 1 } =
          (.ok body', { s with nextVariable := n }) := by
      rw [Building.draw_run, hrun]
    unfold introduce
    rw [run_bind_ok (run_get_eq (g, s))]
    dsimp only
    rw [if_neg h.phase, hg]
    dsimp only
    rw [run_bind_ok (step_run hrefresh), run_bind_ok (step_run hsubstitute),
      run_bind_ok (step_run (Building.addParameter_run (hobstacle n)))]
    rfl
  · rw [hg]
    exact Expression.nameless_all_of_instantiateAt hbody (Nat.le_refl s.nextVariable) hform

/-- Where no layer is left, an introduction says so and changes nothing. -/
theorem introduce_run_done (h : g.phase ≠ .concluded) (hg : g.remaining.layers = [])
    (name : Option String) : (introduce name).run.run (g, s) = (.ok .done, (g, s)) := by
  unfold introduce
  rw [run_bind_ok (run_get_eq (g, s))]
  dsimp only
  rw [if_neg h]
  split
  · rename_i hremaining
    rw [hremaining] at hg
    cases hg
  · rename_i hremaining
    rw [hremaining] at hg
    cases hg
  · rfl

/-- What a run of introductions does: it adds parameters and conditions to the goal's deduction, and
nothing else. If the goal is prenex, quantifying over the parameters and stating the conditions
gives it back. -/
structure Peels (x y : Goal × ProofState) (vs : List Variable) (cs : List Expression) : Prop where
  ready : y.1.Ready y.2
  name : y.1.name = x.1.name
  statement : y.1.statement = x.1.statement
  depth : y.1.depth = x.1.depth
  enclosing : y.2.enclosing = x.2.enclosing
  title : y.2.current.deduction.name = x.2.current.deduction.name
  parameters : y.2.current.deduction.parameters = x.2.current.deduction.parameters ++ vs
  conditions : y.2.current.deduction.conditions = x.2.current.deduction.conditions ++ cs
  lastDerived? : y.2.current.deduction.lastDerived? = x.2.current.deduction.lastDerived?
  rules : y.2.current.rules = x.2.current.rules
  abbreviations : y.2.current.abbreviations = x.2.current.abbreviations
  nextName_le : x.2.nextName ≤ y.2.nextName
  peeled : vs = [] ∨ .quantifier ∈ x.1.remaining.layers
  form : x.1.remaining.Prenex →
    (Expression.alls vs (.rules cs y.1.remaining)).nameless = x.1.remaining.nameless

/-- Nothing peeled yet. -/
theorem Peels.refl (h : g.Ready s) : Peels (g, s) (g, s) [] [] where
  ready := h
  name := rfl
  statement := rfl
  depth := rfl
  enclosing := rfl
  title := rfl
  parameters := (List.append_nil _).symm
  conditions := (List.append_nil _).symm
  lastDerived? := rfl
  rules := rfl
  abbreviations := rfl
  nextName_le := Nat.le_refl _
  peeled := .inl rfl
  form _ := rfl

/-- A condition is peeled first. -/
theorem Peels.cons_condition {c d : Expression} {y : Goal × ProofState} {vs : List Variable}
    {cs : List Expression} {k : Nat} {name : String} (hg : g.remaining = .implies c d)
    (hk : s.nextName ≤ k) (h : Peels ({ g with remaining := d, phase := .peeling },
      ({ s with nextName := k } : ProofState).add ⟨name, c, .supposition⟩) y vs cs) :
    Peels (g, s) y vs (c :: cs) where
  ready := h.ready
  name := h.name
  statement := h.statement
  depth := h.depth
  enclosing := h.enclosing
  title := h.title
  parameters := h.parameters
  conditions := by
    have hconditions := h.conditions
    have hadd : (({ s with nextName := k } : ProofState).add
        ⟨name, c, .supposition⟩).current.deduction.conditions =
          s.current.deduction.conditions ++ [c] := List.reverse_cons
    rw [hconditions, hadd, List.append_assoc]
    rfl
  lastDerived? := h.lastDerived?
  rules := h.rules
  abbreviations := h.abbreviations
  nextName_le := Nat.le_trans hk h.nextName_le
  peeled := by
    refine h.peeled.imp_right fun hmem ↦ ?_
    rw [hg]
    exact List.mem_cons_of_mem _ hmem
  form hprenex := by
    rw [hg] at hprenex ⊢
    obtain ⟨houter, hinner⟩ := List.pairwise_cons.1 hprenex
    -- no quantifier is left below a condition
    have hvs : vs = [] := h.peeled.resolve_right fun hmem ↦ nomatch houter _ hmem rfl
    have hform := h.form hinner
    rw [hvs] at hform ⊢
    exact congrArg (Nameless.implies c.nameless) hform

/-- A quantifier is peeled first. -/
theorem Peels.cons_parameter {v w : Variable} {body body' : Expression} {y : Goal × ProofState}
    {vs : List Variable} {cs : List Expression} {n : Nat}
    (hg : g.remaining = .binder .universal v body)
    (hparameters : (s.current.deduction.addParameter w).parameters =
      s.current.deduction.parameters ++ [w])
    (hform : (Expression.all w body').nameless = g.remaining.nameless)
    (h : Peels ({ g with remaining := body', phase := .peeling },
      ({ s with nextVariable := n } : ProofState).mapDeduction (·.addParameter w)) y vs cs) :
    Peels (g, s) y (w :: vs) cs where
  ready := h.ready
  name := h.name
  statement := h.statement
  depth := h.depth
  enclosing := h.enclosing
  title := by
    refine h.title.trans ?_
    show (s.current.deduction.addParameter w).name = _
    unfold Deduction.addParameter
    split <;> rfl
  parameters := by
    have hadd : y.2.current.deduction.parameters =
        (s.current.deduction.addParameter w).parameters ++ vs := h.parameters
    rw [hadd, hparameters, List.append_assoc]
    rfl
  conditions := by
    refine h.conditions.trans ?_
    show ((s.current.deduction.addParameter w).entries.filter _ |>.map _).reverse ++ cs = _
    rw [Deduction.entries_addParameter]
    rfl
  lastDerived? := by
    refine h.lastDerived?.trans ?_
    show (s.current.deduction.addParameter w).entries.find? _ = _
    rw [Deduction.entries_addParameter]
    rfl
  rules := h.rules
  abbreviations := h.abbreviations
  nextName_le := h.nextName_le
  peeled := .inr (by rw [hg]; exact List.mem_cons_self)
  form hprenex := by
    -- alpha-equal goals have the same layers, so the rest is prenex as the whole is
    have hlayers : (Expression.all w body').layers = g.remaining.layers :=
      Expression.layers_eq_of_equalUnder (Expression.alphaEq_iff.2 hform)
    have hinner : body'.Prenex := by
      rw [Expression.Prenex, ← hlayers] at hprenex
      exact (List.pairwise_cons.1 hprenex).2
    rw [← hform]
    show (Expression.all w (.alls vs (.rules cs y.1.remaining))).nameless = _
    rw [Expression.nameless_all, Expression.nameless_all, h.form hinner]

/-- One introduction, and the rest with what is left of the budget. -/
theorem introsWithin_run_cons {budget : Nat} {x y z : Goal × ProofState}
    {introduction : Introduction} {rest : List Introduction}
    (h : (introduce none).run.run x = (.ok introduction, y)) (hne : introduction ≠ .done)
    (hrest : (introsWithin budget).run.run y = (.ok rest, z)) :
    (introsWithin (budget + 1)).run.run x = (.ok (introduction :: rest), z) := by
  rw [introsWithin, run_bind_ok h]
  cases introduction with
  | done => exact absurd rfl hne
  | parameter | hypothesis =>
    show (introsWithin budget >>= fun rest ↦ pure (_ :: rest) : GoalBuilding _).run.run y = _
    rw [run_bind_ok hrest]
    rfl

/-- Introductions peel all layers, if the budget allows one more than there are. -/
theorem introsWithin_run {budget : Nat} (h : g.Ready s)
    (hbudget : g.remaining.layers.length < budget) :
    ∃ introductions y vs cs, (introsWithin budget).run.run (g, s) = (.ok introductions, y) ∧
      Peels (g, s) y vs cs ∧ y.1.remaining.layers = [] := by
  induction budget generalizing g s with
  | zero => exact absurd hbudget (Nat.not_lt_zero _)
  | succ budget ih =>
    -- what has no layers is peeled already, whatever it is
    have hdone : g.remaining.layers = [] → ∃ introductions y vs cs,
        (introsWithin (budget + 1)).run.run (g, s) = (.ok introductions, y) ∧
          Peels (g, s) y vs cs ∧ y.1.remaining.layers = [] := by
      intro hlayers
      refine ⟨[], (g, s), [], [], ?_, .refl h, hlayers⟩
      rw [introsWithin, run_bind_ok (introduce_run_done h.phase hlayers none)]
      rfl
    cases hg : g.remaining with
    | binder kind v body =>
      cases kind with
      | universal =>
        obtain ⟨w, body', n, hrun, hw, hlt, hbelow, hform⟩ := introduce_run_universal h hg none
        -- what was peeled differs from the goal in a bound name, so it has the same layers
        have hlayers : (Expression.all w body').layers = g.remaining.layers :=
          Expression.layers_eq_of_equalUnder (Expression.alphaEq_iff.2 hform)
        have hinner : body'.layers.length < budget := by
          rw [← hlayers] at hbudget
          exact Nat.lt_of_succ_lt_succ hbudget
        obtain ⟨rest, y, vs, cs, hrest, hpeels, hnone⟩ := ih (h.parameter hw hlt hbelow) hinner
        have hparameters := Deduction.parameters_addParameter fun p hp ↦ Nat.ne_of_lt
          (Nat.lt_of_lt_of_le ((h.frames _ List.mem_cons_self).parameters p hp) hw)
        exact ⟨_, y, w :: vs, cs, introsWithin_run_cons hrun nofun hrest,
          hpeels.cons_parameter hg hparameters hform, hnone⟩
      | existential | lambda => exact hdone (by rw [hg]; rfl)
    | implies c d =>
      have hinner : d.layers.length < budget := by
        rw [hg] at hbudget
        exact Nat.lt_of_succ_lt_succ hbudget
      obtain ⟨rest, y, vs, cs, hrest, hpeels, hnone⟩ := ih (h.condition hg _ _) hinner
      exact ⟨_, y, vs, c :: cs,
        introsWithin_run_cons (introduce_run_implies h.phase hg) nofun hrest,
        hpeels.cons_condition hg (Nat.le_succ_of_le (Building.le_firstFree _ _ _)), hnone⟩
    | atom | equals | application => exact hdone (by rw [hg]; rfl)

/-- All layers of a goal that is ready are peeled. -/
theorem Ready.intros_run (h : g.Ready s) :
    ∃ introductions y vs cs, intros.run.run (g, s) = (.ok introductions, y) ∧
      Peels (g, s) y vs cs ∧ y.1.remaining.layers = [] :=
  introsWithin_run h (Nat.lt_succ_of_lt g.remaining.length_layers_lt_size)

/-- The theorem of the deduction is equal to a prenex goal, if what was derived is equal to what the
introductions left. -/
theorem Peels.alphaEq {x y : Goal × ProofState} {vs : List Variable} {cs : List Expression}
    (h : Peels x y vs cs) (hprenex : x.1.remaining.Prenex) {e : Expression}
    (he : e.alphaEq y.1.remaining = true) :
    (Expression.alls vs (.rules cs e)).alphaEq x.1.remaining = true := by
  rw [Expression.alphaEq_iff, ← h.form hprenex]
  exact Expression.nameless_alls_congr
    (Expression.nameless_rules_congr (Expression.alphaEq_iff.1 he) cs) vs

/-! ### Concluding -/

section Conclude

variable {inner outer : List Frame} {f parent : Frame} {e : Entry}

/-- The theorem of a deduction that derived something is its last statement behind its conditions
and parameters. -/
theorem closedTheorem?_eq_some {d : Deduction} (h : d.lastDerived? = some e) :
    d.closedTheorem? = some (.alls d.parameters (.rules d.conditions e.statement)) := by
  rw [Deduction.closedTheorem?, h]
  rfl

/-- Closing first leaves what was opened further in. -/
theorem closing_run_ok {depth : Nat} {act : Building String} {name : String} {t : ProofState}
    (h : act.run.run (s.truncate depth) = (.ok name, t)) :
    (Building.closing depth act).run.run s = (.ok name, t) := by
  have htruncate : (modify (·.truncate depth) : Building PUnit).run.run s =
      (.ok ⟨⟩, s.truncate depth) := rfl
  rw [Building.closing, run_bind_ok htruncate, run_tryCatch_eq, h]

/-- When closing is refused, the deduction itself is left as well. -/
theorem closing_run_error {depth : Nat} {act : Building String} {refusal : Refusal} {t : ProofState}
    (h : act.run.run (s.truncate depth) = (.error refusal, t)) :
    (Building.closing depth act).run.run s = (.error refusal, t.truncate (depth - 1)) := by
  have htruncate : (modify (·.truncate depth) : Building PUnit).run.run s =
      (.ok ⟨⟩, s.truncate depth) := rfl
  rw [Building.closing, run_bind_ok htruncate, run_tryCatch_eq, h]
  rfl

/-- What was opened inside the goal's deduction is dropped. -/
theorem truncate_depth (hframes : s.frames = inner ++ f :: parent :: outer)
    (hdepth : g.depth = outer.length + 2) :
    s.truncate g.depth = s.outside f (parent :: outer) := by
  rw [hdepth]
  exact ProofState.truncate_eq hframes

/-- Giving up the goal's deduction leads to the state around it. -/
theorem truncate_outside (hdepth : g.depth = outer.length + 2) :
    (s.outside f (parent :: outer)).truncate (g.depth - 1) = s.outside parent outer := by
  have hframes : (s.outside f (parent :: outer)).frames = [f] ++ parent :: outer := rfl
  rw [hdepth]
  exact ProofState.truncate_eq hframes

/-- What refuses to conclude a goal discards its deduction. -/
theorem conclude_run_error (hphase : g.phase ≠ .concluded)
    (hframes : s.frames = inner ++ f :: parent :: outer) (hdepth : g.depth = outer.length + 2)
    {refusal : Refusal}
    (h : (Building.currentTheorem >>= fun actual ↦ do
        if !actual.equalUpTo .all g.statement then throw (.goalMissed g.statement actual)
        Building.close g.name).run.run (s.outside f (parent :: outer)) =
      (.error refusal, s.outside f (parent :: outer))) :
    g.conclude.run.run s = (.error refusal, s.outside parent outer) := by
  unfold conclude
  rw [if_neg hphase, ← truncate_outside hdepth]
  refine closing_run_error ?_
  rw [truncate_depth hframes hdepth]
  exact h

/-- A goal whose deduction proves something else is missed. -/
theorem conclude_run_missed (hphase : g.phase ≠ .concluded)
    (hframes : s.frames = inner ++ f :: parent :: outer) (hdepth : g.depth = outer.length + 2)
    {actual : Expression} (hactual : f.deduction.closedTheorem? = some actual)
    (hmissed : actual.equalUpTo .all g.statement = false) :
    g.conclude.run.run s =
      (.error (.goalMissed g.statement actual), s.outside parent outer) := by
  have hcurrent : (s.outside f (parent :: outer)).current.deduction.closedTheorem? =
      some actual := hactual
  refine conclude_run_error hphase hframes hdepth ?_
  rw [run_bind_eq, Building.currentTheorem_run, hcurrent]
  dsimp only
  rw [hmissed]
  rfl

/-- A goal whose deduction derived nothing is refused. -/
theorem conclude_run_nothingDerived (hphase : g.phase ≠ .concluded)
    (hframes : s.frames = inner ++ f :: parent :: outer) (hdepth : g.depth = outer.length + 2)
    (hnone : f.deduction.lastDerived? = none) :
    g.conclude.run.run s =
      (.error (.nothingDerived f.deduction.name), s.outside parent outer) := by
  have hcurrent : (s.outside f (parent :: outer)).current.deduction.closedTheorem? = none :=
    Option.map_eq_none_iff.2 hnone
  refine conclude_run_error hphase hframes hdepth ?_
  rw [run_bind_eq, Building.currentTheorem_run, hcurrent]
  rfl

/-- To conclude a goal whose deduction proves it is to install the theorem around it. -/
theorem conclude_run_of_install (hphase : g.phase ≠ .concluded)
    (hframes : s.frames = inner ++ f :: parent :: outer) (hdepth : g.depth = outer.length + 2)
    {actual : Expression} (hactual : f.deduction.closedTheorem? = some actual)
    (hmet : actual.equalUpTo .all g.statement = true) {name : String} {t : ProofState}
    (hinstall : (Building.install (g.name.getD f.deduction.name) actual
      (.deduction f.deduction)).run.run (s.outside parent outer) = (.ok name, t)) :
    g.conclude.run.run s = (.ok name, t) := by
  have hcurrent : (s.outside f (parent :: outer)).current.deduction.closedTheorem? =
      some actual := hactual
  have htheorem : Building.currentTheorem.run.run (s.outside f (parent :: outer)) =
      (.ok actual, s.outside f (parent :: outer)) := by
    rw [Building.currentTheorem_run, hcurrent]
  have hclose : (Building.close g.name).run.run (s.outside f (parent :: outer)) =
      (.ok name, t) := by
    have henclosing : (s.outside f (parent :: outer)).enclosing = parent :: outer := rfl
    rw [Building.close_run, henclosing, hcurrent]
    exact hinstall
  unfold conclude
  rw [if_neg hphase]
  refine closing_run_ok ?_
  rw [truncate_depth hframes hdepth, run_bind_ok htheorem, hmet]
  exact hclose

/-- A goal whose deduction proves it is concluded, if its name is free around it. -/
theorem conclude_run_ok (hphase : g.phase ≠ .concluded)
    (hframes : s.frames = inner ++ f :: parent :: outer) (hdepth : g.depth = outer.length + 2)
    {actual : Expression} (hactual : f.deduction.closedTheorem? = some actual)
    (hmet : actual.equalUpTo .all g.statement = true)
    (hname : parent.deduction.find? (g.name.getD f.deduction.name) = none) :
    g.conclude.run.run s = (.ok (g.name.getD f.deduction.name),
      (s.outside parent outer).add
        ⟨g.name.getD f.deduction.name, actual, .deduction f.deduction⟩) :=
  conclude_run_of_install hphase hframes hdepth hactual hmet
    (@Building.install_run_ok (s.outside parent outer) _ hname actual (.deduction f.deduction))

end Conclude

/-! ### The theorem -/

/-- A state with a new deduction. -/
def opened (s : ProofState) : ProofState :=
  { s with
    current := { deduction := .empty (ProofState.generatedName s.freeNumber) }
    enclosing := s.frames
    nextName := s.freeNumber + 1 }

/-- A goal without a name of its own opens a deduction with a generated one. -/
theorem start_none_run (P : Expression) (s : ProofState) :
    (start none P).run.run s = (.ok ⟨none, P, P, .untouched, s.depth + 1⟩, opened s) := rfl

/-- All layers of a goal that was just started are peeled. -/
theorem intros_run {s : ProofState} {P : Expression}
    (hs : ∀ f ∈ s.frames, f.Below s.nextVariable) (hP : P.Below s.nextVariable) :
    ∃ introductions g s₁ vs cs,
      intros.run.run (⟨none, P, P, .untouched, s.depth + 1⟩, opened s) =
        (.ok introductions, (g, s₁)) ∧
      Peels (⟨none, P, P, .untouched, s.depth + 1⟩, opened s) (g, s₁) vs cs ∧
        g.remaining.layers = [] := by
  have hready : Ready ⟨none, P, P, .untouched, s.depth + 1⟩ (opened s) := by
    refine ⟨nofun, hP, fun f hf ↦ ?_⟩
    rcases List.mem_cons.1 hf with rfl | hf
    · exact ⟨nofun, nofun, nofun⟩
    · exact hs f hf
  obtain ⟨introductions, ⟨g, s₁⟩, vs, cs, hintros, hpeels, hlayers⟩ := hready.intros_run
  exact ⟨introductions, g, s₁, vs, cs, hintros, hpeels, hlayers⟩

/-- **Introducing and concluding are inverse**, for a goal whose quantifiers all stand above its
conditions. Whatever operations follow the introductions, if the goal's deduction is not closed or
cut back meanwhile, has no more parameters and conditions, and what it derived last is what the
introductions left, then the goal is concluded, and its theorem is the stated one. Any other goal is
missed then, since a theorem is closed with all its parameters outermost. -/
theorem conclude_of_intros {s : ProofState} {P : Expression}
    (hs : ∀ f ∈ s.frames, f.Below s.nextVariable) (hP : P.Below s.nextVariable) :
    ∃ g₀ s₀ introductions g s₁, (start none P).run.run s = (.ok g₀, s₀) ∧
      intros.run.run (g₀, s₀) = (.ok introductions, (g, s₁)) ∧
        ∀ w w' : Workbench, w.state = s₁ → w.ReachesAbove s₁.checkpoint w' →
          ∀ f e, w'.state.frameAt? s.depth = some f →
            f.deduction.parameters.length = s₁.current.deduction.parameters.length →
            f.deduction.conditions.length = s₁.current.deduction.conditions.length →
            f.deduction.lastDerived? = some e → e.statement.alphaEq g.remaining = true →
              (P.Prenex → ∃ name t statement, g.conclude.run.run w'.state = (.ok name, t) ∧
                t.enclosing = s.enclosing ∧ t.current.deduction.get? name = some statement ∧
                  statement.alphaEq P = true ∧ statement.equalUpTo .all P = true) ∧
              (¬ P.Prenex → ∃ actual t,
                g.conclude.run.run w'.state = (.error (.goalMissed P actual), t) ∧
                  t.frames = s.frames) := by
  obtain ⟨introductions, g, s₁, vs, cs, hintros, hpeels, hlayers⟩ := intros_run hs hP
  refine ⟨_, _, introductions, g, s₁, start_none_run P s, hintros, ?_⟩
  rintro w w' rfl hreaches f e hf hparameters hconditions he hderived
  obtain ⟨inner, base, hframes, hbase⟩ := hreaches.frames_eq
  have henclosing : w.state.enclosing = s.current :: s.enclosing := hpeels.enclosing
  rw [henclosing] at hframes
  -- the goal's deduction is the one that has grown
  obtain rfl : base = f := by
    have hat := ProofState.frameAt?_eq_some_iff.2 ⟨inner, s.current :: s.enclosing, hframes, rfl⟩
    exact Option.some.inj (hat.symm.trans hf)
  have hparameters := hbase.parameters.eq_of_length hparameters.symm
  have hconditions := hbase.conditions.eq_of_length hconditions.symm
  have hphase : g.phase ≠ .concluded := hpeels.ready.phase
  have hdepth : g.depth = s.enclosing.length + 2 := hpeels.depth
  have hstatement : g.statement = P := hpeels.statement
  have hactual := closedTheorem?_eq_some he
  rw [← hparameters, ← hconditions, hpeels.parameters, hpeels.conditions] at hactual
  change base.deduction.closedTheorem? = some (.alls vs (.rules cs e.statement)) at hactual
  have hmet : P.Prenex → (Expression.alls vs (.rules cs e.statement)).alphaEq P = true :=
    fun hprenex ↦ hpeels.alphaEq hprenex hderived
  have hmissed : ¬ P.Prenex →
      (Expression.alls vs (.rules cs e.statement)).equalUpTo .all P = false := by
    intro hprenex
    refine Bool.eq_false_iff.2 fun hequal ↦ hprenex ?_
    have hnone : e.statement.layers = [] :=
      (Expression.layers_eq_of_equalUnder hderived).trans hlayers
    rw [Expression.Prenex, ← Expression.layers_eq_of_equalUnder hequal]
    exact Expression.prenex_alls_rules vs cs hnone
  refine ⟨fun hprenex ↦ ?_, fun hprenex ↦ ?_⟩
  · have halpha := hmet hprenex
    have hequal :
        (Expression.alls vs (.rules cs e.statement)).equalUpTo .all g.statement = true := by
      rw [hstatement]
      exact Expression.equalUnder_mono (Leeway.none_le _) (fun _ _ h ↦ h) halpha
    have htitle : g.name.getD base.deduction.name = ProofState.generatedName s.freeNumber := by
      have hname : g.name = none := hpeels.name
      rw [hname, Option.getD_none, hbase.name]
      exact hpeels.title
    -- the name was free when the goal was started, and nothing was added around it since
    have hfree : s.current.deduction.find? (g.name.getD base.deduction.name) = none := by
      rw [htitle]
      exact ProofState.deduction_find?_of_find? s.find?_generatedName List.mem_cons_self
    refine ⟨_, _, _, conclude_run_ok hphase hframes hdepth hactual hequal hfree, rfl, ?_, halpha,
      hstatement ▸ hequal⟩
    exact ProofState.get?_add (s.outside s.current s.enclosing) _
  · have hrun := conclude_run_missed hphase hframes hdepth hactual (hstatement ▸ hmissed hprenex)
    rw [hstatement] at hrun
    exact ⟨_, _, hrun, rfl⟩

/-- A rule about all things is proved again: the goal is opened, the rule is bound to its parameter
and detached, and the goal is concluded. -/
theorem conclude_of_intros_detachment :
    let claim (v : Variable) : Expression :=
      .all v (.implies (.call "P" [.var v]) (.call "Q" [.var v]))
    let w₀ := [.draw "x", .draw "y", .suppose (some "rule") (claim ⟨"x", 0⟩)].foldl
      Workbench.perform (.initial 0 16)
    ∃ g₀ s₀ introductions g s₁, (start none (claim ⟨"y", 1⟩)).run.run w₀.state = (.ok g₀, s₀) ∧
      intros.run.run (g₀, s₀) = (.ok introductions, (g, s₁)) ∧
        let w := [.bind (.name "rule") (.var ⟨"y", 2⟩),
          .apply (.relative (-1)) (.relative (-2))].foldl Workbench.perform ⟨s₁, [], [g]⟩
        ∃ name t statement, g.conclude.run.run w.state = (.ok name, t) ∧
          t.current.deduction.get? name = some statement ∧
            statement.alphaEq (claim ⟨"y", 1⟩) = true := by
  intro claim w₀
  have hclaim : ∀ v : Variable, v.id < 2 → (claim v).Below 2 := fun v hv ↦
    ⟨hv, ⟨trivial, hv, trivial⟩, trivial, hv, trivial⟩
  have hw₀ : w₀.Reachable := by
    have h := (Workbench.Reachable.initial 0 16).perform (.draw "x") trivial
    have h := h.perform (.draw "y") trivial
    exact h.perform (.suppose (some "rule") (claim ⟨"x", 0⟩)) (hclaim _ Nat.two_pos)
  have hsound : w₀.Sound false := hw₀.sound
  have hbelow : ∀ f ∈ w₀.state.frames, f.Below w₀.state.nextVariable := hsound.tidy.below
  obtain ⟨g₀, s₀, introductions, g, s₁, hstart, hintros, hconclude⟩ :=
    conclude_of_intros hbelow (hclaim ⟨"y", 1⟩ Nat.one_lt_two)
  refine ⟨g₀, s₀, introductions, g, s₁, hstart, hintros, ?_⟩
  intro w
  -- what is left to check of the run is decided once its goal and its state are known
  have hreaches (hbind : _) (happly : _) :
      (⟨s₁, [], [g]⟩ : Workbench).ReachesAbove s₁.checkpoint w :=
    (Workbench.ReachesAbove.start.perform (.bind (.name "rule") (.var ⟨"y", 2⟩)) hbind).perform
      (.apply (.relative (-1)) (.relative (-2))) happly
  have hframe (hdepth : w.state.enclosing.length = w₀.state.depth) :
      w.state.frameAt? w₀.state.depth = some w.state.current :=
    ProofState.frameAt?_eq_some_iff.2 ⟨[], w.state.enclosing, rfl, hdepth⟩
  have hderived (hlast : w.state.current.deduction.lastDerived?.any
      (·.statement.alphaEq g.remaining) = true) :=
    (Option.any_eq_true _ _).1 hlast
  rw [start_none_run] at hstart
  cases hstart
  obtain rfl : _ = s₁ := congrArg (·.2.2) hintros
  obtain rfl : _ = g := congrArg (·.2.1) hintros
  obtain ⟨e, he, halpha⟩ := hderived (by decide +kernel)
  have hmet := (hconclude _ w rfl (hreaches (by decide +kernel) (by decide +kernel)) _ e
    (hframe (by decide +kernel)) (by decide +kernel) (by decide +kernel) he halpha).1
  obtain ⟨name, t, statement, hrun, -, hget, halpha, -⟩ := hmet (by decide +kernel)
  exact ⟨name, t, statement, hrun, hget, halpha⟩

/-- A quantifier below a condition is not met: the deduction is closed with its parameter outermost.
Here `A → ∀ x, B x` is refused, although what is left of it was derived from `∀ x, B x`. -/
theorem exists_goal_missed :
    ∃ (s : ProofState) (P : Expression), (∀ f ∈ s.frames, f.Below s.nextVariable) ∧
      P.Below s.nextVariable ∧
        ∃ g₀ s₀ introductions g s₁, (start none P).run.run s = (.ok g₀, s₀) ∧
          intros.run.run (g₀, s₀) = (.ok introductions, (g, s₁)) ∧
            ∃ w w' : Workbench, w.state = s₁ ∧ w.ReachesAbove s₁.checkpoint w' ∧
              ∃ f e, w'.state.frameAt? s.depth = some f ∧
                f.deduction.parameters.length = s₁.current.deduction.parameters.length ∧
                f.deduction.conditions.length = s₁.current.deduction.conditions.length ∧
                f.deduction.lastDerived? = some e ∧ e.statement.alphaEq g.remaining = true ∧
                  ∀ name t, g.conclude.run.run w'.state ≠ (.ok name, t) := by
  let all : Expression := .all ⟨"x", 0⟩ (.call "B" [.var ⟨"x", 0⟩])
  let P : Expression := .implies (.symbol "A") all
  let w₀ := [.draw "x", .suppose (some "all") all].foldl Workbench.perform (.initial 0 16)
  have hall : all.Below 1 := ⟨Nat.one_pos, trivial, Nat.one_pos, trivial⟩
  have hP : P.Below 1 := ⟨trivial, hall⟩
  have hw₀ : w₀.Reachable :=
    ((Workbench.Reachable.initial 0 16).perform (.draw "x") trivial).perform
      (.suppose (some "all") all) hall
  have hsound : w₀.Sound false := hw₀.sound
  have hbelow : ∀ f ∈ w₀.state.frames, f.Below w₀.state.nextVariable := hsound.tidy.below
  obtain ⟨introductions, g, s₁, -, -, hintros, -, -⟩ := intros_run hbelow hP
  refine ⟨w₀.state, P, hbelow, hP, _, _, introductions, g, s₁, start_none_run P w₀.state,
    hintros, ?_⟩
  -- the instance is derived for the parameter that peeling drew, which is what is left of the goal
  let w : Workbench := ⟨s₁, [], []⟩
  let w' := w.perform (.bind (.name "all") (.var ⟨"x", 1⟩))
  have hreaches (habove : _) : w.ReachesAbove s₁.checkpoint w' := .perform .start _ habove
  have hframe (hdepth : w'.state.enclosing.length = w₀.state.depth) :
      w'.state.frameAt? w₀.state.depth = some w'.state.current :=
    ProofState.frameAt?_eq_some_iff.2 ⟨[], w'.state.enclosing, rfl, hdepth⟩
  have hderived (hlast : w'.state.current.deduction.lastDerived?.any
      (·.statement.alphaEq g.remaining) = true) :=
    (Option.any_eq_true _ _).1 hlast
  have hrefused (hfalse : (g.conclude.run.run w'.state).1.toBool = false) (name : String)
      (t : ProofState) : g.conclude.run.run w'.state ≠ (.ok name, t) := by
    intro hrun
    rw [hrun] at hfalse
    exact Bool.noConfusion hfalse
  -- all that follows is evaluated at the state in which peeling ended
  obtain rfl : _ = s₁ := congrArg (·.2.2) hintros
  obtain rfl : _ = g := congrArg (·.2.1) hintros
  obtain ⟨e, he, halpha⟩ := hderived (by decide +kernel)
  exact ⟨w, w', rfl, hreaches (by decide +kernel), _, e, hframe (by decide +kernel),
    (by decide +kernel), (by decide +kernel), he, halpha, hrefused (by decide +kernel)⟩

end Goal

end NaturalDeduction
