import NaturalDeduction.Proofs.Achieving
import NaturalDeduction.Proofs.Reports

/-!
# Closed theorems can be used

Closing a deduction generalizes over its parameters and makes rules of its conditions, the first
ones outermost. To use the theorem is to undo this from the outside in: it is specialized to a value
for each parameter, one after the other, and then applied to a proof of each condition. It is shown
here that this always succeeds and leads to what was derived, with the values put for the parameters
at once (`close_eliminates`).

Two facts about deductions carry the proof. No parameter is listed twice, so values that are put one
after the other are the values put at once. And what a deduction knows has variables below the
counter, as the values have, so that nothing is captured. Both hold in every state that is reached
(`Host.VisitedFor.parameters_nodup`).

The values may mention the parameters themselves, and each other's parameters. Values put one after
the other would then be put into values that were put before, if this were done on expressions
without renaming; on nameless forms there is nothing in a value that a later step could find.

Main definitions and statements:

* `Building.instantiateTheorem`: a value for each parameter, then a proof of each condition.
* `Building.shows_of_close`: what closing leaves visible.
* `Building.close_eliminates`: closing and then using the theorem.
-/

namespace NaturalDeduction

/-! ### Parameters -/

/-- A parameter is added only if it is not there yet, and closing starts with none. -/
theorem Deduction.parameters_invariant :
    Deduction.Invariant fun d ↦ (d.parameters.map (·.id)).Nodup where
  empty _ := List.nodup_nil
  add h _ := h
  addParameter {d} v h := by
    unfold Deduction.addParameter
    split
    · exact h
    · rename_i hv
      have hnew : ∀ w ∈ d.parameters, w.id ≠ v.id := by simpa using hv
      rw [List.map_append, List.nodup_append]
      refine ⟨h, List.nodup_singleton _, fun i hi j hj ↦ ?_⟩
      obtain ⟨w, hw, rfl⟩ := List.mem_map.1 hi
      rw [List.mem_singleton.1 hj]
      exact hnew w hw
  truncate _ _ h := h.sublist ((List.take_sublist _ _).map _)

/-- In every state that is reached, variables are below the counter, and no deduction lists a
parameter twice. -/
theorem Host.VisitedFor.parameters_nodup {μ : Type} {P : Policy} [P.Permissive]
    {external : External μ} {h : Host μ} (hP : P.Registrable 0 Prelude.boundedQuantifier)
    (hexternal : external.LawfulFor P) (hvisited : h.VisitedFor P external) :
    (∀ f ∈ h.bench.state.frames, f.Below h.bench.state.nextVariable) ∧
      ∀ f ∈ h.bench.state.frames, (f.deduction.parameters.map (·.id)).Nodup := by
  obtain ⟨htidy, hparameters⟩ :=
    hvisited.tidyFor_invariant hP hexternal Deduction.parameters_invariant
  exact ⟨htidy.state.below, hparameters⟩

/-! ### Closing -/

namespace Building

open ProofState Expression

variable {s t : ProofState}

/-- What closing a deduction leads to. -/
theorem shows_of_close {title : Option String} {name : String}
    (hbelow : ∀ f ∈ s.frames, f.Below s.nextVariable)
    (h : (close title).run.run s = (.ok name, t)) :
    ∃ last, s.current.deduction.lastDerived? = some last ∧ t.nextVariable = s.nextVariable ∧
      t.Settled ∧ t.Shows name (alls s.current.deduction.parameters
        (rules s.current.deduction.conditions last.statement)).nameless := by
  obtain ⟨-, e, existing, htheorem, hexisting, halpha⟩ := close_of_ok h
  have hget : t.get? name = some existing := by
    obtain ⟨entry, hentry, rfl⟩ := Option.map_eq_some_iff.1 hexisting
    rw [ProofState.get?, ProofState.find?, frames, List.findSome?_cons, hentry]
    rfl
  have hstate : t.nextVariable = s.nextVariable ∧ t.Settled := by
    rw [close_run, htheorem] at h
    split at h
    · cases h
    · cases h
    · rename_i parent outer _ henclosing heq
      cases heq
      have houter : (s.outside parent outer).Settled := by
        refine settled_of_frames fun f hf ↦ hbelow f (List.mem_cons_of_mem _ ?_)
        rw [henclosing]
        exact hf
      obtain ⟨-, hinstall⟩ | hinstall := install_run (title.getD s.current.deduction.name) e
        (.deduction s.current.deduction) (s.outside parent outer)
      · cases h.symm.trans hinstall
        have hcurrent : s.current.Below s.nextVariable := hbelow s.current List.mem_cons_self
        exact ⟨rfl, List.forall_mem_cons.2 ⟨hcurrent.closedTheorem htheorem, houter⟩⟩
      · obtain rfl : t = s.outside parent outer := (congrArg Prod.snd h).symm.trans hinstall
        exact ⟨rfl, houter⟩
  obtain ⟨last, hlast, rfl⟩ := Option.map_eq_some_iff.1 htheorem
  exact ⟨last, hlast, hstate.1, hstate.2, existing, hget, alphaEq_iff.1 halpha⟩

/-! ### Using a theorem -/

/-- Applies a rule to proofs of its conditions, one after the other. -/
def applyAll (rule : String) : List String → Building String
  | [] => return rule
  | condition :: rest => do applyAll (← apply (.name rule) (.name condition)) rest

/-- Specializes a theorem to a value for each of its parameters, and then applies it to a proof of
each of its conditions. -/
def instantiateTheorem (name : String) (values : List Expression) (proofs : List String) :
    Building String := do applyAll (← bindAll name values) proofs

/-- By induction on the conditions: each application leaves the proofs of the others visible. -/
theorem applyAll_achieves {rule : String} {conditions : List Nameless} {proofs : List String}
    {b : Nameless} (hrule : s.Shows rule (conditions.foldr .implies b))
    (hproofs : List.Forall₂ (fun c proof ↦ s.Shows proof c) conditions proofs) :
    Achieves (applyAll rule proofs) s fun name t ↦ t.Shows name b := by
  induction conditions generalizing s rule proofs with
  | nil =>
    cases hproofs
    exact .pure hrule
  | cons c rest ih =>
    cases hproofs with
    | cons hproof hproofs =>
      refine (apply_achieves hrule hproof).bind fun name t ht hname ↦ ?_
      exact ih hname (hproofs.imp fun _ _ h ↦ ht.shows h)

/-- Values are put under rules and in the conclusion alike. -/
theorem assign_rules (σ : Nat → Expression) (conditions : List Expression) (e : Expression) :
    (rules conditions e).nameless.assign σ =
      (conditions.map (·.nameless.assign σ)).foldr .implies (e.nameless.assign σ) := by
  induction conditions with
  | nil => rfl
  | cons c rest ih => exact congrArg (Nameless.implies (c.nameless.assign σ)) ih

/-- A theorem can be used with any values, where proofs of its conditions for these values are
known. -/
theorem instantiateTheorem_achieves {name : String} {parameters : List Variable}
    {conditions : List Expression} {e : Expression} {values : List Expression}
    {proofs : List String} (hname : s.Shows name (alls parameters (rules conditions e)).nameless)
    (hparameters : (parameters.map (·.id)).Nodup) (hlength : values.length = parameters.length)
    (hvalues : ∀ e ∈ values, e.Below s.nextVariable)
    (hproofs : List.Forall₂ (fun (c : Expression) proof ↦ s.Shows proof
      (c.nameless.assign (Bindings.assignment (parameters.zip values)))) conditions proofs) :
    Achieves (instantiateTheorem name values proofs) s fun name t ↦
      t.Shows name (e.nameless.assign (Bindings.assignment (parameters.zip values))) := by
  -- no variable is bound twice, so the values might as well be put at once
  have hopens := opens_alls_of_nodup hparameters hlength (rules conditions e)
  rw [assign_rules] at hopens
  refine (bindAll_achieves hname hopens hvalues).bind fun bound t ht hbound ↦ ?_
  refine applyAll_achieves hbound (List.forall₂_map_left_iff.2 ?_)
  exact hproofs.imp fun _ _ h ↦ ht.shows h

/-- **A concluded deduction can be used back.** Wherever its theorem is known under its name, it can
be specialized to any values, one for each parameter, and then be applied to proofs of the
conditions for these values; this always succeeds. It leads to what was derived last, for these
values. Conditions and conclusion are for the values as substitution puts them for the parameters at
once. The values may mention any variables, the parameters among them. -/
theorem close_eliminates {title : Option String} {name : String}
    (hbelow : ∀ f ∈ s.frames, f.Below s.nextVariable)
    (hparameters : (s.current.deduction.parameters.map (·.id)).Nodup)
    (hclose : (close title).run.run s = (.ok name, t)) :
    ∃ last, s.current.deduction.lastDerived? = some last ∧ t.Settled ∧
      ∀ (u : ProofState) (values : List Expression) (proofs : List String) (n : Nat), u.Settled →
        t.nextVariable ≤ u.nextVariable → u.get? name = t.get? name →
        values.length = s.current.deduction.parameters.length →
        (∀ e ∈ values, e.Below u.nextVariable) → u.nextVariable ≤ n →
        List.Forall₂ (fun (c : Expression) proof ↦ ∃ e, u.get? proof = some e ∧
          e.alphaEq ((c.substitute (Bindings.forVariables
            (s.current.deduction.parameters.zip values)) .all).run n).1 = true)
          s.current.deduction.conditions proofs →
        ∃ result v e, (instantiateTheorem name values proofs).run.run u = (.ok result, v) ∧
          v.get? result = some e ∧
            e.alphaEq ((last.statement.substitute (Bindings.forVariables
              (s.current.deduction.parameters.zip values)) .all).run n).1 = true := by
  obtain ⟨last, hlast, hnext, hsettled, hshows⟩ := shows_of_close hbelow hclose
  refine ⟨last, hlast, hsettled, fun u values proofs n hu hle hget hlength hvalues hn hproofs ↦ ?_⟩
  have hle' : s.nextVariable ≤ n := hnext ▸ Nat.le_trans hle hn
  have hcurrent : s.current.Below s.nextVariable := hbelow s.current List.mem_cons_self
  -- what substitution answers for a statement of the deduction
  have hsubstitute : ∀ e : Expression, e.Below s.nextVariable →
      ((e.substitute (Bindings.forVariables
        (s.current.deduction.parameters.zip values)) .all).run n).1.nameless =
          e.nameless.assign (Bindings.assignment (s.current.deduction.parameters.zip values)) := by
    intro e he
    have hreplacements : ∀ r ∈ Bindings.forVariables (s.current.deduction.parameters.zip values),
        r.Below n := by
      refine Bindings.forVariables_below (fun b hb ↦ ?_) fun b hb ↦ ?_
      · exact Nat.lt_of_lt_of_le (hcurrent.parameters b.1 (List.of_mem_zip hb).1) hle'
      · exact (hvalues b.2 (List.of_mem_zip hb).2).mono hn
    rw [(substitute_draws (he.mono hle') hreplacements .all).2.2, Nameless.replace_forVariables]
  have hconditions : ∀ c ∈ s.current.deduction.conditions, c.Below s.nextVariable := by
    intro c hc
    obtain ⟨entry, hentry, rfl⟩ := List.mem_map.1 (List.mem_reverse.1 hc)
    exact hcurrent.statements entry (List.mem_filter.1 hentry).1
  have hlast' : last.statement.Below s.nextVariable :=
    hcurrent.statements last (List.mem_of_find?_eq_some hlast)
  have hshown : List.Forall₂ (fun (c : Expression) proof ↦ u.Shows proof
      (c.nameless.assign (Bindings.assignment (s.current.deduction.parameters.zip values))))
      s.current.deduction.conditions proofs := by
    refine ((List.forall₂_and_left _ _).2 ⟨hconditions, hproofs⟩).imp fun c proof h ↦ ?_
    obtain ⟨hc, e, he, halpha⟩ := h
    exact ⟨e, he, (alphaEq_iff.1 halpha).trans (hsubstitute c hc)⟩
  obtain ⟨statement, hstatement, hform⟩ := hshows
  obtain ⟨result, v, hrun, -, e, he, hresult⟩ := instantiateTheorem_achieves
    ⟨statement, hget.trans hstatement, hform⟩ hparameters hlength hvalues hshown hu
  exact ⟨result, v, e, hrun, he, alphaEq_iff.2 (hresult.trans (hsubstitute _ hlast').symm)⟩

/-- The values are the parameters themselves, exchanged: none of them takes the place of the other.
-/
theorem close_eliminates_exchanged :
    let x : Variable := ⟨"x", 0⟩
    let y : Variable := ⟨"y", 1⟩
    let root : Deduction :=
      ⟨"root", [], [⟨"all", .all ⟨"z", 2⟩ (.call "P" [.var ⟨"z", 2⟩]), .supposition⟩]⟩
    let inner : Deduction :=
      ⟨"A", [x, y], [⟨"#0", .call "P" [.var x], .specialization "all" (.var x)⟩,
      ⟨"h", .call "R" [.var x, .var y], .supposition⟩]⟩
    let s : ProofState :=
      { ProofState.initial 3 16 with
        current := { deduction := inner }
        enclosing := [{ deduction := root }] }
    ∃ t result v e, (close none).run.run s = (.ok "A", t) ∧
      (instantiateTheorem "A" [.var y, .var x] ["k"]).run.run
        (t.add ⟨"k", .call "R" [.var y, .var x], .supposition⟩) = (.ok result, v) ∧
      v.get? result = some e ∧ e.alphaEq (.call "P" [.var y]) = true := by
  intro x y root inner s
  have hx : x.id < 3 := by decide
  have hy : y.id < 3 := by decide
  have hinner : ∀ e ∈ inner.entries, e.statement.Below 3 := by
    simpa [inner] using ⟨⟨trivial, hx, trivial⟩, trivial, hx, hy, trivial⟩
  have hroot : ∀ e ∈ root.entries, e.statement.Below 3 := by
    have hz : 2 < 3 := by decide
    simpa [root] using ⟨hz, trivial, hz, trivial⟩
  have hbelow : ∀ f ∈ s.frames, f.Below s.nextVariable := by
    refine List.forall_mem_cons.2 ⟨⟨hinner, ?_, by simp [s]⟩, ?_⟩
    · simpa [s, inner] using ⟨hx, hy⟩
    · simpa [s] using ⟨hroot, by simp [root], by simp⟩
  obtain ⟨t, hclose⟩ : ∃ t, (close none).run.run s = (.ok "A", t) := ⟨_, rfl⟩
  have hnext : t.nextVariable = 3 := by cases hclose; rfl
  obtain ⟨last, hlast, hsettled, h⟩ := close_eliminates hbelow (by decide) hclose
  cases hlast
  -- the condition stands there with the parameters exchanged, as the theorem is bound to them
  let u := t.add ⟨"k", .call "R" [.var y, .var x], .supposition⟩
  have hu : u.Settled := by
    refine List.forall_mem_cons.2 ⟨?_, hsettled⟩
    rw [show u.nextVariable = 3 from hnext]
    exact ⟨trivial, hy, hx, trivial⟩
  have hA : u.get? "A" = t.get? "A" := by
    rw [get?, find?_add, if_neg (by decide), get?]
  have hk : u.get? "k" = some (.call "R" [.var y, .var x]) := by
    rw [get?, find?_add, if_pos rfl]
    rfl
  have hvalues : ∀ e ∈ [Expression.var y, .var x], e.Below u.nextVariable := by
    rw [show u.nextVariable = 3 from hnext]
    simpa using ⟨hy, hx⟩
  obtain ⟨result, v, e, hrun, he, halpha⟩ := h u [.var y, .var x] ["k"] 3 hu (Nat.le_refl _) hA rfl
    hvalues (Nat.le_of_eq hnext) (.cons ⟨_, hk, by decide +kernel⟩ .nil)
  refine ⟨t, result, v, e, hclose, hrun, he, alphaEq_iff.2 ?_⟩
  refine (alphaEq_iff.1 halpha).trans (alphaEq_iff.1 ?_)
  decide +kernel

end Building

end NaturalDeduction
