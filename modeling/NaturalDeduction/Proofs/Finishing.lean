import NaturalDeduction.Proofs.Achieving
import NaturalDeduction.Proofs.Enriching
import NaturalDeduction.Proofs.Naming
import NaturalDeduction.Proofs.Untraced

/-!
# Goals that are proved by search

A goal is concluded with what its deduction derived last, and a search answers with a name. That
these are about the same is seen from how the tactics of the library end: with a specialization or
with a detachment, whose conclusion they answer. The only other thing that a tactic can answer is
the name that it was given, and then it has derived nothing (`Prover.runTactic_finds`). So a search
either found what was known and derived nothing in the current deduction, or derived its answer last
(`Search.proveAt_finds`); what did not lead to the answer has been undone.

The search must also have left the goal's deduction as a goal wants it. It has no new conditions,
since definitions are supposed where their abbreviations are, and the goal's deduction has none. And
the name of the deduction is still free around it, since names are generated with growing numbers
(`ProofState.Continues`).

It follows when a search finishes a goal (`Goal.conclude_of_prove`): if what the introductions left
was not known before. If it was, there is nothing to conclude.

Main definitions and statements:

* `ProofState.Finds`: what a search answers was known, and nothing was added, or it was derived
  last.
* `Prover.Passes`: the same for the parts of a tactic, which start from a name that they are
  given.
* `ProofState.Continues`: the state is one that searches have left.
* `Goal.conclude_of_prove`: how a goal ends for each way in which the search can end.
* `Goal.exists_nothing_derived`: a goal that was known is not concluded.
-/

namespace NaturalDeduction

/-! ### Generated names -/

/-- Whether a state was reached by searches: entries were added under names that were not visible,
and none of the names that were generated before has come into use around the current deduction. -/
structure ProofState.Continues (s t : ProofState) : Prop extends s.Enriches t where
  nextName_le : s.nextName ≤ t.nextName
  unused : ∀ k < s.nextName, (∀ f ∈ s.enclosing, f.deduction.find? (generatedName k) = none) →
    ∀ f ∈ t.enclosing, f.deduction.find? (generatedName k) = none

namespace ProofState

variable {s t : ProofState}

/-- A definition goes to the frame of its abbreviation, under a generated name that is newer than
all that were unused. -/
theorem Continues.define {inner outer : List Frame} {f : Frame} {e : Entry}
    (hframes : s.frames = inner ++ f :: outer) (he : f.Defines e)
    (hname : e.name = generatedName s.freeNumber) :
    s.Continues (s.numbered.setFrameAt outer.length (f.add e)) := by
  have henriches : s.Enriches (s.numbered.setFrameAt outer.length (f.add e)) :=
    .trans (.count s _ s.nextVariable)
      (.define (s := s.numbered) hframes he (hname ▸ s.find?_generatedName))
  have hspares := Spares.setFrameAt hframes hname
  exact ⟨henriches, hspares.nextName_le, fun _ hk ↦ hspares.find?_enclosing henriches.depth hk⟩

/-- Undoing does not set the counter of names back. -/
theorem Continues.rollback (h : s.Continues t) : s.Continues (t.rollback s.checkpoint) := by
  have hframes := h.grows.frames_rollback h.depth
  refine ⟨h.toEnriches.rollback, ?_, ?_⟩
  · show s.nextName ≤ (t.truncate s.depth).nextName
    rw [← h.depth, truncate_depth]
    exact h.nextName_le
  · rw [(List.cons.inj hframes).2]
    exact h.unused

/-- Searches follow each other. -/
theorem Continues.trans {u : ProofState} (h : s.Continues t) (h' : t.Continues u) :
    s.Continues u :=
  ⟨h.toEnriches.trans h'.toEnriches, Nat.le_trans h.nextName_le h'.nextName_le,
    fun k hk hfree ↦ h'.unused k (Nat.lt_of_lt_of_le hk h.nextName_le) (h.unused k hk hfree)⟩

instance : SearchRelation Continues where
  trans := .trans
  count s _ hle _ := ⟨.count s _ _, hle, fun _ _ ↦ id⟩
  infer {s _} hname he := ⟨SearchRelation.toInferenceRelation.infer hname he,
    s.nextName_le_numbered, fun _ _ ↦ id⟩
  define := define_of_grows .trans (fun h ↦ h.grows) .define
  search h := ⟨.search h.toEnriches, h.nextName_le, h.unused⟩
  rollback := .rollback

end ProofState

/-! ### What is answered -/

namespace ProofState

variable {s t : ProofState} {Known Known' : String → Prop} {name : String}

/-- Whether a name belongs to the newest entry of the current deduction, and this was derived. -/
def Newest (s : ProofState) (name : String) : Prop :=
  ∃ e rest, s.current.deduction.entries = e :: rest ∧ e.name = name ∧ e.isCondition = false

/-- Whether an answer was found on the way from one state to another: either it was known, and
nothing has been added to the current deduction, or it was derived last. -/
def Finds (Known : String → Prop) (s t : ProofState) (name : String) : Prop :=
  (t.current.deduction.entries = s.current.deduction.entries ∧ Known name) ∨ t.Newest name

/-- An entry that was added last and is no condition is what the deduction derived last, and its
name is not hidden. -/
theorem Newest.lastDerived? (h : s.Newest name) :
    ∃ e, s.current.deduction.lastDerived? = some e ∧ e.name = name ∧
      s.get? name = some e.statement := by
  obtain ⟨e, rest, hentries, rfl, he⟩ := h
  refine ⟨e, ?_, rfl, ?_⟩
  · rw [Deduction.lastDerived?, hentries]
    exact List.find?_cons_of_pos (by rw [he]; rfl)
  · have hhistory : s.history = e :: (rest ++ s.enclosing.flatMap (·.deduction.entries)) := by
      rw [history, frames, List.flatMap_cons, hentries]
      rfl
    rw [ProofState.get?, find?_eq, hhistory, List.find?_cons, beq_self_eq_true]
    rfl

/-- What counts as known may be widened. -/
theorem Finds.mono (h : s.Finds Known t name) (hknown : Known name → Known' name) :
    s.Finds Known' t name := h.imp_left (And.imp_right hknown)

end ProofState

namespace Building

variable {α β : Type} {s t : ProofState} {name : String}

/-- A sequence that succeeds has two parts that do. -/
theorem exists_of_bind_run {act : Building α} {next : α → Building β} {b : β}
    (h : (act >>= next).run.run s = (.ok b, t)) :
    ∃ a u, act.run.run s = (.ok a, u) ∧ (next a).run.run u = (.ok b, t) := by
  rw [run_bind_eq] at h
  rcases hact : act.run.run s with ⟨⟨e⟩ | ⟨a⟩, u⟩
  · rw [hact] at h
    cases h
  · rw [hact] at h
    exact ⟨a, u, rfl, h⟩

/-- A conclusion is added last. -/
theorem conclude_newest {e : Expression} {j : Justification} (hj : j.isSupposition = false)
    (h : (conclude e j).run.run s = (.ok name, t)) : t.Newest name := by
  rw [conclude_run] at h
  cases h
  exact ⟨_, _, rfl, rfl, hj⟩

theorem bind_newest {target : Reference} {value : Expression}
    (h : (bind target value).run.run s = (.ok name, t)) : t.Newest name := by
  obtain ⟨target, u, -, h⟩ := exists_of_bind_run h
  obtain ⟨statement, u, -, h⟩ := exists_of_bind_run h
  obtain ⟨result, u, -, h⟩ := exists_of_bind_run h
  cases result with
  | none => cases h
  | some conclusion => exact conclude_newest rfl h

theorem apply_newest {rule condition : Reference}
    (h : (apply rule condition).run.run s = (.ok name, t)) : t.Newest name := by
  obtain ⟨rule, u, -, h⟩ := exists_of_bind_run h
  obtain ⟨condition, u, -, h⟩ := exists_of_bind_run h
  obtain ⟨ruleStatement, u, -, h⟩ := exists_of_bind_run h
  obtain ⟨given, u, -, h⟩ := exists_of_bind_run h
  split at h
  · exact conclude_newest rfl h
  · cases h
  · cases h

end Building

/-! ### Tactics -/

variable {μ α : Type} {x : Session μ}

namespace Attempt

/-- What a step ensures it ensures inside an attempt. -/
theorem step_ensures {act : Building α} {post : α → ProofState → Prop}
    (h : ∀ a t, act.run.run x.state = (.ok a, t) → post a t) :
    Ensures (step act) x fun a y ↦ post a y.state :=
  fun a y hrun ↦ h a y.state (run_of_step_run hrun)

/-- Looking something up leaves the session as it is. -/
theorem lookup_ensures (name : String) (x : Session μ) :
    Ensures (step (Building.lookup name)) x fun _ y ↦ y = x := by
  intro e y h
  cases hfind : x.state.find? name with
  | none =>
    have hrun := run_of_step_run h
    rw [Building.lookup_run_error hfind] at hrun
    cases hrun
  | some entry =>
    rw [step_run (Building.lookup_run hfind)] at h
    cases h
    rfl

/-- A name resolves to itself. -/
theorem resolve_ensures (source : String) (x : Session μ) :
    Ensures (step (Building.resolve (.name source))) x fun name y ↦ name = source ∧ y = x := by
  intro name y h
  cases hfind : x.state.find? source with
  | none =>
    have hrun := run_of_step_run h
    have hrefused : (Building.resolve (.name source)).run.run x.state =
        (.error (.unknownName source), x.state) :=
      run_bind_error (Building.lookup_run_error hfind)
    rw [hrefused] at hrun
    cases hrun
  | some entry =>
    rw [step_run (Building.resolve_name_run hfind)] at h
    cases h
    exact ⟨rfl, rfl⟩

/-- Drawing variables leaves the current frame as it is. -/
theorem draw_ensures (f : Fresh α) (x : Session μ) :
    Ensures (step (Building.draw f)) x fun _ y ↦ y.state.current = x.state.current := by
  intro a y h
  have hrun := run_of_step_run h
  rw [Building.draw_run] at hrun
  rw [← (Prod.mk.inj hrun).2]

end Attempt

namespace Prover

open Attempt ProofState

/-- Whether an answer is the name that was given, and nothing was done, or it was derived last. -/
def Passes (given : String) (x : Session μ) (name : String) (y : Session μ) : Prop :=
  (name = given ∧ y = x) ∨ y.state.Newest name

/-- Passing a name on twice is passing it on, unless something was derived on the way. -/
theorem Passes.trans {given name next : String} {y z : Session μ} (h : Passes given x name y)
    (h' : Passes name y next z) : Passes given x next z := by
  obtain ⟨rfl, rfl⟩ | hnewest := h'
  · exact h
  · exact .inr hnewest

/-- Binding no values passes the name on; binding the last one derives the answer. -/
theorem bindEach_passes (p : Prover μ) (current : String) (values : List Expression)
    (x : Session μ) : Ensures (bindEach p current values) x (Passes current x) := by
  induction values generalizing current x with
  | nil => exact .pure (.inl ⟨rfl, rfl⟩)
  | cons value rest ih =>
    refine (Ensures.trivial _).bind fun exposed y _ ↦ ?_
    refine (step_ensures fun _ _ ↦ Building.bind_newest).bind fun bound z hbound name w hrun ↦ ?_
    exact Passes.trans (.inr hbound) (ih bound z name w hrun)

theorem autobind_passes (p : Prover μ) (source : String) (values : List Expression)
    (x : Session μ) : Ensures (autobind p (.name source) values) x (Passes source x) := by
  refine (resolve_ensures source x).bind fun name y h ↦ ?_
  obtain ⟨rfl, rfl⟩ := h
  exact bindEach_passes p name values y

/-- A statement that is no rule is passed on by discharging. -/
theorem dischargeWithin_passes (p : Prover μ) (budget : Nat) (current : String) (x : Session μ) :
    Ensures (dischargeWithin p budget current) x (Passes current x) := by
  induction budget generalizing current x with
  | zero => exact .pure (.inl ⟨rfl, rfl⟩)
  | succ budget ih =>
    refine (lookup_ensures current x).bind fun statement y hy ↦ ?_
    split
    · refine (Ensures.trivial _).bind fun evidence z _ ↦ ?_
      refine (step_ensures fun _ _ ↦ Building.apply_newest).bind
        fun applied w happlied name v hrun ↦ ?_
      exact Passes.trans (.inr happlied) (ih applied w name v hrun)
    · exact .pure (.inl ⟨rfl, hy⟩)

theorem autoapply_passes (p : Prover μ) (source : String) (x : Session μ) :
    Ensures (autoapply p (.name source)) x (Passes source x) := by
  refine (resolve_ensures source x).bind fun name y h ↦ ?_
  obtain ⟨rfl, rfl⟩ := h
  refine (lookup_ensures name y).bind fun statement z hz ↦ ?_
  subst hz
  exact dischargeWithin_passes p _ name z

/-- Where a tactic has only drawn variables, passing on is finding. -/
theorem Passes.finds {source name : String} {y z : Session μ}
    (hy : y.state.current = x.state.current) (h : Passes source y name z) :
    x.state.Finds (· = source) z.state name := by
  obtain ⟨rfl, rfl⟩ | hnewest := h
  · exact .inl ⟨by rw [hy], rfl⟩
  · exact .inr hnewest

/-- Specialization either derives the instance or, with no variable to bind, answers the statement
itself. -/
theorem specialize_finds (p : Prover μ) (source : String) (values : List Expression)
    (bindings : Bindings) (x : Session μ) :
    Ensures (specialize p source values bindings) x
      fun name y ↦ x.state.Finds (· = source) y.state name := by
  refine (draw_ensures _ x).bind fun values y hy ↦ ?_
  refine (autobind_passes p source values y).bind fun bound z hbound name w hrun ↦ ?_
  exact (hbound.trans (autoapply_passes p bound z name w hrun)).finds hy

/-- Working backwards specializes and then applies. -/
theorem backwards_finds (p : Prover μ) (source : String) (goal : Expression) (x : Session μ) :
    Ensures (backwards p (.name source) goal) x
      fun name y ↦ x.state.Finds (· = source) y.state name := by
  refine (resolve_ensures source x).bind fun name y h ↦ ?_
  obtain ⟨rfl, rfl⟩ := h
  refine (lookup_ensures name y).bind fun statement z hz ↦ ?_
  subst hz
  refine (draw_ensures _ z).bind fun opened w hw ↦ ?_
  dsimp only
  split
  · exact .throw _
  · split
    · exact .throw _
    · rename_i values _
      refine (autobind_passes p name values w).bind fun bound u hbound ↦ ?_
      refine (autoapply_passes p bound u).bind fun applied v happlied ↦ ?_
      refine (lookup_ensures applied v).bind fun found r hr ↦ ?_
      subst hr
      split
      · exact .pure ((hbound.trans happlied).finds hw)
      · exact .throw _

/-- Turning an equation around always derives one. -/
theorem turnAround_newest (p : Prover μ) (goal left right : Expression) (x : Session μ) :
    Ensures (turnAround p goal left right) x fun name y ↦ y.state.Newest name := by
  refine .proofState_bind ?_
  split
  · exact .throw _
  · exact (Ensures.trivial _).bind fun rule y _ ↦ step_ensures fun _ _ ↦ Building.apply_newest

end Prover

/-! ### Rules that start from what is known -/

/-- Whether a tactic is the library's, and the statement that it starts from is visible. -/
def Tactic.Grounded (s : ProofState) : Tactic → Prop
  | .specialize source _ | .backwards source => s.find? source ≠ none
  | .turnAround .. => True
  | .external _ => False

instance (s : ProofState) : DecidablePred (Tactic.Grounded s)
  | .specialize source _ | .backwards source => inferInstanceAs (Decidable (s.find? source ≠ none))
  | .turnAround .. => isTrue trivial
  | .external _ => isFalse id

/-- Whether all rules are from the library, and start from what is visible. -/
def ProofState.Grounded (s : ProofState) : Prop :=
  ∀ f ∈ s.frames, ∀ r ∈ f.rules, r.tactic.Grounded s

instance (s : ProofState) : Decidable s.Grounded :=
  inferInstanceAs (Decidable (∀ f ∈ s.frames, ∀ r ∈ f.rules, r.tactic.Grounded s))

/-- Whether what a search answers is found, in the current deduction or before. -/
def Prover.Finds (p : Prover μ) : Prop :=
  ∀ goal x, Attempt.Ensures (p.prove goal) x fun name y ↦ x.state.Finds (fun _ ↦ True) y.state name

/-- Whether a user's tactics only infer and suppose definitions, and find what they answer if it
proves the goal, given a search of which the same holds. -/
structure External.Conclusive (external : External μ) : Prop where
  respects : external.Respects ProofState.Continues
  finds (key : Nat) (p : Prover μ) (bindings : Bindings) (goal : Expression) (x : Session μ) :
    p.Respects ProofState.Continues → p.Finds →
      Attempt.Ensures (external.run key p bindings goal) x fun name y ↦
        y.state.StandsFor name goal → x.state.Finds (fun _ ↦ True) y.state name

/-- Without a user's tactics there is nothing to ask. -/
theorem External.none_conclusive : (External.none : External μ).Conclusive where
  respects := External.none_respects
  finds _ _ _ _ _ _ _ := .throw _

namespace Prover

open Attempt ProofState

variable {p : Prover μ}

/-- **How a tactic ends**: what it answers it derived last, unless it derived nothing and answers
the statement that it started from. -/
theorem runTactic_finds {external : External μ} (hexternal : external.Conclusive)
    (hrespects : p.Respects Continues) (hfinds : p.Finds) (tactic : Tactic) (bindings : Bindings)
    (goal : Expression) (s : ProofState) (x : Session μ) :
    Ensures (runTactic p external tactic bindings goal) x fun name y ↦
      y.state.StandsFor name goal →
        x.state.Finds (fun name ↦ tactic.Grounded s → s.find? name ≠ none) y.state name := by
  cases tactic with
  | specialize source values =>
    intro name y hrun _
    exact (specialize_finds p source values bindings x name y hrun).mono fun h hsource ↦ h ▸ hsource
  | turnAround left right =>
    unfold runTactic
    dsimp only
    split
    · exact fun name y hrun _ ↦ .inr (turnAround_newest p goal _ _ x name y hrun)
    · exact .throw _
  | backwards source =>
    intro name y hrun _
    exact (backwards_finds p source goal x name y hrun).mono fun h hsource ↦ h ▸ hsource
  | external key =>
    intro name y hrun hstands
    exact (hexternal.finds key p bindings goal x hrespects hfinds name y hrun hstands).mono
      fun _ hgrounded ↦ hgrounded.elim

end Prover

/-! ### The search

By induction on the levels: what a tactic inside the search finds is assumed of one level less, and
what did not prove the goal has been undone before the next rule.
-/

namespace Search

open Attempt ProofState

variable {goal : Expression}

/-- What did not prove the goal is undone, so the rule that counts begins with the same entries. -/
theorem tryRules_finds {run : Rule → Bindings → Attempt μ String} {rules : List Rule}
    {Known : String → Prop} (hkeeps : ∀ rule bindings z, Keeps Enriches (run rule bindings) z)
    (hrun : ∀ rule ∈ rules, ∀ bindings z, Ensures (run rule bindings) z fun name y ↦
      y.state.StandsFor name goal → z.state.Finds Known y.state name) (x : Session μ) :
    Ensures (tryRules run goal rules) x fun name y ↦ x.state.Finds Known y.state name := by
  induction rules generalizing x with
  | nil => exact .throw _
  | cons rule rest ih =>
    obtain ⟨hrule, hrest⟩ := List.forall_mem_cons.1 hrun
    cases hmatch : rule.pattern.match? goal with
    | none =>
      rw [tryRules, hmatch]
      exact ih hrest x
    | some bindings =>
      intro name z htry
      rw [tryRules_cons_run hmatch] at htry
      have henriches : x.state.Enriches ((run rule bindings).run.run x).2.state :=
        hkeeps rule bindings x
      rcases hact : (run rule bindings).run.run x with ⟨result, y⟩
      rw [hact] at htry henriches
      -- the next rule begins with the entries of `x` again, so what it finds is found from there
      have hundone : (tryRules run goal rest).run.run
          { y with state := y.state.rollback x.state.checkpoint } = (.ok name, z) →
          x.state.Finds Known z.state name := by
        intro hrun
        have hfinds := ih hrest _ name z hrun
        have hcurrent := henriches.grows.frames_rollback henriches.depth
        exact hfinds.imp_left (And.imp_left fun h ↦ h.trans (by rw [(List.cons.inj hcurrent).1]))
      rcases result with ⟨_ | _ | _⟩ | found
      · exact hundone htry
      · cases htry
      · cases htry
      · dsimp only at htry
        split at htry
        · rename_i hany
          cases htry
          exact hrule bindings x name z hact ((Option.any_eq_true _ _).1 hany)
        · exact hundone htry

/-- Counting the search has no bearing on what it finds. -/
theorem counted_finds {act : Attempt μ String} {Known : String → Prop} {x : Session μ}
    (h : Ensures act { x with state := { x.state with searching := x.state.searching + 1 } }
      fun name y ↦ x.state.Finds Known y.state name) :
    Ensures (counted act) x fun name y ↦ x.state.Finds Known y.state name := by
  intro name z hrun
  rw [counted_run] at hrun
  rcases hact : act.run.run
    { x with state := { x.state with searching := x.state.searching + 1 } } with ⟨result, y⟩
  rw [hact] at hrun
  cases hrun
  exact h name y hact

/-- An evaluation derives its answer. -/
theorem verify_finds {Known : String → Prop} (heval : goal.evaluate = .ok true) (x : Session μ) :
    Ensures (step (Building.verify goal)) x fun name y ↦ x.state.Finds Known y.state name := by
  rw [verify_eq_conclude heval]
  exact fun name y h ↦ .inr (Building.conclude_newest rfl (run_of_step_run h))

/-- **What a search answers** was known, and nothing was derived, or was derived last. If all rules
start from what is visible, what was known had been visible before the search. -/
theorem proveAt_finds {external : External μ} (hexternal : external.Conclusive) (levels : Nat)
    (x : Session μ) : Ensures (proveAt external levels goal) x fun name y ↦
      x.state.Finds (fun name ↦ x.state.Grounded → x.state.find? name ≠ none) y.state name := by
  induction levels using Nat.strongRecOn generalizing goal x with
  | ind levels ih =>
    unfold proveAt
    refine .proofState_bind ?_
    split
    · rename_i known hrecall
      -- recalled: the entry that was found is visible under its name
      obtain ⟨entry, hentry, rfl⟩ := Option.map_eq_some_iff.1 hrecall
      refine .pure (.inl ⟨rfl, fun _ hnone ↦ ?_⟩)
      rw [find?_eq, List.find?_eq_none] at hnone
      exact hnone entry (List.mem_of_find?_eq_some hentry) (beq_self_eq_true entry.name)
    · split
      · rename_i heval
        rw [if_pos rfl]
        -- evaluated: the answer is the entry that this derives
        exact verify_finds heval x
      · rw [if_neg Bool.false_ne_true]
        split
        · exact .throw _
        · cases levels with
          | zero => exact .throw _
          | succ levels =>
            let inner : Prover μ := ⟨proveAt external levels, external.slack⟩
            have hrespects : inner.Respects Continues := fun goal _ ↦
              proveAt_keeps hexternal.respects levels goal
            have hfinds : inner.Finds := fun goal z name y hrun ↦
              (ih levels (Nat.lt_succ_self levels) z name y hrun).mono fun _ ↦ trivial
            refine counted_finds (tryRules_finds (fun rule bindings z ↦ ?_) ?_ _)
            · exact (Prover.runTactic_keeps hrespects hexternal.respects rule.tactic bindings
                goal).toEnriches
            · intro rule hrule bindings z name y hrun hstands
              obtain ⟨f, hf, hr⟩ := List.mem_flatMap.1 hrule
              -- a rule that is tried is one of a frame, so its tactic was grounded in `x`
              exact (Prover.runTactic_finds hexternal hrespects hfinds rule.tactic bindings goal
                x.state z name y hrun hstands).mono fun h hgrounded ↦ h (hgrounded f hf rule hr)

/-- The search with the levels that are left. -/
theorem prove_finds {external : External μ} (hexternal : external.Conclusive) (goal : Expression)
    (x : Session μ) : Ensures (prove external goal) x fun name y ↦
      x.state.Finds (fun name ↦ x.state.Grounded → x.state.find? name ≠ none) y.state name :=
  .proofState_bind (proveAt_finds hexternal _ x)

end Search

/-! ### The goal -/

namespace Building

/-- Nothing changes where an equal statement has the name already. -/
theorem install_run_known {s : ProofState} {name : String} {existing e : Expression}
    (h : s.current.deduction.get? name = some existing) (halpha : existing.alphaEq e = true)
    (j : Justification) : (install name e j).run.run s = (.ok name, s) := by
  have hinsert : s.current.deduction.insert ⟨name, e, j⟩ = .ok s.current.deduction := by
    rw [Deduction.insert, h]
    exact if_pos halpha
  unfold install
  rw [run_bind_ok (run_get_eq s), hinsert]
  rfl

end Building

namespace ProofState

variable {s t : ProofState}

/-- In a deduction that was just opened, the rules are those of the ones around it. -/
theorem Grounded.of_enclosing (h : s.Grounded) (hrules : t.current.rules = [])
    (henclosing : t.enclosing = s.frames) : t.Grounded := by
  have hvisible : ∀ name, s.find? name ≠ none → t.find? name ≠ none := by
    intro name hname hnone
    have hnone := List.findSome?_eq_none_iff.1 hnone
    refine hname (List.findSome?_eq_none_iff.2 fun f hf ↦ hnone f ?_)
    exact List.mem_cons_of_mem _ (henclosing ▸ hf)
  intro f hf rule hrule
  rcases List.mem_cons.1 hf with rfl | hf
  · rw [hrules] at hrule
    exact absurd hrule List.not_mem_nil
  · have hgrounded := h f (henclosing ▸ hf) rule hrule
    generalize rule.tactic = tactic at hgrounded ⊢
    cases tactic with
    | specialize source values => exact hvisible source hgrounded
    | turnAround left right => trivial
    | backwards source => exact hvisible source hgrounded
    | external key => exact hgrounded

/-- What was visible and still stands for an equal statement could have been recalled. -/
theorem Enriches.recall?_ne_none {name : String} {goal : Expression} (h : s.Enriches t)
    (hname : s.find? name ≠ none) (hstands : t.StandsFor name goal) :
    s.«recall?» goal ≠ none := by
  obtain ⟨e, he, halpha⟩ := hstands
  rw [ProofState.get?, h.find? hname] at he
  obtain ⟨entry, hentry, rfl⟩ := Option.map_eq_some_iff.1 he
  rw [find?_eq] at hentry
  intro hnone
  have hnone := List.find?_eq_none.1 (Option.map_eq_none_iff.1 hnone)
  exact hnone entry (List.mem_of_find?_eq_some hentry) halpha

end ProofState

namespace Goal

variable {g : Goal} {s s₁ t : ProofState} {name : Option String} {P : Expression}

/-- A state with a new deduction, in which names have been generated up to a number. -/
def begun (s : ProofState) (title : String) (nextName : Nat) : ProofState :=
  { s with current := { deduction := .empty title }, enclosing := s.frames, nextName := nextName }

/-- A goal is started in a new deduction. This has the name that is given, or else one that is not
used around it. -/
theorem start_run (name : Option String) (P : Expression) (s : ProofState) : ∃ title nextName,
    (start name P).run.run s =
      (.ok ⟨name, P, P, .untouched, s.depth + 1⟩, begun s title nextName) ∧
    (name = none → ∃ k < nextName, title = ProofState.generatedName k ∧
      ∀ f ∈ s.frames, f.deduction.find? title = none) := by
  cases name with
  | some text => exact ⟨text, s.nextName, rfl, nofun⟩
  | none =>
    exact ⟨_, _, rfl, fun _ ↦ ⟨s.freeNumber, Nat.lt_succ_self _, rfl,
      fun f hf ↦ ProofState.deduction_find?_of_find? s.find?_generatedName hf⟩⟩

/-- A goal that was just started is ready for introductions, with its own statement before it. -/
theorem ready_of_start (hs : ∀ f ∈ s.frames, f.Below s.nextVariable) (hP : P.Below s.nextVariable)
    (name : Option String) (title : String) (nextName : Nat) :
    Ready ⟨name, P, P, .untouched, s.depth + 1⟩ (begun s title nextName) := by
  refine ⟨nofun, hP, fun f hf ↦ ?_⟩
  rcases List.mem_cons.1 hf with rfl | hf
  · exact ⟨nofun, nofun, nofun⟩
  · exact hs f hf

/-- The deduction around the goal's is still there after a search. -/
theorem exists_enclosing_eq (h : s₁.Enriches t) (henclosing : s₁.enclosing = s.frames) :
    ∃ parent outer, t.enclosing = parent :: outer ∧ outer.length = s.enclosing.length ∧
      t.truncate s.depth = t.outside parent outer := by
  have henriched := (List.forall₂_cons.1 h.frames).2
  rw [henclosing] at henriched
  cases htail : t.enclosing with
  | nil =>
    rw [htail] at henriched
    cases henriched
  | cons parent outer =>
    rw [htail] at henriched
    have hlength : outer.length = s.enclosing.length :=
      (List.forall₂_cons.1 henriched).2.length_eq.symm
    have hframes : t.frames = [t.current] ++ parent :: outer := congrArg (t.current :: ·) htail
    refine ⟨parent, outer, rfl, hlength, ?_⟩
    rw [ProofState.depth, ← hlength]
    exact ProofState.truncate_eq hframes

section Conclude

variable {title : String} {nextName : Nat} {vs : List Variable} {cs : List Expression}

/-- If what a search derived last is equal to what was left of the goal, then the goal is concluded,
unless its name stands for another statement around it. -/
theorem conclude_of_derived {e : Entry}
    (hpeels : Peels (⟨name, P, P, .untouched, s.depth + 1⟩, begun s title nextName) (g, s₁) vs cs)
    (hprenex : P.Prenex) (ht : s₁.Enriches t) (he : t.current.deduction.lastDerived? = some e)
    (halpha : e.statement.alphaEq g.remaining = true)
    (hfree : ∀ existing, (t.truncate s.depth).current.deduction.get? (name.getD title) =
      some existing → existing.alphaEq P = true) :
    ∃ t' statement, g.conclude.run.run t = (.ok (name.getD title), t') ∧ t'.depth = s.depth ∧
      t'.current.deduction.get? (name.getD title) = some statement ∧
        statement.alphaEq P = true := by
  obtain ⟨parent, outer, henclosing, houter, haround⟩ := exists_enclosing_eq ht hpeels.enclosing
  have hframes : t.frames = [] ++ t.current :: parent :: outer :=
    congrArg (t.current :: ·) henclosing
  have hdepth : g.depth = outer.length + 2 := by
    rw [houter]
    exact hpeels.depth
  rw [haround] at hfree
  -- the goal's deduction has its name, parameters and conditions from the introductions
  obtain ⟨es, hcurrent, -⟩ := ht.current
  have hparameters : t.current.deduction.parameters = vs := by
    rw [hcurrent]
    exact hpeels.parameters
  have hconditions : t.current.deduction.conditions = cs :=
    (ht.current.conditions hpeels.abbreviations).trans hpeels.conditions
  have htitle : g.name.getD t.current.deduction.name = name.getD title := by
    have hname : g.name = name := hpeels.name
    rw [hname, hcurrent]
    exact congrArg name.getD hpeels.title
  have hactual := closedTheorem?_eq_some he
  rw [hparameters, hconditions] at hactual
  have hequal : (Expression.alls vs (.rules cs e.statement)).alphaEq P = true :=
    hpeels.alphaEq hprenex halpha
  have hmet : (Expression.alls vs (.rules cs e.statement)).equalUpTo .all g.statement = true := by
    have hstatement : g.statement = P := hpeels.statement
    rw [hstatement]
    exact Expression.equalUnder_mono (Leeway.none_le _) (fun _ _ h ↦ h) hequal
  have hconclude (t' : ProofState) (hinstall : (Building.install (name.getD title)
      (.alls vs (.rules cs e.statement)) (.deduction t.current.deduction)).run.run
        (t.outside parent outer) = (.ok (name.getD title), t')) :
      g.conclude.run.run t = (.ok (name.getD title), t') :=
    conclude_run_of_install hpeels.ready.phase hframes hdepth hactual hmet
      (by rw [htitle]; exact hinstall)
  cases hget : parent.deduction.get? (name.getD title) with
  | none =>
    have hfind : (t.outside parent outer).current.deduction.find? (name.getD title) = none :=
      Option.map_eq_none_iff.1 hget
    refine ⟨_, _, hconclude _ (Building.install_run_ok hfind _ _), congrArg (· + 1) houter,
      ProofState.get?_add _ _, hequal⟩
  | some existing =>
    have hsame : existing.alphaEq (Expression.alls vs (.rules cs e.statement)) = true := by
      rw [Expression.alphaEq_iff, Expression.alphaEq_iff.1 (hfree existing hget),
        Expression.alphaEq_iff.1 hequal]
    have hknown : (t.outside parent outer).current.deduction.get? (name.getD title) =
      some existing := hget
    exact ⟨_, existing, hconclude _ (Building.install_run_known hknown hsame _),
      congrArg (· + 1) houter, hget, hfree existing hget⟩

/-- If nothing was derived, then the goal is refused, and its deduction is discarded. -/
theorem conclude_of_nothing
    (hpeels : Peels (⟨name, P, P, .untouched, s.depth + 1⟩, begun s title nextName) (g, s₁) vs cs)
    (ht : s₁.Enriches t) (hnone : t.current.deduction.lastDerived? = none) :
    ∃ t', g.conclude.run.run t = (.error (.nothingDerived t.current.deduction.name), t') ∧
      t'.frames = t.enclosing := by
  obtain ⟨parent, outer, henclosing, houter, -⟩ := exists_enclosing_eq ht hpeels.enclosing
  have hframes : t.frames = [] ++ t.current :: parent :: outer :=
    congrArg (t.current :: ·) henclosing
  have hdepth : g.depth = outer.length + 2 := by
    rw [houter]
    exact hpeels.depth
  exact ⟨_, conclude_run_nothingDerived hpeels.ready.phase hframes hdepth hnone, henclosing.symm⟩

end Conclude

/-- **A search finishes a goal** unless there is nothing to conclude. Let a prenex goal be started,
all its layers introduced, and what is left be searched for with success.

If what is left was known, then it is recalled, and nothing is derived. If it was not, and all rules
start from what is visible, something is derived. If nothing is derived, the goal is refused and its
deduction discarded. If something is, then what was derived last is the answer of the search, and
the goal is concluded with a theorem that is equal to it up to bound names, provided that the name
given for it, if there is one, does not stand for another statement around it. -/
theorem conclude_of_prove {external : External μ} (hexternal : external.Conclusive) {s : ProofState}
    {P : Expression} (hs : ∀ f ∈ s.frames, f.Below s.nextVariable) (hP : P.Below s.nextVariable)
    (hprenex : P.Prenex) (name : Option String) :
    ∃ g₀ s₀ introductions g s₁, (start name P).run.run s = (.ok g₀, s₀) ∧
      intros.run.run (g₀, s₀) = (.ok introductions, (g, s₁)) ∧
        ∀ (memory : μ) answer y,
          (Search.prove external g.remaining).run.run ⟨s₁, memory⟩ = (.ok answer, y) →
            (∀ known, s₁.«recall?» g.remaining = some known →
              answer = known ∧ y = ⟨s₁, memory⟩ ∧ y.state.current.deduction.lastDerived? = none) ∧
            (s₁.«recall?» g.remaining = none → s.Grounded →
              y.state.current.deduction.lastDerived? ≠ none) ∧
            (y.state.current.deduction.lastDerived? = none → ∃ t, g.conclude.run.run y.state =
                (.error (.nothingDerived y.state.current.deduction.name), t) ∧
              t.frames = y.state.enclosing) ∧
            ∀ e, y.state.current.deduction.lastDerived? = some e →
              e.name = answer ∧ e.statement.alphaEq g.remaining = true ∧
                ((∀ text existing, name = some text →
                    (y.state.truncate s.depth).current.deduction.get? text = some existing →
                      existing.alphaEq P = true) →
                  ∃ title t statement, g.conclude.run.run y.state = (.ok title, t) ∧
                    (∀ text, name = some text → title = text) ∧ t.depth = s.depth ∧
                    t.current.deduction.get? title = some statement ∧
                      statement.alphaEq P = true ∧ statement.equalUpTo .all P = true) := by
  obtain ⟨title, nextName, hstart, hgenerated⟩ := start_run name P s
  obtain ⟨introductions, ⟨g, s₁⟩, vs, cs, hintros, hpeels, -⟩ :=
    (ready_of_start hs hP name title nextName).intros_run
  refine ⟨_, _, introductions, g, s₁, hstart, hintros, fun memory answer y hprove ↦ ?_⟩
  have hcontinues : s₁.Continues y.state := by
    have hkeeps : s₁.Continues
        ((Search.prove external g.remaining).run.run ⟨s₁, memory⟩).2.state :=
      Search.prove_keeps (x := ⟨s₁, memory⟩) hexternal.respects g.remaining
    rw [hprove] at hkeeps
    exact hkeeps
  have hempty : s₁.current.deduction.lastDerived? = none := hpeels.lastDerived?
  have hfinds := Search.prove_finds hexternal g.remaining ⟨s₁, memory⟩ answer y hprove
  have hanswer := Search.proveAt_ensures external _ _ answer y hprove
  have hunchanged : y.state.current.deduction.entries = s₁.current.deduction.entries →
      y.state.current.deduction.lastDerived? = none := by
    intro hentries
    rw [Deduction.lastDerived?, hentries]
    exact hempty
  refine ⟨fun known hknown ↦ ?_, fun hunknown hgrounded hnone ↦ ?_, fun hnone ↦ ?_, fun e he ↦ ?_⟩
  · rw [Search.prove_run_of_recall? hknown] at hprove
    cases hprove
    exact ⟨rfl, rfl, hempty⟩
  · have hstands : y.state.StandsFor answer g.remaining :=
      hanswer.resolve_right fun h ↦ by rw [hunknown] at h; cases h.2
    obtain ⟨-, hvisible⟩ | hnewest := hfinds
    · have hvisible := hvisible (hgrounded.of_enclosing hpeels.rules hpeels.enclosing)
      exact hcontinues.toEnriches.recall?_ne_none hvisible hstands hunknown
    · obtain ⟨e, he, -⟩ := hnewest.lastDerived?
      rw [hnone] at he
      cases he
  · exact conclude_of_nothing hpeels hcontinues.toEnriches hnone
  · have hnewest : y.state.Newest answer := hfinds.resolve_left fun h ↦ by
      rw [hunchanged h.1] at he
      cases he
    obtain ⟨e', he', hname, hget⟩ := hnewest.lastDerived?
    obtain rfl : e = e' := Option.some.inj (he.symm.trans he')
    have halpha : e.statement.alphaEq g.remaining = true := by
      obtain ⟨found, hfound, halpha⟩ | ⟨rfl, -⟩ := hanswer
      · rw [hget] at hfound
        exact Option.some.inj hfound ▸ halpha
      · rw [hempty] at he
        cases he
    refine ⟨hname, halpha, fun hfree ↦ ?_⟩
    -- the name of the deduction was free around it, and is not generated again
    have hfree : ∀ existing, (y.state.truncate s.depth).current.deduction.get? (name.getD title) =
        some existing → existing.alphaEq P = true := by
      intro existing hexisting
      cases name with
      | some text => exact hfree text existing rfl hexisting
      | none =>
        obtain ⟨k, hk, rfl, hunused⟩ := hgenerated rfl
        obtain ⟨parent, outer, henclosing, -, haround⟩ :=
          exists_enclosing_eq hcontinues.toEnriches hpeels.enclosing
        have hparent : parent ∈ y.state.enclosing := by
          rw [henclosing]
          exact List.mem_cons_self
        have hnone := hcontinues.unused k (Nat.lt_of_lt_of_le hk hpeels.nextName_le)
          (by rw [hpeels.enclosing]; exact hunused) parent hparent
        rw [haround] at hexisting
        have hget : parent.deduction.get? (ProofState.generatedName k) = some existing := hexisting
        rw [Deduction.get?, hnone] at hget
        cases hget
    obtain ⟨t, statement, hconclude, hdepth, hget, halpha⟩ :=
      conclude_of_derived hpeels hprenex hcontinues.toEnriches he halpha hfree
    refine ⟨_, t, statement, hconclude, fun text htext ↦ ?_, hdepth, hget, halpha,
      Expression.equalUnder_mono (Leeway.none_le _) (fun _ _ h ↦ h) halpha⟩
    rw [htext]
    rfl

/-- Members of a set are equal to themselves: the goal is opened, the equation that is left is found
by the rule for reflexivity, and the goal is concluded under the name that was given. -/
theorem conclude_of_prove_reflexivity :
    let x : Variable := ⟨"x", 0⟩
    let P : Expression :=
      .all x (.implies (.call "in" [.var x, .symbol "N"]) (.equals (.var x) (.var x)))
    let s := (Host.start 1 16 ()).bench.state
    ∃ g₀ s₀ introductions g s₁, (start (some "T") P).run.run s = (.ok g₀, s₀) ∧
      intros.run.run (g₀, s₀) = (.ok introductions, (g, s₁)) ∧
        ∃ answer y, (Search.prove .none g.remaining).run.run ⟨s₁, ()⟩ = (.ok answer, y) ∧
          ∃ t statement, g.conclude.run.run y.state = (.ok "T", t) ∧
            t.current.deduction.get? "T" = some statement ∧ statement.alphaEq P = true := by
  intro x P s
  have hs : ∀ f ∈ s.frames, f.Below s.nextVariable :=
    ((Host.Reachable.start 1 16 ()).sound (μ := Unit) External.none_lawful).tidy.below
  have hP : P.Below s.nextVariable := by
    have hlt : 0 < s.nextVariable := by decide +kernel
    exact ⟨hlt, ⟨trivial, hlt, trivial, trivial⟩, hlt, hlt⟩
  obtain ⟨g₀, s₀, introductions, g, s₁, hstart, hintros, hconclude⟩ :=
    conclude_of_prove (μ := Unit) External.none_conclusive hs hP (by decide) (some "T")
  refine ⟨g₀, s₀, introductions, g, s₁, hstart, hintros, ?_⟩
  have hgrounded : s.Grounded := by decide +kernel
  have hfinish (hunknown : (s₁.«recall?» g.remaining).isNone = true)
      (hfound : ((Search.prove .none g.remaining).run.run ⟨s₁, ()⟩).1.isOk = true)
      (hfree : ((((Search.prove .none g.remaining).run.run ⟨s₁, ()⟩).2.state.truncate
        s.depth).current.deduction.get? "T").isNone = true) :
      ∃ answer y, (Search.prove .none g.remaining).run.run ⟨s₁, ()⟩ = (.ok answer, y) ∧
        ∃ t statement, g.conclude.run.run y.state = (.ok "T", t) ∧
          t.current.deduction.get? "T" = some statement ∧ statement.alphaEq P = true := by
    rcases hprove : (Search.prove .none g.remaining).run.run ⟨s₁, ()⟩ with ⟨⟨setback⟩ | ⟨answer⟩, y⟩
    · rw [hprove] at hfound
      cases hfound
    · rw [hprove] at hfree
      obtain ⟨-, hderives, -, hconcludes⟩ := hconclude () answer y hprove
      obtain ⟨e, he⟩ := Option.ne_none_iff_exists'.1
        (hderives (Option.isNone_iff_eq_none.1 hunknown) hgrounded)
      obtain ⟨-, -, hconcludes⟩ := hconcludes e he
      obtain ⟨title, t, statement, hrun, htitle, -, hget, halpha, -⟩ :=
        hconcludes fun text existing htext hexisting ↦ by
          cases htext
          rw [Option.isNone_iff_eq_none.1 hfree] at hexisting
          cases hexisting
      obtain rfl := htitle "T" rfl
      exact ⟨answer, y, rfl, t, statement, hrun, hget, halpha⟩
  -- what is left to check of the run is decided once the goal and its state are known
  obtain rfl : _ = g₀ := Except.ok.inj (congrArg Prod.fst hstart)
  obtain rfl : _ = s₀ := congrArg Prod.snd hstart
  obtain rfl : _ = s₁ := congrArg (·.2.2) hintros
  obtain rfl : _ = g := congrArg (·.2.1) hintros
  exact hfinish (by decide +kernel) (by decide +kernel) (by decide +kernel)

/-- A goal whose hypothesis is what is left of it is not finished by a search. Here `p → p` is
opened in a state that has nothing but the prelude: the search answers with the hypothesis, but
nothing was derived, and so there is nothing to conclude. -/
theorem exists_nothing_derived :
    ∃ (s : ProofState) (P : Expression), s = (Host.start 0 16 ()).bench.state ∧ s.Unambiguous ∧
      (∀ f ∈ s.frames, f.Below s.nextVariable) ∧ P.Below s.nextVariable ∧ P.Prenex ∧
        ∃ g₀ s₀ introductions g s₁, (start none P).run.run s = (.ok g₀, s₀) ∧
          intros.run.run (g₀, s₀) = (.ok introductions, (g, s₁)) ∧
            ∃ answer y, (Search.prove .none g.remaining).run.run ⟨s₁, ()⟩ = (.ok answer, y) ∧
              ∀ title t, g.conclude.run.run y.state ≠ (.ok title, t) := by
  let P : Expression := .implies (.symbol "p") (.symbol "p")
  let s := (Host.start 0 16 ()).bench.state
  have hs : ∀ f ∈ s.frames, f.Below s.nextVariable :=
    ((Host.Reachable.start 0 16 ()).sound (μ := Unit) External.none_lawful).tidy.below
  have hP : P.Below s.nextVariable := ⟨trivial, trivial⟩
  obtain ⟨introductions, g, s₁, -, -, hintros, -, -⟩ := intros_run hs hP
  refine ⟨s, P, rfl, by decide +kernel, hs, hP, by decide, _, _, introductions, g, s₁,
    start_none_run P s, hintros, ?_⟩
  have hmissed (hknown : (s₁.«recall?» g.remaining).isSome = true)
      (hrefused : (g.conclude.run.run s₁).1.isOk = false) :
      ∃ answer y, (Search.prove .none g.remaining).run.run ⟨s₁, ()⟩ = (.ok answer, y) ∧
        ∀ title t, g.conclude.run.run y.state ≠ (.ok title, t) := by
    obtain ⟨known, hknown⟩ := Option.isSome_iff_exists.1 hknown
    refine ⟨known, _, Search.prove_run_of_recall? hknown, fun title t hrun ↦ ?_⟩
    rw [hrun] at hrefused
    cases hrefused
  obtain rfl : _ = s₁ := congrArg (·.2.2) hintros
  obtain rfl : _ = g := congrArg (·.2.1) hintros
  exact hmissed (by decide +kernel) (by decide +kernel)

end Goal

end NaturalDeduction
