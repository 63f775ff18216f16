import NaturalDeduction.Proofs.Backwards
import NaturalDeduction.Proofs.Enriching
import NaturalDeduction.Proofs.ReplacingEquals
import NaturalDeduction.Proofs.Untraced

/-!
# Quantifiers behind abbreviations

A statement may be a universal quantification only once abbreviations are written out. To specialize
it, each expansion is made into an equation, which is proved if that is possible and otherwise
supposed in the frame of the abbreviation, and the statement is exchanged for the right side of the
equation.

It is followed here along a whole chain of expansions (`ProofState.Reaches`). In a state that has
the prelude, and no rules but the prelude's, the search for the equation ends in one of two ways
(`Search.proveAt_tries`): it finds one, whose sides are equal to the ones that were looked for up to
bound names, or it fails and leaves no trace. Either way there is an equation afterwards, and the
next statement is the expansion up to bound names (`Search.exposeWithin_run_of_expands`).

The chain is allowed one expansion less than the limit says (`Search.autobind_of_reaches`). After
the last one that is allowed nobody looks whether it came to a quantification.

A tactic that fails has to leave no trace, or the next rule would start from another state. So
success and failure are followed together (`Attempt.Tries`), and the lemmas about single tactics are
put together along the list of rules (`tryRules_tries`).

Main definitions and statements:

* `Attempt.Tries`: success, or failure without a trace.
* `ProofState.Prepared`: the states in which this can be followed.
* `ProofState.Reaches`: a statement comes to a quantification in a number of expansions.
* `Search.proveAt_tries`: the search for an equation.
* `Search.autobind_of_reaches`: values are bound behind any chain that is short enough.
* `Search.exists_quantification_out_of_reach`: and not behind the next longer one.
-/

namespace NaturalDeduction

variable {μ α : Type} {x : Session μ}

/-! ### Attempts that succeed or fail -/

namespace Attempt

/-- Whether an attempt succeeds, or else fails and leaves everything as it was. It is neither
refused nor aborted. -/
def Tries (act : Attempt μ α) (x : Session μ) (post : α → ProofState → Prop) : Prop :=
  Achieves act x post ∨ ∃ goal reason, act.run.run x = (.error (.failed goal reason), x)

/-- Attempts that run alike try alike. -/
theorem Tries.congr {act act' : Attempt μ α} {post : α → ProofState → Prop} (h : Tries act' x post)
    (hrun : act.run.run x = act'.run.run x) : Tries act x post := by
  rw [Tries, Achieves, hrun]
  exact h

/-- Giving up at once leaves everything as it was. -/
theorem fail_tries (goal : Expression) (reason : FailureReason) (post : α → ProofState → Prop) :
    Tries (fail goal reason) x post := .inr ⟨goal, reason, rfl⟩

end Attempt

/-! ### Equations that are searched for

Of the three rules of the prelude two match an equation. Reflexivity succeeds if the sides are equal
up to bound names, and symmetry if the equation is known the other way round. Both leave no trace
otherwise.
-/

namespace ProofState

variable {s t : ProofState}

/-- Nothing is undone where nothing was done. -/
theorem rollback_checkpoint (s : ProofState) : s.rollback s.checkpoint = s := by
  have htruncate : s.truncate s.checkpoint.depth = s := s.truncate_depth
  have hdeduction : s.current.deduction.truncate s.checkpoint.entries s.checkpoint.parameters =
      s.current.deduction := by
    unfold checkpoint
    cases s.current.deduction
    simp [Deduction.truncate]
  have hrules : s.current.rules.take s.checkpoint.rules = s.current.rules := List.take_length
  have habbreviations : s.current.abbreviations.take s.checkpoint.abbreviations =
      s.current.abbreviations := List.take_length
  rw [rollback, htruncate, hdeduction, hrules, habbreviations]

/-- Whether the prelude is at hand and all rules are from it; abbreviations may be any lawful ones.
No name is ambiguous, and variables are below the counter. -/
structure Prepared (s : ProofState) : Prop where
  settled : s.Settled
  unambiguous : s.Unambiguous
  prelude : s.HasPrelude
  rules : ∀ r ∈ s.registered, ∀ rule ∈ r.1, ∃ n, rule ∈ (Prelude.rules.run n).1
  abbreviations : ∀ r ∈ s.registered, ∀ a ∈ r.2, a.LawfulFrom s.nextVariable

/-- A state that is prepared stays so. Rules and abbreviations are the same, and the prelude is
still visible. -/
theorem Retains.prepared (h : s.Retains t) (hs : s.Prepared) : t.Prepared where
  settled := h.settled
  unambiguous := h.unambiguous hs.unambiguous
  prelude := by
    obtain ⟨n, hn⟩ := hs.prelude
    refine ⟨n, fun p hp ↦ ?_⟩
    obtain ⟨e, he, halpha⟩ := (Option.any_eq_true ..).1 (hn p hp)
    rw [h.get? he]
    exact halpha
  rules := by
    rw [h.registered]
    exact hs.rules
  abbreviations := by
    rw [h.registered]
    exact fun r hr a ha ↦ (hs.abbreviations r hr a ha).mono h.nextVariable_le

end ProofState

namespace Expression

/-- The pattern of reflexivity asks for two sides that are equal up to bound names. -/
theorem match?_same_holes (slot : Variable) (a b : Expression) :
    (equals (hole slot) (hole slot)).match? (equals a b) =
      if a.alphaEq b then some [(slot, a)] else none := by
  simp [match?, matchWith, matchUnder, hole, Bindings.get?]

/-- The pattern of symmetry matches every equation. -/
theorem match?_two_holes {left right : Variable} (h : left.id ≠ right.id) (a b : Expression) :
    (equals (hole left) (hole right)).match? (equals a b) = some [(right, b), (left, a)] := by
  have hne : (left.id == right.id) = false := beq_eq_false_iff_ne.2 h
  simp [match?, matchWith, matchUnder, hole, Bindings.get?, hne]

end Expression

namespace Prover

open Attempt ProofState Expression

variable {p : Prover μ}

/-- Reflexivity gives the equation between an expression and itself. -/
theorem specialize_eq_refl_achieves (hp : p.Recalls) (hx : x.state.Prepared) {slot : Variable}
    {a : Expression} (ha : a.Below x.state.nextVariable) :
    Achieves (p.specialize "eq_refl" [hole slot] [(slot, a)]) x
      fun name t ↦ t.Shows name (.equals a.nameless a.nameless) := by
  have hbindings : Bindings.Below x.state.nextVariable [(slot, a)] := by
    intro b hb
    rw [List.mem_singleton.1 hb]
    exact ha
  have hslot : (hole slot).Below x.state.nextVariable := trivial
  have hfill := nameless_fill hslot hbindings
  rw [show (hole slot).nameless.fillHoles (Bindings.form? [(slot, a)]) = a.nameless by
    simp [hole, nameless, namelessIn, Nameless.fillHoles, Bindings.form?_eq,
      Bindings.get?]] at hfill
  have hdraws :
      ([hole slot].mapM fun e : Expression ↦ e.fill [(slot, a)]).Draws x.state.nextVariable
      fun values m ↦ ∃ e : Expression, values = [e] ∧ e.Below m ∧ e.nameless = a.nameless := by
    rw [List.mapM_cons, List.mapM_nil]
    obtain ⟨hle, hbelow⟩ := fill_draws hslot hbindings
    have hboth : ((hole slot).fill [(slot, a)]).Draws x.state.nextVariable
        fun e m ↦ e.Below m ∧ e.nameless = a.nameless := ⟨hle, hbelow, hfill⟩
    exact hboth.bind fun e m _ he ↦ .pure ⟨e, rfl, he⟩
  refine (Achieves.step (Building.draw_achieves hdraws)).bind fun values y hy hvalues ↦ ?_
  obtain ⟨e, rfl, hbelow, hform⟩ := hvalues
  obtain ⟨form, hshows, hopens⟩ := hy.specializes (hx.prelude.knowsEquality.reflexive e)
  refine (autobind_achieves hshows hopens (by simpa using hbelow)).bind fun bound z hz hbound ↦ ?_
  -- an equation has no conditions to discharge
  have hrule : z.state.Shows bound (List.foldr .implies (.equals e.nameless e.nameless) []) :=
    hbound
  have hnone : ∀ s t, Nameless.equals e.nameless e.nameless ≠ .implies s t := by
    intro _ _ h
    cases h
  rw [← hform]
  exact autoapply_achieves hp hrule (fun _ hc ↦ absurd hc List.not_mem_nil) hnone
    ((hy.trans hz).unambiguous hx.unambiguous)

/-- Turning an equation around needs the other one to be known, and otherwise fails without a trace.
-/
theorem turnAround_tries (hx : x.state.Prepared) {a b : Expression}
    (ha : a.Below x.state.nextVariable) (hb : b.Below x.state.nextVariable) (goal : Expression) :
    Tries (p.turnAround goal a b) x fun name t ↦ t.Shows name (.equals a.nameless b.nameless) := by
  refine Tries.congr ?_ (proofState_bind_run _)
  cases hrecall : x.state.«recall?» (.equals b a) with
  | none => exact fail_tries goal .reverseUnknown _
  | some known =>
    have hknown := hx.unambiguous.shows_of_recall? hrecall
    obtain ⟨form, hshows, hopens⟩ := hx.prelude.knowsEquality.symmetric b a
    refine .inl ((autobind_achieves hshows hopens (by simp [ha, hb])).bind fun rule y hy hrule ↦ ?_)
    exact .step (Building.apply_achieves hrule (hy.shows hknown))

/-- A rule of the prelude either proves an equation, or fails. -/
theorem runTactic_tries (hp : p.Recalls) (external : External μ) (hx : x.state.Prepared)
    {a b : Expression} (ha : a.Below x.state.nextVariable) (hb : b.Below x.state.nextVariable)
    {rule : Rule} {n : Nat}
    (hrule : rule ∈ (Prelude.rules.run n).1) {bindings : Bindings}
    (hmatch : rule.pattern.match? (.equals a b) = some bindings) :
    Tries (p.runTactic external rule.tactic bindings (.equals a b)) x
      fun name t ↦ t.Shows name (.equals a.nameless b.nameless) := by
  have hrules : (Prelude.rules.run n).1 = [
      ⟨"reflexivity", equals (hole ⟨"a", n⟩) (hole ⟨"a", n⟩),
        .specialize "eq_refl" [hole ⟨"a", n⟩]⟩,
      ⟨"symmetry", equals (hole ⟨"a", n⟩) (hole ⟨"b", n + 1⟩), .turnAround ⟨"a", n⟩ ⟨"b", n + 1⟩⟩,
      ⟨"conjunction", call "and" [hole ⟨"a", n⟩, hole ⟨"b", n + 1⟩],
        .specialize "and_intro" [hole ⟨"a", n⟩, hole ⟨"b", n + 1⟩]⟩] := rfl
  rw [hrules, List.mem_cons, List.mem_cons, List.mem_singleton] at hrule
  obtain rfl | rfl | rfl := hrule
  · rw [match?_same_holes] at hmatch
    split at hmatch
    · rename_i hequal
      cases hmatch
      rw [← alphaEq_iff.1 hequal]
      exact .inl (specialize_eq_refl_achieves hp hx ha)
    · cases hmatch
  · rw [match?_two_holes (Nat.ne_of_lt (Nat.lt_succ_self n))] at hmatch
    cases hmatch
    have hrun : p.runTactic external (.turnAround ⟨"a", n⟩ ⟨"b", n + 1⟩)
        [(⟨"b", n + 1⟩, b), (⟨"a", n⟩, a)] (equals a b) = p.turnAround (equals a b) a b := by
      simp [runTactic, Bindings.get?]
    exact hrun ▸ turnAround_tries hx ha hb (equals a b)
  · cases hmatch

end Prover

namespace Search

open Attempt ProofState

/-- Each rule either succeeds or leaves no trace, so the next begins where the first one did. -/
theorem tryRules_tries {run : Rule → Bindings → Attempt μ String} {goal : Expression}
    {rules : List Rule} (h : ∀ rule ∈ rules, ∀ bindings, rule.pattern.match? goal = some bindings →
      Tries (run rule bindings) x fun name t ↦ t.Shows name goal.nameless) :
    Tries (tryRules run goal rules) x fun name t ↦ t.Shows name goal.nameless := by
  induction rules with
  | nil => exact fail_tries goal .noRule _
  | cons rule rest ih =>
    obtain ⟨hrule, hrest⟩ := List.forall_mem_cons.1 h
    cases hmatch : rule.pattern.match? goal with
    | none =>
      rw [tryRules, hmatch]
      exact ih hrest
    | some bindings =>
      obtain hachieves | ⟨g, reason, hfails⟩ := hrule bindings hmatch
      · refine .inl fun hs ↦ ?_
        obtain ⟨name, y, hrun, hretains, e, he, hform⟩ := hachieves hs
        refine ⟨name, y, ?_, hretains, e, he, hform⟩
        rw [tryRules_cons_run hmatch, hrun]
        dsimp only
        rw [he, Option.any_some, if_pos (Expression.alphaEq_iff.2 hform)]
      · refine (ih hrest).congr ?_
        rw [tryRules_cons_run hmatch, hfails]
        dsimp only
        rw [x.state.rollback_checkpoint]

/-- Counting the search does not change what it tries. -/
theorem counted_tries {act : Attempt μ String} {form : Nameless}
    (h : Tries act { x with state := { x.state with searching := x.state.searching + 1 } }
      fun name t ↦ t.Shows name form) :
    Tries (counted act) x fun name t ↦ t.Shows name form := by
  obtain hachieves | ⟨g, reason, hfails⟩ := h
  · refine .inl fun hs ↦ ?_
    obtain ⟨name, y, hrun, hretains, hshows⟩ := hachieves hs
    refine ⟨name, { y with state := { y.state with searching := y.state.searching - 1 } }, ?_, ?_,
      hshows⟩
    · rw [counted_run, hrun]
    · exact ⟨hretains.get?, hretains.nextVariable_le, hretains.settled, hretains.unambiguous,
      hretains.registered⟩
  · refine .inr ⟨g, reason, ?_⟩
    rw [counted_run, hfails]
    rfl

/-- An equation that evaluates to true is established by its evaluation. -/
theorem verify_achieves {e : Expression} (h : e.Below x.state.nextVariable)
    (heval : e.evaluate = .ok true) :
    Achieves (step (Building.verify e)) x fun name t ↦ t.Shows name e.nameless := by
  rw [verify_eq_conclude heval]
  exact .step (Building.conclude_achieves h _)

/-- **The search for an equation** proves it, or it fails without a trace. -/
theorem proveAt_tries (external : External μ) (levels : Nat) (hx : x.state.Prepared)
    {a b : Expression} (ha : a.Below x.state.nextVariable) (hb : b.Below x.state.nextVariable) :
    Tries (proveAt external levels (.equals a b)) x
      fun name t ↦ t.Shows name (.equals a.nameless b.nameless) := by
  unfold proveAt
  refine Tries.congr ?_ (proofState_bind_run _)
  split
  · rename_i known hrecall
    exact .inl (.pure (hx.unambiguous.shows_of_recall? hrecall))
  · split
    · rename_i heval
      rw [if_pos rfl]
      exact .inl (verify_achieves ⟨ha, hb⟩ heval)
    · rw [if_neg Bool.false_ne_true]
      split
      · exact fail_tries _ _ _
      · cases levels with
        | zero => exact fail_tries _ _ _
        | succ levels =>
          refine counted_tries (tryRules_tries fun rule hrule bindings hmatch ↦ ?_)
          obtain ⟨f, hf, hr⟩ := List.mem_flatMap.1 hrule
          obtain ⟨n, hn⟩ := hx.rules _ (List.mem_map_of_mem hf) rule hr
          let counting : Session μ :=
            { x with state := { x.state with searching := x.state.searching + 1 } }
          have hretains : x.state.Retains counting.state := ⟨id, Nat.le_refl _, hx.settled, id, rfl⟩
          have hinner := proveAt_recalls external levels external.slack
          exact Prover.runTactic_tries (x := counting) hinner external (hretains.prepared hx) ha hb
            hn hmatch

/-- The search for an equation with the prover that tactics have. -/
theorem prover_tries (external : External μ) (hx : x.state.Prepared) {a b : Expression}
    (ha : a.Below x.state.nextVariable) (hb : b.Below x.state.nextVariable) :
    Tries ((prover external).prove (.equals a b)) x
      fun name t ↦ t.Shows name (.equals a.nameless b.nameless) :=
  (proveAt_tries external (max x.state.searchLimit external.reach - x.state.searching) hx ha
    hb).congr (proofState_bind_run _)

end Search

/-! ### Definitions that are supposed

An equation that was not proved is supposed in the frame of its abbreviation, which may be further
out. All that was visible stays visible, since the name of the new entry is generated.
-/

namespace ProofState

variable {s t : ProofState} {inner outer : List Frame} {f : Frame} {entry : Entry}

/-- Searches register nothing. -/
theorem Enriches.registered (h : s.Enriches t) : t.registered = s.registered := by
  have hframes : List.Forall₂ (· = ·) s.registered t.registered := by
    refine List.forall₂_map_left_iff.2
      (List.forall₂_map_right_iff.2 (h.frames.imp fun f g hfg ↦ ?_))
    rw [hfg.rules, hfg.abbreviations]
  rw [List.forall₂_eq_eq_eq] at hframes
  exact hframes.symm

/-- An entry that is added to a frame comes before what that frame and those around it hold. -/
theorem exists_history_setFrameAt (h : s.frames = inner ++ f :: outer) (entry : Entry) :
    ∃ before after, s.history = before ++ after ∧
      (s.setFrameAt outer.length (f.add entry)).history = before ++ entry :: after := by
  refine ⟨inner.flatMap (·.deduction.entries),
    f.deduction.entries ++ outer.flatMap (·.deduction.entries), ?_, ?_⟩
  · simp [history, h]
  · simp [history, frames_setFrameAt h, Frame.add]

/-- A definition with a name that is not visible hides nothing. -/
theorem retains_define (hs : s.Settled) (hframes : s.frames = inner ++ f :: outer)
    (hdefines : f.Defines entry) (hfree : s.find? entry.name = none)
    (hbelow : entry.statement.Below s.nextVariable) :
    s.Retains (s.setFrameAt outer.length (f.add entry)) := by
  have henriches : s.Enriches (s.setFrameAt outer.length (f.add entry)) :=
    .define hframes hdefines hfree
  obtain ⟨current, enclosing, hset, -⟩ := exists_setFrameAt_eq hframes (f.add entry)
  have hvariable : (s.setFrameAt outer.length (f.add entry)).nextVariable = s.nextVariable := by
    rw [hset]
  obtain ⟨before, after, hhistory, hhistory'⟩ := exists_history_setFrameAt hframes entry
  refine ⟨henriches.get?, Nat.le_of_eq hvariable.symm, fun e he ↦ ?_, fun hnames ↦ ?_,
    henriches.registered⟩
  · rw [hvariable]
    rw [hhistory', List.mem_append, List.mem_cons] at he
    obtain he | rfl | he := he
    · exact hs e (hhistory ▸ List.mem_append_left _ he)
    · exact hbelow
    · exact hs e (hhistory ▸ List.mem_append_right _ he)
  · rw [Unambiguous, hhistory, List.map_append] at hnames
    rw [Unambiguous, hhistory', List.map_append, List.map_cons, List.nodup_middle, List.nodup_cons]
    refine ⟨fun hmem ↦ ?_, hnames⟩
    rw [← List.map_append, ← hhistory] at hmem
    obtain ⟨e, he, hname⟩ := List.mem_map.1 hmem
    rw [find?_eq, List.find?_eq_none] at hfree
    exact hfree e he (beq_iff_eq.2 hname)

/-- A definition has its name, if the name was not visible. -/
theorem find?_define (hframes : s.frames = inner ++ f :: outer)
    (hfree : s.find? entry.name = none) :
    (s.setFrameAt outer.length (f.add entry)).find? entry.name = some entry := by
  obtain ⟨before, after, hhistory, hhistory'⟩ := exists_history_setFrameAt hframes entry
  rw [find?_eq, hhistory, List.find?_append, Option.or_eq_none_iff] at hfree
  rw [find?_eq, hhistory', List.find?_append, hfree.1, List.find?_cons, beq_self_eq_true]
  rfl

end ProofState

namespace Building

open ProofState

variable {s : ProofState}

/-- A definition may be supposed further out. Its name is generated, so it hides nothing, and
nothing further in hides it. -/
theorem supposeAt_achieves {index : Nat} {definition : Expression}
    (h : s.MayDefine index definition) (hbelow : definition.Below s.nextVariable) :
    Achieves (supposeAt index definition) s fun name t ↦ t.Shows name definition.nameless := by
  intro hs
  obtain ⟨inner, f, outer, hframes, rfl, hdefines⟩ := h
  let named : ProofState := { s with nextName := s.freeNumber + 1 }
  have hfree : named.find? (generatedName s.freeNumber) = none := s.find?_generatedName
  have hretains := retains_define (s := named) hs hframes (hdefines _) hfree hbelow
  have hnamed : s.Retains named := ⟨id, Nat.le_refl _, hs, id, rfl⟩
  refine ⟨_, _, supposeAt_run hframes definition, hnamed.trans hretains, definition, ?_, rfl⟩
  rw [ProofState.get?, find?_define (s := named) hframes hfree]
  rfl

/-! ### Writing abbreviations out -/

/-- The expansion by the innermost frame depends on what is registered. -/
theorem expandInnermost_congr {head : String} {args : List Expression} {fs gs : List Frame}
    (h : gs.map (fun f ↦ (f.rules, f.abbreviations)) = fs.map fun f ↦ (f.rules, f.abbreviations)) :
    Frame.expandInnermost head args gs = Frame.expandInnermost head args fs := by
  have hlength : gs.length = fs.length := by simpa using congrArg List.length h
  induction fs generalizing gs with
  | nil =>
    rw [List.eq_nil_of_length_eq_zero hlength]
  | cons f fs ih =>
    cases gs with
    | nil => cases h
    | cons g gs =>
      obtain ⟨hfirst, hrest⟩ := List.cons.inj h
      have habbreviations : g.abbreviations = f.abbreviations := (Prod.mk.inj hfirst).2
      have hlength : gs.length = fs.length := Nat.succ.inj hlength
      unfold Frame.expandInnermost
      rw [habbreviations, ih hrest hlength, hlength]

/-- What an abbreviation is written out to depends on what is registered, and on the counter only.
-/
theorem expand?_run_congr {s t : ProofState} (h : t.registered = s.registered) (e : Expression)
    (k : Nat) : ((expand? e).run.run { t with nextVariable := k }).1 =
      ((expand? e).run.run { s with nextVariable := k }).1 := by
  unfold expand?
  cases e.head? with
  | none => rfl
  | some head =>
    show Except.ok ((Frame.expandInnermost head e.args t.frames).run k).1 =
      Except.ok ((Frame.expandInnermost head e.args s.frames).run k).1
    rw [expandInnermost_congr h]

/-- Writing out draws variables, which lie below the counter afterwards. -/
theorem expand?_achieves (hs : s.Prepared) {e : Expression} (he : e.Below s.nextVariable) :
    Achieves (expand? e) s fun result t ↦ ∀ p, result = some p → p.2.Below t.nextVariable := by
  unfold expand?
  cases e.head? with
  | none => exact .pure fun p hp ↦ by cases hp
  | some head =>
    have hargs : ∀ a ∈ e.args, a.Below s.nextVariable :=
      fun a ha ↦ Expression.below_of_mem_args he ha
    have hlawful : ∀ f ∈ s.frames, ∀ a ∈ f.abbreviations, a.LawfulFrom s.nextVariable :=
      fun f hf a ha ↦ hs.abbreviations _ (List.mem_map_of_mem hf) a ha
    exact draw_achieves (Frame.expandInnermost_draws hlawful (Nat.le_refl _) hargs)

end Building

/-! ### Chains of abbreviations -/

/-- Whether an expression comes to `q` if it is written out `n` times, each time by the innermost
abbreviation that expands it. Variables may be drawn in between, and since the equation that is used
may have been known, bound variables may have other names. -/
def ProofState.Reaches (s : ProofState) (q : Expression) : (n : Nat) → (e : Expression) → Prop
  | 0, e => e.alphaEq q = true
  | n + 1, e => ∀ k ≥ s.nextVariable, ∃ index expansion,
    ((Building.expand? e).run.run { s with nextVariable := k }).1 = .ok (some (index, expansion)) ∧
      ∀ e', e'.alphaEq expansion = true → s.Reaches q n e'

/-- A chain of expansions is one in every later state as well. -/
theorem ProofState.Reaches.of_retains {s t : ProofState} {q e : Expression} {n : Nat}
    (h : s.Reaches q n e) (hst : s.Retains t) : t.Reaches q n e := by
  induction n generalizing e with
  | zero => exact h
  | succ n ih =>
    intro k hk
    obtain ⟨index, expansion, hexpand, hnext⟩ := h k (Nat.le_trans hst.nextVariable_le hk)
    rw [← Building.expand?_run_congr hst.registered] at hexpand
    exact ⟨index, expansion, hexpand, fun e' he' ↦ ih (hnext e' he')⟩

namespace Prover

open Attempt

variable {p : Prover μ} {e expansion : Expression} {name : String} {index : Nat} {t : ProofState}
  {z : Session μ}

/-- One turn of the loop, if the definition is proved. -/
theorem exposeWithin_run_proved {equation : String} (hname : x.state.get? name = some e)
    (hexpand : (Building.expand? e).run.run x.state = (.ok (some (index, expansion)), t))
    (hprove : (p.prove (.equals e expansion)).run.run { x with state := t } = (.ok equation, z))
    (budget : Nat) : (p.exposeWithin (budget + 1) name).run.run x =
      (step (Building.eliminate equation name) >>= p.exposeWithin budget).run.run z := by
  rw [exposeWithin, run_bind_ok (step_run (Building.get?_lookup_run hname))]
  split
  · cases hexpand
  · rw [run_bind_ok (step_run hexpand)]
    exact outcome_bind_run hprove _

/-- One turn of the loop, if the definition is not proved. -/
theorem exposeWithin_run_unproved {goal : Expression} {reason : FailureReason}
    (hname : x.state.get? name = some e)
    (hexpand : (Building.expand? e).run.run x.state = (.ok (some (index, expansion)), t))
    (hprove : (p.prove (.equals e expansion)).run.run { x with state := t } =
      (.error (.failed goal reason), z)) (budget : Nat) :
    (p.exposeWithin (budget + 1) name).run.run x =
      (step (Building.supposeAt index (.equals e expansion)) >>= fun equation ↦
        step (Building.eliminate equation name) >>= p.exposeWithin budget).run.run z := by
  rw [exposeWithin, run_bind_ok (step_run (Building.get?_lookup_run hname))]
  split
  · cases hexpand
  · rw [run_bind_ok (step_run hexpand)]
    exact outcome_bind_run hprove _

end Prover

namespace Search

open Attempt ProofState

variable (external : External μ) {e expansion : Expression} {name : String} {index n : Nat}

/-- If the named statement has an expansion, one turn of the loop exchanges it for the expansion. -/
theorem exposeWithin_run_of_expands (hx : x.state.Prepared) (hname : x.state.get? name = some e)
    (hexpand : ((Building.expand? e).run.run x.state).1 = .ok (some (index, expansion)))
    (budget : Nat) : ∃ next y,
      ((prover external).exposeWithin (budget + 1) name).run.run x =
        ((prover external).exposeWithin budget next).run.run y ∧
      x.state.Retains y.state ∧ y.state.Shows next expansion.nameless := by
  have he := hx.settled.below hname
  obtain ⟨result, t, hrun, hretains, hbelow⟩ := Building.expand?_achieves hx he hx.settled
  rw [hrun] at hexpand
  obtain rfl := Except.ok.inj hexpand
  have hbelow : expansion.Below t.nextVariable := hbelow _ rfl
  have hdefine := Building.mayDefine_of_expand? hrun
  let y : Session μ := { x with state := t }
  have hy : y.state.Prepared := hretains.prepared hx
  have hdefinition : (Expression.equals e expansion).Below t.nextVariable :=
    ⟨hretains.below he, hbelow⟩
  -- proved or supposed, the definition is an equation
  obtain ⟨equation, z, hz, hretains', hequation⟩ : ∃ equation z,
      ((prover external).exposeWithin (budget + 1) name).run.run x =
        (step (Building.eliminate equation name) >>=
          (prover external).exposeWithin budget).run.run z ∧
      t.Retains z.state ∧ z.state.Shows equation (.equals e.nameless expansion.nameless) := by
    obtain hachieves | ⟨goal, reason, hfails⟩ := prover_tries external hy (hretains.below he) hbelow
    · obtain ⟨equation, z, hproved, hretains, hequation⟩ := hachieves hy.settled
      exact ⟨equation, z, Prover.exposeWithin_run_proved hname hrun hproved budget, hretains,
        hequation⟩
    · have hsuppose := Building.supposeAt_achieves hdefine hdefinition
      obtain ⟨equation, u, hsupposed, hretains, hequation⟩ := hsuppose hy.settled
      refine ⟨equation, { y with state := u }, ?_, hretains, hequation⟩
      rw [Prover.exposeWithin_run_unproved hname hrun hfails budget,
        run_bind_ok (step_run (x := y) hsupposed)]
  have hretains' := hretains.trans hretains'
  have hequality := (hretains'.prepared hx).prelude.knowsEquality
  have hachieves :=
    Building.eliminate_achieves hequality hequation (hretains'.shows ⟨e, hname, rfl⟩)
  obtain ⟨next, u, hrun', hretains'', hnext⟩ := hachieves hretains'.settled
  refine ⟨next, { z with state := u }, ?_, hretains'.trans hretains'', hnext⟩
  rw [hz, run_bind_ok (step_run hrun')]

/-- Writing out finds a quantification that is reached in fewer steps than are allowed. Otherwise it
is given up. -/
theorem exposeWithin_of_reaches {v : Variable} {body : Expression} (hx : x.state.Prepared)
    (hname : x.state.get? name = some e) (h : x.state.Reaches (.all v body) n e) (budget : Nat) :
    (n < budget → ∃ found y,
      ((prover external).exposeWithin budget name).run.run x = (.ok found, y) ∧
      x.state.Retains y.state ∧ y.state.Shows found (Expression.all v body).nameless) ∧
    (budget ≤ n → ∃ goal y, ((prover external).exposeWithin budget name).run.run x =
      (.error (.failed goal .tooManyExpansions), y)) := by
  have hlookup := step_run (x := x) (Building.get?_lookup_run hname)
  induction budget generalizing n e name x with
  | zero =>
    refine ⟨fun hn ↦ absurd hn (Nat.not_lt_zero n), fun _ ↦ ⟨e, x, ?_⟩⟩
    rw [Prover.exposeWithin, run_bind_ok hlookup]
    rfl
  | succ budget ih =>
    cases n with
    | zero =>
      refine ⟨fun _ ↦ ⟨name, x, ?_, .refl hx.settled, e, hname, Expression.alphaEq_iff.1 h⟩,
        fun hn ↦ absurd hn (Nat.not_succ_le_zero budget)⟩
      obtain ⟨w, body', rfl, -⟩ :=
        Expression.exists_of_nameless_eq_binder (Expression.alphaEq_iff.1 h)
      rw [Prover.exposeWithin, run_bind_ok hlookup]
      rfl
    | succ n =>
      obtain ⟨index, expansion, hexpand, hreaches⟩ := h x.state.nextVariable (Nat.le_refl _)
      obtain ⟨next, y, hrun, hretains, e', he', hform⟩ :=
        exposeWithin_run_of_expands external hx hname hexpand budget
      have hnext := (hreaches e' (Expression.alphaEq_iff.2 hform)).of_retains hretains
      have hlookup := step_run (x := y) (Building.get?_lookup_run he')
      obtain ⟨hfound, hgiven⟩ := ih (hretains.prepared hx) he' hnext hlookup
      rw [hrun]
      refine ⟨fun hn ↦ ?_, fun hn ↦ hgiven (Nat.le_of_succ_le_succ hn)⟩
      obtain ⟨found, z, hrun', hretains', hshows⟩ := hfound (Nat.lt_of_succ_lt_succ hn)
      exact ⟨found, z, hrun', hretains.trans hretains', hshows⟩

/-- **Specializing goes through chains of abbreviations** that are shorter than the limit. If a
visible statement comes to a universal quantification when it is written out less often than the
limit says, then specializing it to a value succeeds, and the name that is answered stands for the
quantification with the value put for its variable. If it has to be written out as often as the
limit says, or more often, the attempt fails: what the last expansion came to is not looked at. -/
theorem autobind_of_reaches {target : Reference} {e body value : Expression}
    {v : Variable} {n : Nat} (hx : x.state.Prepared)
    (htarget : (Building.proposition target).run.run x.state = (.ok e, x.state))
    (hvalue : value.Below x.state.nextVariable) (hreaches : x.state.Reaches (.all v body) n e) :
    (n < maxExpansions → ∃ name y found,
      ((prover external).autobind target [value]).run.run x = (.ok name, y) ∧
      y.state.get? name = some found ∧ ∀ k, (Expression.all v body).Below k → value.Below k →
        found.alphaEq ((body.substitute [⟨.var v, value⟩] .all).run k).1 = true) ∧
    (maxExpansions ≤ n → ∃ goal y, ((prover external).autobind target [value]).run.run x =
      (.error (.failed goal .tooManyExpansions), y)) := by
  obtain ⟨name, hresolve, hname⟩ := Building.exists_of_proposition_run htarget
  obtain ⟨hfound, hgiven⟩ := exposeWithin_of_reaches external hx hname hreaches maxExpansions
  have hbind : ((prover external).autobind target [value]).run.run x =
      ((prover external).exposeWithin maxExpansions name >>= fun exposed ↦
        step (Building.bind (.name exposed) value)).run.run x := by
    rw [Prover.autobind, run_bind_ok (step_run hresolve)]
    simp only [Prover.bindEach, bind_pure]
  rw [hbind, run_bind_eq]
  refine ⟨fun hn ↦ ?_, fun hn ↦ ?_⟩
  · obtain ⟨exposed, y, hrun, hretains, hshows⟩ := hfound hn
    obtain ⟨bound, t, hrun', -, found, hget, hform⟩ :=
      Building.bind_achieves hshows (hretains.below hvalue) hretains.settled
    refine ⟨bound, { y with state := t }, found, ?_, hget, fun k hk hvalue ↦ ?_⟩
    · rw [hrun]
      exact step_run hrun'
    · obtain ⟨-, -, hsubstitute⟩ := Expression.substitute_var_draws hk.1 hk.2 hvalue
      rw [Expression.alphaEq_iff, hsubstitute, hform]
  · obtain ⟨goal, y, hrun⟩ := hgiven hn
    exact ⟨goal, y, by rw [hrun]⟩

end Search

/-! ### Chains of names -/

namespace ProofState

/-- Abbreviations of which each stands for the next one, applied to the same; the last one stands
for the statement that everything is `c`. -/
def chain : (heads : List String) → List Abbreviation
  | [] => []
  | [head] => [⟨head, fun _ ↦ return some (.all ⟨"x", 9⟩ (.equals (.var ⟨"x", 9⟩) (.symbol "c")))⟩]
  | head :: next :: rest =>
    ⟨head, fun args ↦ return some (.call next args)⟩ :: chain (next :: rest)

/-- The abbreviations of the chain mention no variable but their own. -/
theorem chain_lawful (heads : List String) : ∀ a ∈ chain heads, a.LawfulFrom 10 := by
  fun_induction chain heads with
  | case1 => exact fun a ha ↦ absurd ha List.not_mem_nil
  | case2 head =>
    rintro a ha args n hn -
    rw [List.mem_singleton.1 ha]
    refine ⟨Nat.le_refl n, fun e he ↦ ?_⟩
    cases he
    have hlt : 9 < n := hn
    exact ⟨hlt, hlt, trivial⟩
  | case3 head next rest ih =>
    refine List.forall_mem_cons.2 ⟨fun args n _ hargs ↦ ⟨Nat.le_refl n, fun e he ↦ ?_⟩, ih⟩
    cases he
    exact ⟨trivial, Expression.allBelow_iff.2 hargs⟩

/-- A state with the prelude in which `P` is the first abbreviation of a chain, applied to `c`. -/
def chained (head : String) (heads : List String) : ProofState :=
  { ProofState.initial 10 16 with
    current :=
      { deduction := ⟨"root", [], ⟨"P", .call head [.symbol "c"], .supposition⟩ ::
          (Prelude.statements.run 0).1.map fun p ↦ ⟨p.1, p.2, .supposition⟩⟩
        rules := (Prelude.rules.run 7).1
        abbreviations := chain (head :: heads) } }

/-- The state of the example has the prelude and no rules but the prelude's. -/
theorem chained_prepared (head : String) (heads : List String) : (chained head heads).Prepared := by
  have hhistory : (chained head heads).history = ⟨"P", .call head [.symbol "c"], .supposition⟩ ::
      (Prelude.statements.run 0).1.map fun p ↦ ⟨p.1, p.2, .supposition⟩ := rfl
  have hnames : (chained head heads).Unambiguous := by
    show List.Nodup ["P", "eq_refl", "eq_sym", "eq_trans", "eq_elim", "subst_congruence",
      "and_intro"]
    decide
  refine ⟨?_, hnames, ⟨0, fun p hp ↦ ?_⟩, fun r hr rule hrule ↦ ?_, fun r hr a ha ↦ ?_⟩
  · rw [Settled, hhistory]
    refine List.forall_mem_cons.2 ⟨⟨trivial, trivial, trivial⟩, List.forall_mem_map.2 fun p hp ↦ ?_⟩
    have hle : (Prelude.statements.run 0).2 ≤ 10 := by decide
    exact ((Prelude.statements_draws 0).2 p hp).mono hle
  · have hmem : ⟨p.1, p.2, .supposition⟩ ∈ (chained head heads).history :=
      hhistory ▸ List.mem_cons_of_mem _ (List.mem_map_of_mem hp)
    rw [ProofState.get?, hnames.find? hmem]
    exact Expression.alphaEq_iff.2 rfl
  · rw [List.mem_singleton.1 hr] at hrule
    exact ⟨7, hrule⟩
  · rw [List.mem_singleton.1 hr] at ha
    exact chain_lawful (head :: heads) a ha

/-- Only an application to `c` is equal to it up to bound names. -/
theorem eq_of_alphaEq_call {e : Expression} {head : String}
    (h : e.alphaEq (.call head [.symbol "c"]) = true) : e = .call head [.symbol "c"] := by
  have hsymbol : ∀ {a : Expression} {name : String},
      a.nameless = .symbol name → a = .symbol name := by
    rintro ((_ | _ | _ | _ | _) | _ | _ | _ | _) name h <;> cases h
    rfl
  have hform : e.nameless = .application [.symbol head, .symbol "c"] := Expression.alphaEq_iff.1 h
  obtain ⟨a, b, rfl⟩ : ∃ a b, e = .application [a, b] := by
    rcases e with (_ | _ | _ | _ | _) | _ | _ | _ | items
    all_goals try cases hform
    have hlength := congrArg List.length (Nameless.application.inj hform)
    rw [Expression.namelessAllIn_eq_map, List.length_map] at hlength
    obtain ⟨a, b, rfl⟩ := List.length_eq_two.1 hlength
    exact ⟨a, b, rfl⟩
  obtain ⟨ha, hb⟩ := List.cons.inj (Nameless.application.inj hform)
  rw [hsymbol ha, hsymbol (List.cons.inj hb).1]
  rfl

/-- One link of the chain: a call that is written out to the next one is an expansion further away.
-/
theorem Reaches.rename {s : ProofState} {q : Expression} {n : Nat} {head next : String}
    (hexpand : ∀ k, ((Building.expand? (.call head [.symbol "c"])).run.run
      { s with nextVariable := k }).1 = .ok (some (0, .call next [.symbol "c"])))
    (h : s.Reaches q n (.call next [.symbol "c"])) :
    s.Reaches q (n + 1) (.call head [.symbol "c"]) :=
  fun k _ ↦ ⟨0, _, hexpand k, fun _ he ↦ eq_of_alphaEq_call he ▸ h⟩

end ProofState

namespace Search

open ProofState

/-- Two expansions. -/
theorem autobind_of_reaches_chain :
    let session : Session Unit := ⟨chained "n0" ["n1"], ()⟩
    ∃ name y found,
      ((prover .none).autobind (.name "P") [.symbol "d"]).run.run session = (.ok name, y) ∧
      y.state.get? name = some found ∧
        found.alphaEq (.equals (.symbol "d") (.symbol "c")) = true := by
  intro session
  have hprepared : session.state.Prepared := chained_prepared "n0" ["n1"]
  have htarget : (Building.proposition (.name "P")).run.run session.state =
      (.ok (.call "n0" [.symbol "c"]), session.state) := rfl
  have hreaches : session.state.Reaches
      (.all ⟨"x", 9⟩ (.equals (.var ⟨"x", 9⟩) (.symbol "c"))) 2 (.call "n0" [.symbol "c"]) := by
    refine .rename (fun _ ↦ rfl) ?_
    exact fun k _ ↦ ⟨0, _, rfl, fun e he ↦ he⟩
  have hvalue : (Expression.symbol "d").Below session.state.nextVariable := trivial
  obtain ⟨hfound, -⟩ := autobind_of_reaches .none hprepared htarget hvalue hreaches
  obtain ⟨name, y, found, hrun, hget, halpha⟩ := hfound (by decide)
  have hlt : 9 < 10 := by decide
  have halpha := halpha 10 ⟨hlt, hlt, trivial⟩ trivial
  refine ⟨name, y, found, hrun, hget, Expression.alphaEq_iff.2 ?_⟩
  refine (Expression.alphaEq_iff.1 halpha).trans (Expression.alphaEq_iff.1 ?_)
  decide +kernel

/-- Eight expansions lead to a quantification, but the attempt fails. -/
theorem exists_quantification_out_of_reach :
    ∃ (x : Session Unit) (e body : Expression) (v : Variable),
    x.state.Prepared ∧ (Building.proposition (.name "P")).run.run x.state = (.ok e, x.state) ∧
      x.state.Reaches (.all v body) maxExpansions e ∧
      (((prover .none).autobind (.name "P") [.symbol "d"]).run.run x).1.isOk = false := by
  refine ⟨⟨chained "n0" ["n1", "n2", "n3", "n4", "n5", "n6", "n7"], ()⟩, .call "n0" [.symbol "c"],
    .equals (.var ⟨"x", 9⟩) (.symbol "c"), ⟨"x", 9⟩, chained_prepared _ _, rfl,
    ?_, by decide +kernel⟩
  refine .rename (fun _ ↦ rfl) (.rename (fun _ ↦ rfl) (.rename (fun _ ↦ rfl) (.rename (fun _ ↦ rfl)
    (.rename (fun _ ↦ rfl) (.rename (fun _ ↦ rfl) (.rename (fun _ ↦ rfl) ?_))))))
  exact fun k _ ↦ ⟨0, _, rfl, fun e he ↦ he⟩

end Search

end NaturalDeduction
