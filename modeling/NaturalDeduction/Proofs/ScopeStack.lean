import NaturalDeduction.Proofs.BoundedQuantifier
import NaturalDeduction.Proofs.RoundTrip

/-!
# The scope as a stack

The reader hands its scope down as an argument. A reader that keeps one stack of names instead
pushes a name for each variable that a binder draws, and has to cut the stack down again on every
way out of the binder: behind the body, when the body cannot be read, and when the next name is not
a name. `SExpr.convert` is that reader. It reads the same as `SExpr.read` does, draws the same
variables, and leaves the stack as it found it, whether it succeeds or not
(`SExpr.convert_mirrors`).

The last section says what is drawn on the way: variables that no one has seen, one for each binder,
so that only variables of the scope are free in what is read (`SExpr.read_draws`).

Main definitions and statements:

* `StackReading`: computations with one stack of names.
* `SExpr.convert`: the reader that pushes and cuts back.
* `Parallel`, `Mirrors`: two runs side by side, and the case in which the stack is the scope.
* `SExpr.convert_mirrors`, `SExpr.read_draws`.
-/

namespace NaturalDeduction

/-! ### A reader with a stack -/

/-- What a reader with a stack works on: the names, the innermost first, and what is drawn. -/
structure StackState where
  scope : Scope
  drawn : ReadState

/-- Computations that read with a stack. An error leaves the stack as it is. -/
abbrev StackReading := ExceptT SyntaxError (StateM StackState)

namespace StackReading

/-- A reading that does not look at the stack. -/
def draw {α : Type} (act : Reading α) : StackReading α := fun s ↦
  let (result, drawn) := act.run.run s.drawn
  (result, { s with drawn := drawn })

/-- The height of the stack. -/
def mark : StackReading Nat := return (← get).scope.length

/-- Forgets what was pushed since the stack had a height. -/
def restore (height : Nat) : StackReading Unit :=
  modify fun s ↦ { s with scope := s.scope.drop (s.scope.length - height) }

/-- Reads a word. -/
def word (text : String) (position : Position) : StackReading Expression := do
  draw (Reading.word (← get).scope text position)

/-- Draws a variable for each name, and pushes them. Where there is no name, everything above a
height is forgotten. -/
def bindNames (height : Nat) : List SExpr → StackReading (List Variable)
  | [] => return []
  | .word name _ :: rest => do
    let v ← draw (Reading.fresh name)
    modify fun s ↦ { s with scope := (name, v) :: s.scope }
    return v :: (← bindNames height rest)
  | x :: _ => do
    restore height
    throw ⟨.notAVariableName, x.position⟩

end StackReading

namespace SExpr

open Reading

mutual

/-- Reads an expression with the names on the stack. -/
def convert : SExpr → StackReading Expression
  | .quotation contents _ => return .text contents
  | .word text position => StackReading.word text position
  | .list position items =>
    match items with
    | [] => return .application []
    | head :: args =>
      match head.word?.bind BinderKind.ofKeyword? with
      | some kind =>
        match args with
        | [vars, body] => do
          if (binderNames vars).isEmpty then throw ⟨.binderWithoutVariables, vars.position⟩
          let height ← StackReading.mark
          let vs ← StackReading.bindNames height (binderNames vars)
          let e ← try convert body finally StackReading.restore height
          return .binders kind vs e
        | _ => throw ⟨.binderShape, position⟩
      | none =>
        if head.word? = some "->" then do
          if args.length < 2 then throw ⟨.ruleShape, position⟩
          let parts ← convertAll args
          return .rules parts.dropLast (parts.getLastD default)
        else if head.word? = some "=" then
          match args with
          | [left, right] => return .equals (← convert left) (← convert right)
          | _ => throw ⟨.equationShape, position⟩
        else return .application (← convertAll (head :: args))
termination_by x => 2 * x.size
decreasing_by all_goals simp only [size, sizes]; omega

/-- Reads expressions one after the other. -/
def convertAll : List SExpr → StackReading (List Expression)
  | [] => return []
  | x :: rest => return (← convert x) :: (← convertAll rest)
termination_by xs => 2 * sizes xs + 1
decreasing_by all_goals have := size_pos x; simp only [sizes]; omega

end

end SExpr

/-! ### Two runs side by side

The two computations may work on different states. They succeed together, with results and states as
`post` says, or fail together with the same error, in states as `fail` says. So what has to be
cleaned up behind an error can be stated as well.
-/

/-- Whether two computations, each in a state of its own, both succeed or both fail with one error,
with `post` about the results and `fail` about where an error leaves the states. -/
def Parallel {σ τ α β : Type} (act : ExceptT SyntaxError (StateM σ) α)
    (act' : ExceptT SyntaxError (StateM τ) β) (s : σ) (s' : τ) (post : α → β → σ → τ → Prop)
    (fail : σ → τ → Prop) : Prop :=
  match act.run.run s, act'.run.run s' with
  | (.ok a, t), (.ok b, t') => post a b t t'
  | (.error e, t), (.error e', t') => e' = e ∧ fail t t'
  | _, _ => False

/-- What is done on every way out is done once, behind whatever came before. -/
theorem run_finally_modify {σ α : Type} (act : ExceptT SyntaxError (StateM σ) α) (f : σ → σ)
    (s : σ) : (tryFinally act (modify f)).run.run s = ((act.run.run s).1, f (act.run.run s).2) := by
  rw [tryFinally, ExceptT.run_map, StateT.run_map]
  unfold ExceptT.run StateT.run
  simp only [tryFinally', ExceptT.mk, bind, StateT.bind]
  rcases act s with ⟨⟨e⟩ | ⟨a⟩, t⟩ <;> rfl

namespace Parallel

variable {σ τ α β γ δ : Type} {s : σ} {s' : τ} {fail : σ → τ → Prop}
  {act : ExceptT SyntaxError (StateM σ) α} {act' : ExceptT SyntaxError (StateM τ) β}
  {post : α → β → σ → τ → Prop} {post' : γ → δ → σ → τ → Prop}

theorem pure {a : α} {b : β} (h : post a b s s') :
    Parallel (Pure.pure a) (Pure.pure b) s s' post fail := h

/-- Two readings fail alike with one fault. -/
theorem throw (e : SyntaxError) (h : fail s s') :
    Parallel (MonadExcept.throw e) (MonadExcept.throw e) s s' post fail := ⟨rfl, h⟩

/-- What two runs have in common may be weakened. -/
theorem imp {post' : α → β → σ → τ → Prop} {fail' : σ → τ → Prop}
    (h : Parallel act act' s s' post fail) (hpost : ∀ a b t t', post a b t t' → post' a b t t')
    (hfail : ∀ t t', fail t t' → fail' t t') : Parallel act act' s s' post' fail' := by
  rw [Parallel] at h ⊢
  revert h
  rcases act.run.run s with ⟨⟨e⟩ | ⟨a⟩, t⟩ <;>
    rcases act'.run.run s' with ⟨⟨e'⟩ | ⟨b⟩, t'⟩ <;> intro h
  · exact ⟨h.1, hfail t t' h.2⟩
  · exact h
  · exact h
  · exact hpost a b t t' h

/-- Runs side by side go on side by side. -/
theorem bind {next : α → ExceptT SyntaxError (StateM σ) γ}
    {next' : β → ExceptT SyntaxError (StateM τ) δ} (h : Parallel act act' s s' post fail)
    (hnext : ∀ a b t t', post a b t t' → Parallel (next a) (next' b) t t' post' fail) :
    Parallel (act >>= next) (act' >>= next') s s' post' fail := by
  rw [Parallel] at h ⊢
  rw [run_bind_eq, run_bind_eq]
  revert h
  rcases act.run.run s with ⟨⟨e⟩ | ⟨a⟩, t⟩ <;>
    rcases act'.run.run s' with ⟨⟨e'⟩ | ⟨b⟩, t'⟩ <;> intro h
  · exact h
  · exact h.elim
  · exact h.elim
  · exact hnext a b t t' h

/-- The same check first. -/
theorem check {c : Prop} [Decidable c] {e : SyntaxError} (hfail : fail s s')
    (h : Parallel act act' s s' post fail) :
    Parallel (do if c then MonadExcept.throw e else Pure.pure PUnit.unit; act)
      (do if c then MonadExcept.throw e else Pure.pure PUnit.unit; act') s s' post fail := by
  split
  · exact ⟨rfl, hfail⟩
  · exact h

/-- A step that only one side takes. -/
theorem modify_bind {f : σ → σ} {next : PUnit → ExceptT SyntaxError (StateM σ) α}
    (h : Parallel (next ⟨⟩) act' (f s) s' post fail) :
    Parallel (modify f >>= next) act' s s' post fail := h

/-- A step that only one side takes, whatever the other one does before. -/
theorem finally_modify {f : σ → σ}
    (h : Parallel act act' s s' (fun a b t t' ↦ post a b (f t) t') fun t t' ↦ fail (f t) t') :
    Parallel (tryFinally act (modify f)) act' s s' post fail := by
  rw [Parallel] at h ⊢
  rw [run_finally_modify]
  revert h
  rcases act.run.run s with ⟨⟨e⟩ | ⟨a⟩, t⟩ <;>
    rcases act'.run.run s' with ⟨⟨e'⟩ | ⟨b⟩, t'⟩ <;> exact fun h ↦ h

end Parallel

/-! ### What the stack is for -/

/-- Whether a computation does to what is drawn as a reading does, with the same result, and leaves
the stack as it is. -/
abbrev Mirrors {α : Type} (act : StackReading α) (act' : Reading α) (scope : Scope)
    (s : ReadState) : Prop :=
  Parallel act act' ⟨scope, s⟩ s (fun a b t t' ↦ b = a ∧ t = ⟨scope, t'⟩) fun t t' ↦ t = ⟨scope, t'⟩

/-- To mirror is to run as the other does, with the stack as the scope in front and behind. -/
theorem mirrors_iff {α : Type} {act : StackReading α} {act' : Reading α} {scope : Scope}
    {s : ReadState} : Mirrors act act' scope s ↔
      act.run.run ⟨scope, s⟩ = ((act'.run.run s).1, ⟨scope, (act'.run.run s).2⟩) := by
  rw [Mirrors, Parallel]
  rcases act.run.run ⟨scope, s⟩ with ⟨⟨e⟩ | ⟨a⟩, t⟩ <;>
    rcases act'.run.run s with ⟨⟨e'⟩ | ⟨b⟩, t'⟩
  · exact ⟨fun ⟨he, ht⟩ ↦ by rw [he, ht], fun h ↦ by cases h; exact ⟨rfl, rfl⟩⟩
  · exact ⟨False.elim, nofun⟩
  · exact ⟨False.elim, nofun⟩
  · exact ⟨fun ⟨hb, ht⟩ ↦ by rw [hb, ht], fun h ↦ by cases h; exact ⟨rfl, rfl⟩⟩

namespace Mirrors

variable {α β : Type} {scope : Scope} {s : ReadState}

/-- Draws have nothing to do with the stack. -/
theorem draw (act : Reading α) : Mirrors (StackReading.draw act) act scope s :=
  mirrors_iff.2 rfl

/-- What mirrors part by part mirrors. -/
theorem bind {act : StackReading α} {act' : Reading α} {next : α → StackReading β}
    {next' : α → Reading β} (h : Mirrors act act' scope s)
    (hnext : ∀ a t, Mirrors (next a) (next' a) scope t) :
    Mirrors (act >>= next) (act' >>= next') scope s := by
  refine Parallel.bind h fun a b t t' hab ↦ ?_
  obtain ⟨rfl, rfl⟩ := hab
  exact hnext b t'

end Mirrors

namespace StackReading

variable {scope : Scope} {s : ReadState}

/-- Above a height is what was pushed since. -/
theorem drop_above (above scope : Scope) :
    (above ++ scope).drop ((above ++ scope).length - scope.length) = scope := by
  rw [List.length_append, Nat.add_sub_cancel, List.drop_left]

/-- What is pushed for names is what the reader adds to the scope for them. If one of them is not a
name, nothing stays on the stack. -/
theorem bindNames_parallel (above scope : Scope) (names : List SExpr) :
    Parallel (bindNames scope.length names) (Reading.bindNames (above ++ scope) names)
      ⟨above ++ scope, s⟩ s
      (fun vs p t t' ↦ ∃ new, p = (new ++ scope, vs) ∧ t = ⟨new ++ scope, t'⟩)
      fun t t' ↦ t = ⟨scope, t'⟩ := by
  induction names generalizing above s with
  | nil => exact .pure ⟨above, rfl, rfl⟩
  | cons x rest ih =>
    cases x with
    | word name position =>
      have hdraw : Parallel (draw (Reading.fresh name)) (Reading.fresh name) ⟨above ++ scope, s⟩ s
          (fun v w t t' ↦ w = v ∧ t = ⟨above ++ scope, t'⟩) fun t t' ↦ t = ⟨scope, t'⟩ := ⟨rfl, rfl⟩
      refine hdraw.bind ?_
      rintro v _ _ t ⟨rfl, rfl⟩
      refine Parallel.modify_bind ((ih ((name, _) :: above)).bind ?_)
      rintro vs _ _ t' ⟨new, rfl, rfl⟩
      exact .pure ⟨new, rfl, rfl⟩
    | quotation | list =>
      exact Parallel.modify_bind ⟨rfl, congrArg (StackState.mk · s) (drop_above above scope)⟩

/-- A body is read with the names of its binder on the stack, and they are gone behind it. -/
theorem binder_mirrors {names : List SExpr} {body : StackReading Expression}
    {body' : Scope → Reading Expression}
    (hbody : ∀ inner t, Mirrors body (body' inner) inner t) (kind : BinderKind) :
    Mirrors
      (do
        let height ← mark
        let vs ← bindNames height names
        let e ← try body finally restore height
        return Expression.binders kind vs e)
      (do
        let (inner, vs) ← Reading.bindNames scope names
        return Expression.binders kind vs (← body' inner)) scope s := by
  show Parallel (bindNames scope.length names >>= _) _ _ _ _ _
  refine (bindNames_parallel [] scope names).bind ?_
  rintro vs _ _ t ⟨new, rfl, rfl⟩
  have hbody : Parallel (try body finally restore scope.length) (body' (new ++ scope))
      ⟨new ++ scope, t⟩ t (fun a b t t' ↦ b = a ∧ t = ⟨scope, t'⟩) fun t t' ↦ t = ⟨scope, t'⟩ := by
    refine Parallel.finally_modify ((hbody (new ++ scope) t).imp ?_ ?_)
    · rintro a _ _ u ⟨rfl, rfl⟩
      exact ⟨rfl, congrArg (StackState.mk · u) (drop_above new scope)⟩
    · rintro _ u rfl
      exact congrArg (StackState.mk · u) (drop_above new scope)
  refine hbody.bind ?_
  rintro e _ _ u ⟨rfl, rfl⟩
  exact .pure ⟨rfl, rfl⟩

end StackReading

namespace SExpr

open Reading StackReading

/-- Items are read in turn, each with the stack that the list had. -/
theorem convertAll_mirrors {scope : Scope} {xs : List SExpr} {s : ReadState}
    (h : ∀ x ∈ xs, ∀ {t : ReadState}, Mirrors x.convert (x.read scope) scope t) :
    Mirrors (convertAll xs) (readAll scope xs) scope s := by
  induction xs generalizing s with
  | nil =>
    rw [convertAll, readAll]
    exact .pure ⟨rfl, rfl⟩
  | cons x rest ih =>
    obtain ⟨hx, hrest⟩ := List.forall_mem_cons.1 h
    rw [convertAll, readAll]
    exact Mirrors.bind hx fun a t ↦ Mirrors.bind (ih hrest) fun as u ↦ .pure ⟨rfl, rfl⟩

/-- **A reader with one stack of names reads the same, and leaves the stack as it was.** -/
theorem convert_mirrors (x : SExpr) {scope : Scope} {s : ReadState} :
    Mirrors x.convert (x.read scope) scope s := by
  induction x using formInduction generalizing scope s with
  | word text position =>
    rw [convert, read]
    exact .draw _
  | quotation contents position =>
    rw [convert, read]
    exact .pure ⟨rfl, rfl⟩
  | unit position =>
    rw [convert.eq_def, read_unit]
    exact .pure ⟨rfl, rfl⟩
  | binder position head vars body kind hkind ih =>
    rw [convert.eq_def, read_binder hkind]
    simp only [hkind]
    exact .check rfl (binder_mirrors (fun inner t ↦ ih) kind)
  | misshapen position head args kind hkind hargs =>
    rw [convert.eq_def, read_misshapen hkind hargs]
    simp only [hkind]
    split
    · exact absurd rfl hargs
    · exact .throw _ rfl
  | arrow position head args hhead ih =>
    have hkind : head.binderKind? = none := by rw [binderKind?, hhead]; rfl
    rw [convert.eq_def, read_arrow hhead]
    simp only [hkind, if_pos hhead]
    refine .check rfl (Mirrors.bind (convertAll_mirrors fun x hx _ ↦ ih x hx) fun parts t ↦ ?_)
    exact .pure ⟨rfl, rfl⟩
  | equation position head args hhead ih =>
    have hkind : head.binderKind? = none := by rw [binderKind?, hhead]; rfl
    have harrow : head.word? ≠ some "->" := by rw [hhead]; decide
    rw [convert.eq_def, read_equation hhead]
    simp only [hkind, if_neg harrow, if_pos hhead]
    rcases args with _ | ⟨left, _ | ⟨right, _ | ⟨_, _⟩⟩⟩
    · exact .throw _ rfl
    · exact .throw _ rfl
    · refine Mirrors.bind (ih left (by simp)) fun a t ↦ ?_
      exact Mirrors.bind (ih right (by simp)) fun b u ↦ .pure ⟨rfl, rfl⟩
    · exact .throw _ rfl
  | application position head args hhead ih =>
    rw [convert.eq_def, read_application hhead]
    have harrow : head.word? ≠ some "->" := hhead "->" (by decide)
    have hequal : head.word? ≠ some "=" := hhead "=" (by decide)
    simp only [binderKind?_eq_none hhead, if_neg harrow, if_neg hequal]
    exact Mirrors.bind (convertAll_mirrors fun x hx _ ↦ ih x hx) fun items t ↦ .pure ⟨rfl, rfl⟩

end SExpr

/-! ### What is drawn -/

namespace Expression

/-- The first hint of a free variable is one with which it occurs. -/
theorem mem_unbound_of_mem_freeVariables {e : Expression} {v : Variable}
    (h : v ∈ e.freeVariables) : v ∈ e.unbound [] := by
  have hinsert : ∀ (w : Variable) (vs : List Variable), v ∈ w.insertById vs → v = w ∨ v ∈ vs := by
    intro w vs
    fun_induction Variable.insertById w vs with
    | case1 => exact fun h ↦ .inl (List.mem_singleton.1 h)
    | case2 => exact List.mem_cons.1
    | case3 => exact .inr
    | case4 u rest _ _ ih =>
      rw [List.mem_cons, List.mem_cons]
      exact fun h ↦ h.elim (.inr ∘ .inl) fun h ↦ (ih h).imp_right .inr
  have hfold : ∀ vs acc : List Variable,
      v ∈ vs.foldl (fun vs w ↦ w.insertById vs) acc → v ∈ acc ∨ v ∈ vs := by
    intro vs
    induction vs with
    | nil => exact fun acc h ↦ .inl h
    | cons w rest ih =>
      intro acc h
      rcases ih _ h with h | h
      · rcases hinsert w acc h with rfl | h
        · exact .inr List.mem_cons_self
        · exact .inl h
      · exact .inr (List.mem_cons_of_mem w h)
  exact (hfold _ _ h).resolve_left List.not_mem_nil

end Expression

/-- Whether variables that occur unbound belong to a scope, and variables of binders are new: no two
are the same, and all are numbered from `n` on and below `m`. -/
structure Drawn (scope : Scope) (n : Nat) (unbound binders : List Variable) (m : Nat) : Prop where
  known : ∀ v ∈ unbound, v ∈ scope.variables
  distinct : (binders.map (·.id)).Nodup
  new : ∀ v ∈ binders, n ≤ v.id ∧ v.id < m

namespace Drawn

variable {scope : Scope} {n m k : Nat} {unbound unbound' binders binders' : List Variable}

/-- Variables of the scope were not drawn. -/
theorem of_known (h : ∀ v ∈ unbound, v ∈ scope.variables) : Drawn scope n unbound [] m :=
  ⟨h, .nil, nofun⟩

/-- What is drawn later is new for what was drawn before. -/
theorem append (h : Drawn scope n unbound binders m) (h' : Drawn scope m unbound' binders' k)
    (hnm : n ≤ m) (hmk : m ≤ k) :
    Drawn scope n (unbound ++ unbound') (binders ++ binders') k where
  known := List.forall_mem_append.2 ⟨h.known, h'.known⟩
  distinct := by
    rw [List.map_append, List.nodup_append]
    refine ⟨h.distinct, h'.distinct, fun a ha b hb ↦ ?_⟩
    obtain ⟨v, hv, rfl⟩ := List.mem_map.1 ha
    obtain ⟨w, hw, rfl⟩ := List.mem_map.1 hb
    exact Nat.ne_of_lt (Nat.lt_of_lt_of_le (h.new v hv).2 (h'.new w hw).1)
  new := List.forall_mem_append.2
    ⟨fun v hv ↦ ⟨(h.new v hv).1, Nat.lt_of_lt_of_le (h.new v hv).2 hmk⟩,
      fun v hv ↦ ⟨Nat.le_trans hnm (h'.new v hv).1, (h'.new v hv).2⟩⟩

end Drawn

/-- Whether an expression can have been read in a scope while the counter went from `n` to `m`. -/
abbrev Expression.DrawnIn (scope : Scope) (n m : Nat) (e : Expression) : Prop :=
  Drawn scope n (e.unbound []) e.binderVariables m

/-- The same for expressions that were read one after the other. -/
abbrev Expression.AllDrawnIn (scope : Scope) (n m : Nat) (es : List Expression) : Prop :=
  Drawn scope n (es.flatMap (unbound [])) (es.flatMap binderVariables) m

namespace Expression

variable {scope : Scope} {n m : Nat}

/-- The free variables of operands, one after the other. -/
theorem unboundIn_eq_flatMap (bound : List Variable) (es : List Expression) :
    unboundIn bound es = es.flatMap (unbound bound) := by
  induction es with
  | nil => rfl
  | cons e rest ih => rw [unboundIn, ih, List.flatMap_cons]

/-- An application draws what its parts draw. -/
theorem drawnIn_application {items : List Expression} (h : AllDrawnIn scope n m items) :
    (application items).DrawnIn scope n m := by
  rw [DrawnIn, unbound, unboundIn_eq_flatMap, binderVariables, binderVariablesIn_eq_flatMap]
  exact h

/-- A rule is made of its parts. -/
theorem drawnIn_rules {parts : List Expression} (hne : parts ≠ [])
    (h : AllDrawnIn scope n m parts) :
    (rules parts.dropLast (parts.getLastD default)).DrawnIn scope n m := by
  have hparts : (rules parts.dropLast (parts.getLastD default)).unbound [] =
        parts.flatMap (unbound []) ∧
      (rules parts.dropLast (parts.getLastD default)).binderVariables =
        parts.flatMap binderVariables := by
    clear h
    induction parts with
    | nil => exact absurd rfl hne
    | cons c rest ih =>
      rcases eq_or_ne rest [] with rfl | hrest
      · simp [rules]
      · rw [rules_cons_parts c hrest, unbound, binderVariables, (ih hrest).1, (ih hrest).2,
          List.flatMap_cons, List.flatMap_cons]
        exact ⟨rfl, rfl⟩
  rw [DrawnIn, hparts.1, hparts.2]
  exact h

/-- The variable of a binder is new, and known in its body alone. -/
theorem drawnIn_binder {name : String} {kind : BinderKind} {e : Expression}
    (h : e.DrawnIn ((name, ⟨name, n⟩) :: scope) (n + 1) m) (hnm : n < m) :
    (binder kind ⟨name, n⟩ e).DrawnIn scope n m where
  known := by
    intro v hv
    rw [unbound, unbound_eq_filter, List.mem_filter] at hv
    rcases List.mem_cons.1 (h.known v hv.1) with rfl | hv'
    · simp at hv
    · exact hv'
  distinct := by
    rw [binderVariables, List.map_cons, List.nodup_cons]
    refine ⟨fun hmem ↦ ?_, h.distinct⟩
    obtain ⟨v, hv, hid⟩ := List.mem_map.1 hmem
    exact Nat.ne_of_gt (h.new v hv).1 hid
  new := List.forall_mem_cons.2 ⟨⟨Nat.le_refl n, hnm⟩,
    fun v hv ↦ ⟨Nat.le_of_succ_le (h.new v hv).1, (h.new v hv).2⟩⟩

end Expression

namespace Reading

open Expression

variable {scope : Scope} {s : ReadState}

/-- A word draws nothing but a hole, which no binder binds. -/
theorem word_draws (text : String) (position : Position) :
    Reads (word scope text position) s fun e t ↦ e.DrawnIn scope s.next t.next := by
  unfold word
  split
  · refine .pure (.of_known (List.forall_mem_singleton.2 ?_))
    exact Scope.mem_variables_of_lookup? ‹_›
  · split
    · exact .throw _
    · exact (hole_reads _).bind fun v t _ _ ↦ .pure (.of_known nofun)
    · refine .pure ?_
      rw [Atom.ofWord_eq]
      cases Number.parse? text <;> exact .of_known nofun

/-- The variables that a binder draws are new if those of its body are. -/
theorem bindNames_draws (names : List SExpr) :
    Reads (bindNames scope names) s fun p t ↦ ∀ kind (e : Expression) {m : Nat}, t.next ≤ m →
      e.DrawnIn p.1 t.next m → (binders kind p.2 e).DrawnIn scope s.next m := by
  induction names generalizing scope s with
  | nil => exact .pure fun kind e m _ he ↦ he
  | cons x rest ih =>
    cases x with
    | word name position =>
      refine (fresh_draws name).bind fun v t _ hv ↦ ?_
      obtain ⟨rfl, hnext⟩ := hv
      refine ih.bind fun p u hle hp ↦ .pure fun kind e m hm he ↦ ?_
      have hrest := hp kind e hm he
      rw [hnext] at hle hrest
      exact drawnIn_binder hrest (Nat.lt_of_lt_of_le hle hm)
    | quotation | list => exact .throw _

end Reading

namespace SExpr

open Reading Expression

/-- Items draw in turn, so their variables are told apart by the counter. -/
theorem readAll_draws {scope : Scope} {xs : List SExpr} {s : ReadState}
    (h : ∀ x ∈ xs, ∀ {t : ReadState},
      Reads (x.read scope) t fun e u ↦ e.DrawnIn scope t.next u.next) :
    Reads (readAll scope xs) s fun es t ↦
      es.length = xs.length ∧ AllDrawnIn scope s.next t.next es := by
  induction xs generalizing s with
  | nil =>
    rw [readAll]
    exact .pure ⟨rfl, .of_known (List.forall_mem_nil _)⟩
  | cons x rest ih =>
    obtain ⟨hx, hrest⟩ := List.forall_mem_cons.1 h
    rw [readAll]
    refine hx.bind fun a t hle ha ↦ (ih hrest).bind fun as u hle' has ↦ .pure ?_
    exact ⟨congrArg (· + 1) has.1, ha.append has.2 hle hle'⟩

/-- **What is read has variables of the scope, and new ones that it binds.** -/
theorem read_draws (x : SExpr) {scope : Scope} {s : ReadState} :
    Reads (x.read scope) s fun e t ↦ e.DrawnIn scope s.next t.next := by
  induction x using formInduction generalizing scope s with
  | word text position =>
    rw [read]
    exact word_draws text position
  | quotation contents position =>
    rw [read]
    exact .pure (.of_known (List.forall_mem_nil _))
  | unit position =>
    rw [read_unit]
    exact .pure (.of_known (List.forall_mem_nil _))
  | binder position head vars body kind hkind ih =>
    rw [read_binder hkind]
    split
    · exact .throw_bind _
    · refine (bindNames_draws (binderNames vars)).bind fun p t _ hp ↦ ?_
      exact ih.bind fun e u hle he ↦ .pure (hp kind e hle he)
  | misshapen position head args kind hkind hargs =>
    rw [read_misshapen hkind hargs]
    exact .throw _
  | arrow position head args hhead ih =>
    rw [read_arrow hhead]
    split
    · exact .throw_bind _
    · rename_i hargs
      refine (readAll_draws fun x hx _ ↦ ih x hx).bind fun parts t _ hparts ↦ .pure ?_
      refine drawnIn_rules (fun hnil ↦ ?_) hparts.2
      rw [hnil] at hparts
      exact hargs (hparts.1 ▸ Nat.zero_lt_two)
  | equation position head args hhead ih =>
    rw [read_equation hhead]
    split
    · rename_i left right
      refine (ih left (by simp)).bind fun a t hle ha ↦ ?_
      exact (ih right (by simp)).bind fun b u hle' hb ↦ .pure (ha.append hb hle hle')
    · exact .throw _
  | application position head args hhead ih =>
    rw [read_application hhead]
    refine (readAll_draws fun x hx _ ↦ ih x hx).bind fun items t _ hitems ↦ .pure ?_
    exact drawnIn_application hitems.2

end SExpr

end NaturalDeduction
