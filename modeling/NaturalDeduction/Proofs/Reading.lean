import NaturalDeduction.Proofs.Acts
import NaturalDeduction.Proofs.Forms

/-!
# What is read is below the counter

A reading draws a variable for each name that a binder binds and for each hole, and takes other
variables from the scope. So an expression that is read in a scope below the counter is below the
counter where the reading ends, and the counter has moved only forwards (`SExpr.read_reads`).

Other modules use it in two ways. Expressions that scripts read mention only variables below the
counter of the session, which is what every operation of the kernel asks of its arguments. And what
is read from one text cannot capture what was read from another.

Main statement: `SExpr.read_reads`, by the induction over the forms of a list.
-/

namespace NaturalDeduction

/-- Whether all variables of a scope are numbered below `n`. -/
def Scope.Below (n : Nat) (scope : Scope) : Prop := ∀ p ∈ scope, p.2.id < n

/-- A counter that moves on leaves the scope below it. -/
theorem Scope.Below.mono {scope : Scope} {n m : Nat} (h : scope.Below n) (hnm : n ≤ m) :
    scope.Below m := fun p hp ↦ Nat.lt_of_lt_of_le (h p hp) hnm

/-- What is found in a scope is one of its variables. -/
theorem Scope.Below.lookup? {scope : Scope} {n : Nat} (h : scope.Below n) {name : String}
    {v : Variable} (hv : scope.lookup? name = some v) : v.id < n := by
  obtain ⟨p, hp, rfl⟩ := Option.map_eq_some_iff.1 hv
  exact h p (List.mem_of_find?_eq_some hp)

/-- Whether a reading moves the counter only forwards, and has only results that satisfy `post`. -/
def Reads {α : Type} (act : Reading α) (s : ReadState) (post : α → ReadState → Prop) : Prop :=
  s.next ≤ (act.run.run s).2.next ∧
    ∀ a, (act.run.run s).1 = .ok a → post a (act.run.run s).2

namespace Reads

variable {α β : Type} {s : ReadState}

theorem pure {a : α} {post : α → ReadState → Prop} (h : post a s) :
    Reads (Pure.pure a) s post := by
  refine ⟨Nat.le_refl _, fun b hb ↦ ?_⟩
  cases hb
  exact h

theorem throw {post : α → ReadState → Prop} (e : SyntaxError) :
    Reads (MonadExcept.throw e : Reading α) s post :=
  ⟨Nat.le_refl _, fun b hb ↦ by cases hb⟩

theorem throw_bind {next : α → Reading β} {post : β → ReadState → Prop} (e : SyntaxError) :
    Reads (MonadExcept.throw e >>= next) s post :=
  ⟨Nat.le_refl _, fun b hb ↦ by cases hb⟩

/-- Readings in turn: the second one starts where the first ended, with a counter that has not gone
back. -/
theorem bind {act : Reading α} {next : α → Reading β} {post : α → ReadState → Prop}
    {post' : β → ReadState → Prop} (h : Reads act s post)
    (hnext : ∀ a t, s.next ≤ t.next → post a t → Reads (next a) t post') :
    Reads (act >>= next) s post' := by
  obtain ⟨hle, hpost⟩ := h
  rw [Reads, run_bind_eq]
  revert hle hpost
  rcases act.run.run s with ⟨⟨e⟩ | ⟨a⟩, t⟩ <;> intro hle hpost
  · exact ⟨hle, fun b hb ↦ by cases hb⟩
  · obtain ⟨hle', hpost'⟩ := hnext a t hle (hpost a rfl)
    exact ⟨Nat.le_trans hle hle', hpost'⟩

/-- The state may be looked at. -/
theorem get_bind {next : ReadState → Reading β} {post : β → ReadState → Prop}
    (h : Reads (next s) s post) : Reads (MonadState.get >>= next) s post := h

end Reads

namespace Reading

variable {s : ReadState}

/-- A variable that is drawn is below the counter behind it. -/
theorem fresh_reads (hint : String) : Reads (fresh hint) s fun v t ↦ v.id < t.next := by
  refine ⟨Nat.le_succ _, fun v hv ↦ ?_⟩
  cases hv
  exact Nat.lt_succ_self _

/-- Holes are numbered apart and bound by nothing. -/
theorem hole_reads (name : String) : Reads (hole name) s fun _ _ ↦ True := by
  refine .get_bind ?_
  split
  · exact .pure trivial
  · refine (fresh_reads name).bind fun v t _ _ ↦ ?_
    exact ⟨Nat.le_refl _, fun _ _ ↦ trivial⟩

/-- A word is a variable of the scope, a hole, or an atom without variables. -/
theorem word_reads {scope : Scope} (hscope : scope.Below s.next) (text : String)
    (position : Position) : Reads (word scope text position) s fun e t ↦ e.Below t.next := by
  unfold word
  split
  · exact .pure (hscope.lookup? ‹_›)
  · split
    · exact .throw _
    · exact (hole_reads _).bind fun v t _ _ ↦ .pure trivial
    · refine .pure ?_
      unfold Atom.ofWord
      dsimp only
      split <;> trivial

/-- Each name gets a variable of its own, and the scope grows by these. -/
theorem bindNames_reads {scope : Scope} (hscope : scope.Below s.next) (names : List SExpr) :
    Reads (bindNames scope names) s fun p t ↦ p.1.Below t.next ∧ ∀ v ∈ p.2, v.id < t.next := by
  induction names generalizing scope s with
  | nil => exact .pure ⟨hscope, fun v hv ↦ absurd hv List.not_mem_nil⟩
  | cons e rest ih =>
    cases e with
    | word name position =>
      refine (fresh_reads name).bind fun v t hle hv ↦ ?_
      have hinner : Scope.Below t.next ((name, v) :: scope) :=
        List.forall_mem_cons.2 ⟨hv, hscope.mono hle⟩
      refine (ih hinner).bind fun p u hle' hp ↦ .pure ⟨hp.1, ?_⟩
      exact List.forall_mem_cons.2 ⟨Nat.lt_of_lt_of_le hv hle', hp.2⟩
    | quotation | list => exact .throw _

end Reading

/-- A row of binders is below the counter if its variables and its body are. -/
theorem Expression.binders_below {kind : BinderKind} {vs : List Variable} {e : Expression} {n : Nat}
    (hvs : ∀ v ∈ vs, v.id < n) (he : e.Below n) : (binders kind vs e).Below n := by
  induction vs with
  | nil => exact he
  | cons v rest ih =>
    obtain ⟨hv, hrest⟩ := List.forall_mem_cons.1 hvs
    exact ⟨hv, ih hrest⟩

theorem Expression.rules_of_parts_below {parts : List Expression} {n : Nat}
    (h : ∀ e ∈ parts, e.Below n) : (rules parts.dropLast (parts.getLastD default)).Below n := by
  rcases List.eq_nil_or_concat parts with rfl | ⟨init, last, rfl⟩
  · trivial
  · rw [List.concat_eq_append] at h ⊢
    obtain ⟨hinit, hlast⟩ := List.forall_mem_append.1 h
    rw [List.dropLast_concat, List.getLastD_concat]
    exact rules_below hinit (hlast last List.mem_cons_self)

namespace SExpr

open Reading

/-- Items are read in turn, in one scope. -/
theorem readAll_reads {scope : Scope} {es : List SExpr} {s : ReadState}
    (hscope : scope.Below s.next)
    (h : ∀ e ∈ es, ∀ {t : ReadState}, scope.Below t.next →
      Reads (e.read scope) t fun result u ↦ result.Below u.next) :
    Reads (readAll scope es) s fun results t ↦ ∀ e ∈ results, e.Below t.next := by
  induction es generalizing s with
  | nil =>
    rw [readAll]
    exact .pure fun e he ↦ absurd he List.not_mem_nil
  | cons e rest ih =>
    obtain ⟨he, hrest⟩ := List.forall_mem_cons.1 h
    rw [readAll]
    refine (he hscope).bind fun a t hle ha ↦ ?_
    refine (ih (hscope.mono hle) hrest).bind fun as u hle' has ↦ .pure ?_
    exact List.forall_mem_cons.2 ⟨ha.mono hle', has⟩

/-- **What is read is below the counter.** -/
theorem read_reads {scope : Scope} (e : SExpr) {s : ReadState} (hscope : scope.Below s.next) :
    Reads (e.read scope) s fun result t ↦ result.Below t.next := by
  induction e using formInduction generalizing scope s with
  | word text position =>
    rw [read]
    exact word_reads hscope text position
  | quotation contents position =>
    rw [read]
    exact .pure trivial
  | unit position =>
    rw [read_unit]
    exact .pure trivial
  | binder position head vars body kind hkind ih =>
    rw [read_binder hkind]
    split
    · exact .throw_bind _
    · refine (bindNames_reads hscope (binderNames vars)).bind fun p t hle hp ↦ ?_
      refine (ih hp.1).bind fun e u hle' he ↦ .pure ?_
      exact Expression.binders_below (fun v hv ↦ Nat.lt_of_lt_of_le (hp.2 v hv) hle') he
  | misshapen position head args kind hkind hargs =>
    rw [read_misshapen hkind hargs]
    exact .throw _
  | arrow position head args hhead ih =>
    rw [read_arrow hhead]
    split
    · exact .throw_bind _
    · refine (readAll_reads hscope fun e he ↦ ih e he).bind fun parts t hle hparts ↦ .pure ?_
      exact Expression.rules_of_parts_below hparts
  | equation position head args hhead ih =>
    rw [read_equation hhead]
    split
    · rename_i left right
      refine (ih left (by simp) hscope).bind fun a t hle ha ↦ ?_
      refine (ih right (by simp) (hscope.mono hle)).bind fun b u hle' hb ↦ .pure ?_
      exact ⟨ha.mono hle', hb⟩
    · exact .throw _
  | application position head args hhead ih =>
    rw [read_application hhead]
    refine (readAll_reads hscope fun e he ↦ ih e he).bind fun items t hle hitems ↦ .pure ?_
    exact Expression.allBelow_iff.2 hitems

end SExpr

end NaturalDeduction
