import NaturalDeduction.Deduction.Basic
import NaturalDeduction.Proofs.Calculus

/-!
# What establishes an entry

An entry of a deduction is established by its justification together with what was there before it:
the older entries of its deduction, and the entries of the deductions around it. So the entries of
all open deductions are listed as a *stack*: one list for each deduction, the innermost first, and
each list newest first.

That order is the whole point. An entry that is established stays established when newer ones are
forgotten, whatever they were, because `Established` only ever looks to the older side.

The justification by a finished deduction has a condition on parameters, as universal introduction
does: no supposition that remains open may mention them. Suppositions of the outermost deduction can
be left out of this. They are then *axiomatic*, which is right if they hold for all values of their
variables.

Main statement: `Established.derivable`. If no suppositions are axiomatic, whatever is established
is derivable from the suppositions on its stack.

Main definitions:

* `visible`, `assumed`: the statements of a stack, and those that are supposed.
* `Infers`: one inference from statements that are known, with its justification.
* `Established`: the entries of one deduction, on the stack of those around it.
-/

namespace NaturalDeduction

/-! ### Stacks of entries -/

/-- The statements of all entries. -/
def visible (stack : List (List Entry)) : List Expression := stack.flatten.map (·.statement)

/-- The suppositions, except for those of the outermost deduction if they are axiomatic. -/
def assumed (axiomatic : Bool) (stack : List (List Entry)) : List Expression :=
  ((if axiomatic then stack.dropLast else stack).flatten.filter (·.isCondition)).map (·.statement)

/-- Whether no open supposition mentions one of the parameters. -/
def Unmentioned (axiomatic : Bool) (parameters : List Variable) (stack : List (List Entry)) :
    Prop :=
  ∀ p ∈ parameters, ∀ e ∈ assumed axiomatic stack, e.occursFree p = false

section

variable {axiomatic : Bool} {es : List Entry} {stack stack' : List (List Entry)}

/-- What is visible is in the first list or behind it. -/
theorem mem_visible_cons {x : Expression} :
    x ∈ visible (es :: stack) ↔ (∃ e ∈ es, e.statement = x) ∨ x ∈ visible stack := by
  simp only [visible, List.flatten_cons, List.map_append, List.mem_append, List.mem_map]

theorem visible_cons_cons (e : Entry) (es : List Entry) (stack : List (List Entry)) :
    visible ((e :: es) :: stack) = e.statement :: visible (es :: stack) := rfl

/-- Suppositions are visible. -/
theorem assumed_subset_visible : assumed axiomatic stack ⊆ visible stack := by
  intro x hx
  obtain ⟨e, he, rfl⟩ := List.mem_map.1 hx
  obtain ⟨es, hes, he⟩ := List.mem_flatten.1 (List.mem_filter.1 he).1
  refine List.mem_map.2 ⟨e, List.mem_flatten.2 ⟨es, ?_, he⟩, rfl⟩
  split at hes
  · exact List.dropLast_subset _ hes
  · exact hes

/-- The suppositions of the outermost list are left out if they are axiomatic. -/
theorem mem_assumed_cons {x : Expression} :
    x ∈ assumed axiomatic (es :: stack) ↔
      (axiomatic = true → stack ≠ []) ∧ (∃ e ∈ es, e.isCondition = true ∧ e.statement = x) ∨
        x ∈ assumed axiomatic stack := by
  cases axiomatic with
  | false => simp [assumed, and_assoc]
  | true =>
    cases stack with
    | nil => simp [assumed]
    | cons es' stack => simp [assumed, and_assoc]

/-- One more entry takes nothing out of what is assumed. -/
theorem assumed_cons_cons_subset (e : Entry) :
    assumed axiomatic (es :: stack) ⊆ assumed axiomatic ((e :: es) :: stack) := by
  intro x hx
  refine mem_assumed_cons.2 ((mem_assumed_cons.1 hx).imp_left fun ⟨hstack, e', he', h⟩ ↦ ?_)
  exact ⟨hstack, e', List.mem_cons_of_mem e he', h⟩

/-- One stack shows what the other one shows, and assumes no more. -/
structure Extends (axiomatic : Bool) (stack stack' : List (List Entry)) : Prop where
  length : stack.length = stack'.length
  visible : visible stack ⊆ visible stack'
  assumed : assumed axiomatic stack' ⊆ assumed axiomatic stack

/-- What extends a stack does so behind a further list. -/
theorem Extends.cons (h : Extends axiomatic stack stack') (es : List Entry) :
    Extends axiomatic (es :: stack) (es :: stack') := by
  refine ⟨by simp [h.length], fun x hx ↦ ?_, fun x hx ↦ ?_⟩
  · exact mem_visible_cons.2 ((mem_visible_cons.1 hx).imp_right fun hx ↦ h.visible hx)
  · refine mem_assumed_cons.2 ((mem_assumed_cons.1 hx).imp (fun ⟨hstack, he⟩ ↦ ?_)
      fun hx ↦ h.assumed hx)
    refine ⟨fun haxiomatic hnil ↦ hstack haxiomatic ?_, he⟩
    exact List.eq_nil_of_length_eq_zero (h.length ▸ congrArg List.length hnil)

/-- A condition on parameters carries over, as an extended stack assumes nothing new. -/
theorem Unmentioned.extends {parameters : List Variable}
    (h : Unmentioned axiomatic parameters stack) (hext : Extends axiomatic stack stack') :
    Unmentioned axiomatic parameters stack' :=
  fun p hp e he ↦ h p hp e (hext.assumed he)

end

/-! ### Inferences -/

/-- What follows from known statements in one step, and the justification for it. -/
inductive Infers (known : List Expression) : Expression → Justification → Prop
  | detachment {a b c : Expression} (rule condition : String) (hrule : .implies a c ∈ known)
      (hcondition : b ∈ known) (h : a.alphaEq b = true) :
      Infers known c (.detachment rule condition)
  | specialization {v : Variable} {body result : Expression} (target : String) (value : Expression)
      (htarget : .binder .universal v body ∈ known)
      (h : result.nameless = (body.namelessIn [v.id]).instantiateAt value.nameless 0) :
      Infers known result (.specialization target value)
  | replacement {target result : Expression} {replacements : List Replacement}
      {chosen : Occurrences}
      (h : result.nameless =
        (target.nameless.replace chosen (replacements.map Replacement.forms) 0).1) :
      Infers known (.equals (target.recorded replacements chosen) result)
        (.replacement target replacements chosen)
  | verification {e : Expression} {holds : Bool} (h : e.evaluate = .ok holds) :
      Infers known (Inference.verdict e holds) (.verification e holds)

/-- Inferences need what they name to be there, and are not disturbed by more. -/
theorem Infers.mono {known known' : List Expression} {e : Expression} {j : Justification}
    (h : Infers known e j) (hsub : known ⊆ known') : Infers known' e j := by
  cases h with
  | detachment rule condition hrule hcondition h =>
    exact .detachment rule condition (hsub hrule) (hsub hcondition) h
  | specialization target value htarget h => exact .specialization target value (hsub htarget) h
  | replacement h => exact .replacement h
  | verification h => exact .verification h

/-- An inference is no supposition. -/
theorem Infers.isSupposition_eq_false {known : List Expression} {e : Expression} {j : Justification}
    (h : Infers known e j) : j.isSupposition = false := by
  cases h <;> rfl

/-- Each entry of a deduction is established by what is older, in the deductions `outer` around
it. -/
inductive Established (axiomatic : Bool) : List (List Entry) → List Entry → Prop
  | nil {outer : List (List Entry)} : Established axiomatic outer []
  | supposition {outer : List (List Entry)} {es : List Entry}
    (older : Established axiomatic outer es)
      (name : String) (e : Expression) :
      Established axiomatic outer (⟨name, e, .supposition⟩ :: es)
  | inference {outer : List (List Entry)} {es : List Entry} {e : Expression} {j : Justification}
      (older : Established axiomatic outer es) (h : Infers (visible (es :: outer)) e j)
      (name : String) : Established axiomatic outer (⟨name, e, j⟩ :: es)
  /-- The closed theorem of a deduction that was finished inside this one. -/
  | deduction {outer : List (List Entry)} {es : List Entry} {d : Deduction} {e : Expression}
      (older : Established axiomatic outer es)
      (inner : Established axiomatic (es :: outer) d.entries)
      (hfree : Unmentioned axiomatic d.parameters (es :: outer)) (h : d.closedTheorem? = some e)
      (name : String) : Established axiomatic outer (⟨name, e, .deduction d⟩ :: es)

namespace Established

variable {axiomatic : Bool} {outer outer' : List (List Entry)} {es : List Entry}

/-- The newest entry can be forgotten. -/
theorem tail {e : Entry} (h : Established axiomatic outer (e :: es)) :
    Established axiomatic outer es := by
  cases h with
  | supposition older => exact older
  | inference older => exact older
  | deduction older => exact older

/-- Any number of entries may be forgotten, as rolling back does. -/
theorem drop (h : Established axiomatic outer es) (n : Nat) :
    Established axiomatic outer (es.drop n) := by
  induction n generalizing es with
  | zero => exact h
  | succ n ih =>
    cases es with
    | nil => exact .nil
    | cons e es => exact ih h.tail

/-- The deductions around may come to show more, as long as they assume no more. -/
theorem extend (h : Established axiomatic outer es) (hext : Extends axiomatic outer outer') :
    Established axiomatic outer' es := by
  induction h generalizing outer' with
  | nil => exact .nil
  | supposition _ name e ih => exact .supposition (ih hext) name e
  | inference _ h name ih => exact .inference (ih hext) (h.mono (hext.cons _).visible) name
  | deduction _ _ hfree h name ih ihinner =>
    exact .deduction (ih hext) (ihinner (hext.cons _)) (hfree.extends (hext.cons _)) h name

end Established

/-! ### From established to derivable -/

open Nameless

/-- The forms of all suppositions. -/
def assumptions (stack : List (List Entry)) : List Nameless :=
  (assumed false stack).map Expression.nameless

/-- An inference from derivable statements has a derivable conclusion. -/
theorem Infers.derivable {known : List Expression} {e : Expression} {j : Justification}
    {Γ : List Nameless} (h : Infers known e j) (hknown : ∀ a ∈ known, DerivableFrom Γ a.nameless) :
    DerivableFrom Γ e.nameless := by
  cases h with
  | @detachment a b _ rule condition hrule hcondition h =>
    have ha : DerivableFrom Γ a.nameless := by
      rw [Expression.alphaEq_iff.1 h]
      exact hknown b hcondition
    exact DerivableFrom.detachment (hknown _ hrule) ha
  | specialization target value htarget h =>
    rw [h]
    exact (hknown _ htarget).specialization value
  | @replacement target result replacements chosen h =>
    refine ⟨[], List.nil_subset _, ?_⟩
    rw [Expression.nameless_equals, h]
    exact .replacement target replacements chosen
  | verification h => exact ⟨[], List.nil_subset _, .verification h⟩

/-- The closed theorem of a deduction is derivable from what is assumed around it. -/
theorem derivable_closedTheorem {d : Deduction} {e : Expression} {stack : List (List Entry)}
    (h : d.closedTheorem? = some e) (hfree : Unmentioned false d.parameters stack)
    (hentries : ∀ a ∈ d.entries,
      DerivableFrom (assumptions (d.entries :: stack)) a.statement.nameless) :
    DerivableFrom (assumptions stack) e.nameless := by
  obtain ⟨last, hlast, rfl⟩ := Option.map_eq_some_iff.1 h
  refine DerivableFrom.alls (DerivableFrom.rules ((hentries last ?_).mono ?_)) ?_
  · exact List.mem_of_find?_eq_some hlast
  · intro t ht
    obtain ⟨a, ha, rfl⟩ := List.mem_map.1 ht
    rcases mem_assumed_cons.1 ha with ⟨-, e, he, hcondition, rfl⟩ | ha
    · refine List.mem_append_left _ (List.mem_map_of_mem (List.mem_reverse.2 ?_))
      exact List.mem_map_of_mem (List.mem_filter.2 ⟨he, hcondition⟩)
    · exact List.mem_append_right _ (List.mem_map_of_mem ha)
  · intro p hp t ht
    obtain ⟨a, ha, rfl⟩ := List.mem_map.1 ht
    rw [Expression.occurs_nameless]
    exact hfree p hp a ha

/-- **What is established is derivable.** An entry that is established by what is older follows, in
the calculus, from the suppositions of its own deduction and of those around it. -/
theorem Established.derivable {outer : List (List Entry)} {es : List Entry}
    (h : Established false outer es)
    (houter : ∀ a ∈ visible outer, DerivableFrom (assumptions outer) a.nameless) :
    ∀ a ∈ visible (es :: outer), DerivableFrom (assumptions (es :: outer)) a.nameless := by
  -- what was derivable before an entry is derivable after it
  have hgrow : ∀ (e : Entry) (es : List Entry) (outer : List (List Entry)),
      assumptions (es :: outer) ⊆ assumptions ((e :: es) :: outer) := fun e es outer ↦
    List.map_subset _ (assumed_cons_cons_subset e)
  induction h with
  | nil =>
    intro a ha
    refine (houter a ((mem_visible_cons.1 ha).resolve_left (by simp))).mono ?_
    exact List.map_subset _ fun x hx ↦ mem_assumed_cons.2 (.inr hx)
  | supposition _ name e ih =>
    intro a ha
    rcases List.mem_cons.1 (visible_cons_cons _ _ _ ▸ ha) with rfl | ha
    · refine DerivableFrom.of_mem (List.mem_map_of_mem (mem_assumed_cons.2 (.inl ⟨by simp, ?_⟩)))
      exact ⟨_, List.mem_cons_self, rfl, rfl⟩
    · exact (ih houter a ha).mono (hgrow _ _ _)
  | inference _ h name ih =>
    intro a ha
    rcases List.mem_cons.1 (visible_cons_cons _ _ _ ▸ ha) with rfl | ha
    · exact (h.derivable (ih houter)).mono (hgrow _ _ _)
    · exact (ih houter a ha).mono (hgrow _ _ _)
  | deduction _ _ hfree h name ih ihinner =>
    intro a ha
    rcases List.mem_cons.1 (visible_cons_cons _ _ _ ▸ ha) with rfl | ha
    · refine (derivable_closedTheorem h hfree fun b hb ↦ ?_).mono (hgrow _ _ _)
      exact ihinner (ih houter) _ (mem_visible_cons.2 (.inl ⟨b, hb, rfl⟩))
    · exact (ih houter a ha).mono (hgrow _ _ _)

end NaturalDeduction
