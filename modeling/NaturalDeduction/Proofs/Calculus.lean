import NaturalDeduction.Inference
import NaturalDeduction.Proofs.Replacement

/-!
# The calculus of natural deduction

Derivability between nameless forms, with seven rules: assumption, detachment, specialization of a
universal quantifier, the equation between the record of a replacement and its result, the decision
of a ground statement, implication introduction, and universal introduction.

A derivation carries the list of its *open* assumptions, and only these count for the condition on
the variable of universal introduction. So weakening is no rule: a statement is derivable from a
list of statements if it has a derivation whose open assumptions are among them
(`DerivableFrom`).

A quantifier is opened by `Nameless.instantiateAt` and closed by `Nameless.abstractAt`. These are
what replacing a variable and binding a variable come to on forms: see `nameless_all` and
`replace_free_eq_instantiateAt`.

Main definitions and statements:

* `Nameless.instantiateAt`, `Nameless.abstractAt`: opening and closing the outermost quantifier.
* `Nameless.Derives`: derivations with their open assumptions.
* `DerivableFrom.rules`, `DerivableFrom.alls`: what closing a deduction does, conditions and
  parameters.
-/

namespace NaturalDeduction

namespace Nameless

/-! ### Opening and closing binders -/

mutual

/-- Puts `u`, which has no index that points outside, for the index that points past `depth`
binders. -/
def instantiateAt : Nameless → (u : Nameless) → (depth : Nat) → Nameless
  | bound index, u, depth => if index = depth then u else bound index
  | binder kind body, u, depth => binder kind (instantiateAt body u (depth + 1))
  | implies a b, u, depth => implies (instantiateAt a u depth) (instantiateAt b u depth)
  | equals a b, u, depth => equals (instantiateAt a u depth) (instantiateAt b u depth)
  | application items, u, depth => application (instantiateAllAt items u depth)
  | t, _, _ => t

/-- The same for a list of forms. -/
def instantiateAllAt : List Nameless → (u : Nameless) → (depth : Nat) → List Nameless
  | [], _, _ => []
  | t :: rest, u, depth => instantiateAt t u depth :: instantiateAllAt rest u depth

end

mutual

/-- Puts the index that points past `depth` binders for the free variable with a number. -/
def abstractAt (id depth : Nat) : Nameless → Nameless
  | free i => if i = id then bound depth else free i
  | binder kind body => binder kind (abstractAt id (depth + 1) body)
  | implies a b => implies (abstractAt id depth a) (abstractAt id depth b)
  | equals a b => equals (abstractAt id depth a) (abstractAt id depth b)
  | application items => application (abstractAllAt id depth items)
  | t => t

/-- The same for a list of forms. -/
def abstractAllAt (id depth : Nat) : List Nameless → List Nameless
  | [] => []
  | t :: rest => abstractAt id depth t :: abstractAllAt id depth rest

end

/-- The mutual definition goes through a list item by item. -/
theorem instantiateAllAt_eq_map (ts : List Nameless) (u : Nameless) (depth : Nat) :
    instantiateAllAt ts u depth = ts.map (·.instantiateAt u depth) := by
  induction ts with
  | nil => rfl
  | cons t rest ih => rw [instantiateAllAt, ih, List.map_cons]

/-- So it does for closing. -/
theorem abstractAllAt_eq_map (id depth : Nat) (ts : List Nameless) :
    abstractAllAt id depth ts = ts.map (abstractAt id depth) := by
  induction ts with
  | nil => rfl
  | cons t rest ih => rw [abstractAllAt, ih, List.map_cons]

end Nameless

namespace Expression

/-- Binding one more variable outside a scope. -/
theorem resolve_append_singleton (scope : List Nat) (x id : Nat) :
    resolve (scope ++ [x]) id = (resolve scope id).abstractAt x scope.length := by
  have happend : (scope ++ [x]).idxOf? id =
      (scope.idxOf? id).or (([x].idxOf? id).map (· + scope.length)) := List.findIdx?_append
  rw [resolve, resolve, happend, List.idxOf?_singleton]
  cases scope.idxOf? id with
  | some index => rfl
  | none =>
    by_cases hx : id = x
    · simp [Nameless.abstractAt, hx]
    · simp [Nameless.abstractAt, hx, Ne.symm hx]

/-- A variable that was bound by the outermost quantifier of a scope is the one that opening it puts
the value for. -/
theorem instantiateAt_resolve_append_singleton (u : Nameless) (scope : List Nat) (x id : Nat) :
    (resolve (scope ++ [x]) id).instantiateAt u scope.length =
      if resolve scope id = .free x then u else resolve scope id := by
  rw [resolve_append_singleton, resolve]
  cases h : scope.idxOf? id with
  | some index =>
    obtain ⟨hindex, -⟩ := List.idxOf?_eq_some_iff.1 h
    simp [Nameless.abstractAt, Nameless.instantiateAt, Nat.ne_of_lt hindex]
  | none =>
    by_cases hx : id = x
    · simp [Nameless.abstractAt, Nameless.instantiateAt, hx]
    · simp [Nameless.abstractAt, Nameless.instantiateAt, hx]

/-- Binding a variable outside a scope abstracts it in the form. -/
theorem namelessIn_append_singleton (e : Expression) (scope : List Nat) (x : Nat) :
    e.namelessIn (scope ++ [x]) = (e.namelessIn scope).abstractAt x scope.length := by
  induction e generalizing scope with
  | atom a =>
    cases a with
    | var v => exact resolve_append_singleton scope x v.id
    | _ => rfl
  | binder kind v body ih =>
    simpa [namelessIn, Nameless.abstractAt] using ih (v.id :: scope)
  | implies a b iha ihb | equals a b iha ihb =>
    rw [namelessIn, namelessIn, Nameless.abstractAt, iha, ihb]
  | application items ih =>
    rw [namelessIn, namelessIn, Nameless.abstractAt, Nameless.abstractAllAt_eq_map,
      namelessAllIn_eq_map, namelessAllIn_eq_map, List.map_map]
    exact congrArg _ (List.map_congr_left fun e he ↦ ih e he scope)

/-- A quantification has the form of its body with the variable abstracted. -/
theorem nameless_all (v : Variable) (body : Expression) :
    (all v body).nameless = .binder .universal (body.nameless.abstractAt v.id 0) := by
  show Nameless.binder .universal (body.namelessIn ([] ++ [v.id])) = _
  rw [namelessIn_append_singleton]
  rfl

theorem nameless_implies (a b : Expression) :
    (implies a b).nameless = .implies a.nameless b.nameless := rfl

theorem nameless_equals (a b : Expression) :
    (equals a b).nameless = .equals a.nameless b.nameless := rfl

/-- Replacing a variable everywhere is opening the binder that abstracts it. -/
theorem replace_free_eq_instantiateAt (e : Expression) (u : Nameless) (scope : List Nat)
    (x i : Nat) :
    ((e.namelessIn scope).replace .all [(.free x, u)] i).1 =
      (e.namelessIn (scope ++ [x])).instantiateAt u scope.length := by
  induction e generalizing scope i with
  | atom a =>
    cases a with
    | var v =>
      rw [namelessIn, namelessIn, instantiateAt_resolve_append_singleton, Nameless.replace_node]
      by_cases hfree : resolve scope v.id = .free x
      · simp [hfree]
      · obtain ⟨index, hv⟩ | hv := resolve_eq_bound_or_free scope v.id
        · simp [hv]
        · have hx : x ≠ v.id := fun h ↦ hfree (h ▸ hv)
          simp [hv, hx, Ne.symm hx]
    | _ => rfl
  -- the binder may hide the variable: then it resolves to the binder on both sides
  | binder kind v body ih => exact congrArg (Nameless.binder kind) (ih (v.id :: scope) i)
  | implies a b iha ihb => exact congrArg₂ Nameless.implies (iha scope _) (ihb scope _)
  | equals a b iha ihb => exact congrArg₂ Nameless.equals (iha scope _) (ihb scope _)
  | application items ih =>
    refine congrArg Nameless.application ?_
    induction items generalizing i with
    | nil => rfl
    | cons e rest ih' =>
      refine congrArg₂ List.cons (ih e List.mem_cons_self scope i) ?_
      exact ih' (fun f hf ↦ ih f (List.mem_cons_of_mem _ hf)) _

end Expression

namespace Nameless

/-! ### The rules -/

open Expression in
/-- What has a derivation from a list of open assumptions. -/
inductive Derives : List Nameless → Nameless → Prop
  | assumption (a : Nameless) : Derives [a] a
  | detachment {Γ Δ : List Nameless} {a b : Nameless} (rule : Derives Γ (implies a b))
      (condition : Derives Δ a) : Derives (Γ ++ Δ) b
  /-- The value is any expression, and no variable of it is captured. -/
  | specialization {Γ : List Nameless} {body : Nameless} (value : Expression)
      (target : Derives Γ (binder .universal body)) :
      Derives Γ (body.instantiateAt value.nameless 0)
  /-- The record of a replacement equals its result. -/
  | replacement (target : Expression) (replacements : List Replacement) (chosen : Occurrences) :
      Derives [] (equals (recorded target replacements chosen).nameless
        (target.nameless.replace chosen (replacements.map Replacement.forms) 0).1)
  /-- A ground statement that is decided, or its negation. -/
  | verification {e : Expression} {holds : Bool} (h : e.evaluate = .ok holds) :
      Derives [] (Inference.verdict e holds).nameless
  | condition {Γ : List Nameless} {b : Nameless} (a : Nameless) (conclusion : Derives Γ b) :
      Derives (Γ.filter (· ≠ a)) (implies a b)
  /-- The variable is free in no open assumption. -/
  | generalization {Γ : List Nameless} {body : Nameless} (id : Nat) (typical : Derives Γ body)
      (h : ∀ a ∈ Γ, a.occurs id = false) : Derives Γ (binder .universal (body.abstractAt id 0))

/-- Whether a statement has a derivation with open assumptions among `assumptions`. -/
def DerivableFrom (assumptions : List Nameless) (t : Nameless) : Prop :=
  ∃ Γ, Γ ⊆ assumptions ∧ Derives Γ t

namespace DerivableFrom

variable {assumptions assumptions' : List Nameless} {a b t : Nameless}

/-- More assumptions do no harm, since only those that are open count. -/
theorem mono (h : DerivableFrom assumptions t) (hsub : assumptions ⊆ assumptions') :
    DerivableFrom assumptions' t := by
  obtain ⟨Γ, hΓ, hd⟩ := h
  exact ⟨Γ, List.Subset.trans hΓ hsub, hd⟩

/-- An assumption is derivable from itself. -/
theorem of_mem (h : t ∈ assumptions) : DerivableFrom assumptions t :=
  ⟨[t], by simpa using h, .assumption t⟩

/-- Both premises may have their own open assumptions; they are put together. -/
theorem detachment (hrule : DerivableFrom assumptions (implies a b))
    (hcondition : DerivableFrom assumptions a) : DerivableFrom assumptions b := by
  obtain ⟨Γ, hΓ, hd⟩ := hrule
  obtain ⟨Δ, hΔ, hd'⟩ := hcondition
  exact ⟨Γ ++ Δ, List.append_subset.2 ⟨hΓ, hΔ⟩, hd.detachment hd'⟩

/-- The value is any expression, not only a variable. -/
theorem specialization (value : Expression)
    (h : DerivableFrom assumptions (binder .universal b)) :
    DerivableFrom assumptions (b.instantiateAt value.nameless 0) := by
  obtain ⟨Γ, hΓ, hd⟩ := h
  exact ⟨Γ, hΓ, hd.specialization value⟩

/-- The assumption that becomes the condition is no longer open. -/
theorem condition (h : DerivableFrom (a :: assumptions) b) :
    DerivableFrom assumptions (implies a b) := by
  obtain ⟨Γ, hΓ, hd⟩ := h
  refine ⟨Γ.filter (· ≠ a), fun c hc ↦ ?_, hd.condition a⟩
  obtain ⟨hmem, hne⟩ : c ∈ Γ ∧ c ≠ a := by simpa using hc
  exact (List.mem_cons.1 (hΓ hmem)).resolve_left hne

/-- A variable may be generalized if it is free in no assumption that is open. -/
theorem generalization (id : Nat) (h : DerivableFrom assumptions t)
    (hfree : ∀ a ∈ assumptions, a.occurs id = false) :
    DerivableFrom assumptions (binder .universal (t.abstractAt id 0)) := by
  obtain ⟨Γ, hΓ, hd⟩ := h
  exact ⟨Γ, hΓ, hd.generalization id fun a ha ↦ hfree a (hΓ ha)⟩

/-! ### Closing a theorem -/

/-- Conditions are discharged one after the other, the innermost first. -/
theorem rules {conditions : List Expression} {e : Expression}
    (h : DerivableFrom (conditions.map Expression.nameless ++ assumptions) e.nameless) :
    DerivableFrom assumptions (Expression.rules conditions e).nameless := by
  induction conditions generalizing assumptions with
  | nil => exact h
  | cons c rest ih =>
    show DerivableFrom assumptions (implies c.nameless (Expression.rules rest e).nameless)
    refine condition (ih (h.mono fun a ha ↦ ?_))
    rcases List.mem_append.1 ha with ha | ha
    · rcases List.mem_cons.1 ha with rfl | ha
      · exact List.mem_append_right _ List.mem_cons_self
      · exact List.mem_append_left _ ha
    · exact List.mem_append_right _ (List.mem_cons_of_mem _ ha)

/-- Parameters that no assumption mentions are generalized one after the other. -/
theorem alls {parameters : List Variable} {e : Expression}
    (h : DerivableFrom assumptions e.nameless)
    (hfree : ∀ p ∈ parameters, ∀ a ∈ assumptions, a.occurs p.id = false) :
    DerivableFrom assumptions (Expression.alls parameters e).nameless := by
  induction parameters with
  | nil => exact h
  | cons p rest ih =>
    show DerivableFrom assumptions (Expression.all p (Expression.alls rest e)).nameless
    rw [Expression.nameless_all]
    exact generalization p.id (ih fun q hq ↦ hfree q (List.mem_cons_of_mem p hq))
      (hfree p List.mem_cons_self)

end DerivableFrom

end Nameless

end NaturalDeduction
