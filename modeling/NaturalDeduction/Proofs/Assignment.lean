import Mathlib.Data.List.Nodup
import Mathlib.Logic.Function.Basic
import NaturalDeduction.Proofs.Calculus
import NaturalDeduction.Proofs.Matching

/-!
# Values for several variables

Values can be put for several variables at once (`Nameless.assign`), or for one after the other, by
opening the quantifiers that bind them (`Nameless.Opens`). On nameless forms a value that was put is
never looked into again, as it has no index that points out of it. So the two ways differ in one
thing only. If a variable is listed twice, then at once the first of its values is taken, as the
walk finds that one first; one after the other it is the last, which belongs to the innermost
quantifier.

Main statements: `replace_forVariables` for values put at once, and `opens_alls` for values put one
after the other. Both speak of `Bindings.assignment`, on the list of variables and values and on the
reversed list.

Main definitions:

* `Nameless.assign`: values for all free variables at once.
* `Nameless.Opens`: values for leading quantifiers, one after the other.
* `Bindings.assignment`: the values that a list of bindings puts, in which the first one counts.
-/

namespace NaturalDeduction

/-! ### Forms under quantifiers -/

namespace Expression

/-- A form has no index that points outside, so opening a binder around it leaves it alone. -/
theorem instantiateAt_namelessIn (e : Expression) (u : Nameless) {scope : List Nat} {depth : Nat}
    (h : scope.length ≤ depth) :
    (e.namelessIn scope).instantiateAt u depth = e.namelessIn scope := by
  induction e generalizing scope depth with
  | atom a =>
    cases a with
    | var v =>
      rw [namelessIn, resolve]
      cases hv : scope.idxOf? v.id with
      | none => rfl
      | some index =>
        obtain ⟨hindex, -⟩ := List.idxOf?_eq_some_iff.1 hv
        exact if_neg (Nat.ne_of_lt (Nat.lt_of_lt_of_le hindex h))
    | _ => rfl
  | binder kind v body ih =>
    rw [namelessIn, Nameless.instantiateAt, ih (Nat.succ_le_succ h)]
  | implies a b iha ihb | equals a b iha ihb =>
    rw [namelessIn, Nameless.instantiateAt, iha h, ihb h]
  | application items ih =>
    rw [namelessIn, Nameless.instantiateAt, Nameless.instantiateAllAt_eq_map, namelessAllIn_eq_map,
      List.map_map]
    exact congrArg _ (List.map_congr_left fun e he ↦ ih e he h)

/-- A form has no index that points out of it, so there is nothing to put a value for. -/
@[simp] theorem instantiateAt_nameless (e : Expression) (u : Nameless) (depth : Nat) :
    e.nameless.instantiateAt u depth = e.nameless :=
  instantiateAt_namelessIn e u (Nat.zero_le depth)

end Expression

namespace Nameless

/-- Whether opening quantifiers with values, one after the other, leads from one form to another. -/
inductive Opens : Nameless → List Expression → Nameless → Prop
  | nil (t : Nameless) : Opens t [] t
  | cons {body t : Nameless} {value : Expression} {values : List Expression}
      (h : Opens (body.instantiateAt value.nameless 0) values t) :
      Opens (.binder .universal body) (value :: values) t

theorem Opens.of_eq {t u : Nameless} (h : t = u) : Opens t [] u := h ▸ .nil t

/-! ### Assignments -/

mutual

/-- Puts the form of an expression for each free variable, at once. -/
def assign (σ : Nat → Expression) : Nameless → Nameless
  | free id => (σ id).nameless
  | binder kind body => binder kind (assign σ body)
  | implies a b => implies (assign σ a) (assign σ b)
  | equals a b => equals (assign σ a) (assign σ b)
  | application items => application (assignAll σ items)
  | t => t

/-- The same for a list of forms. -/
def assignAll (σ : Nat → Expression) : List Nameless → List Nameless
  | [] => []
  | t :: rest => assign σ t :: assignAll σ rest

end

theorem assignAll_eq_map (σ : Nat → Expression) (ts : List Nameless) :
    assignAll σ ts = ts.map (assign σ) := by
  induction ts with
  | nil => rfl
  | cons t rest ih => rw [assignAll, ih, List.map_cons]

/-- Assignments differ on a form exactly if they differ at a variable that is free in it. -/
theorem assign_eq_assign_iff {σ τ : Nat → Expression} {t : Nameless} :
    t.assign σ = t.assign τ ↔ ∀ id, t.occurs id = true → (σ id).nameless = (τ id).nameless := by
  induction t with
  | free id => simp [assign, occurs]
  | binder kind body ih => rw [assign, assign, binder.injEq, ih]; simp [occurs]
  | implies a b iha ihb | equals a b iha ihb =>
    simp only [assign, implies.injEq, equals.injEq, iha, ihb, occurs, Bool.or_eq_true]
    grind
  | application items ih =>
    simp only [assign, application.injEq, assignAll_eq_map, List.map_inj_left, occurs,
      occursIn_eq_any, List.any_eq_true]
    constructor
    · rintro h id ⟨t, ht, hid⟩
      exact (ih t ht).1 (h t ht) id hid
    · intro h t ht
      exact (ih t ht).2 fun id hid ↦ h id ⟨t, ht, hid⟩
  | _ => simp [assign, occurs]

/-- Nothing changes if every variable stands for itself. -/
theorem assign_var (t : Nameless) : t.assign (fun id ↦ .var ⟨"", id⟩) = t := by
  induction t with
  | binder kind body ih => rw [assign, ih]
  | implies a b iha ihb | equals a b iha ihb => rw [assign, iha, ihb]
  | application items ih =>
    rw [assign, assignAll_eq_map, List.map_congr_left ih, List.map_id']
  | _ => rfl

end Nameless

namespace Bindings

/-- What bindings put for a variable: the first value there is, or else the variable itself. -/
def assignment (bindings : Bindings) (id : Nat) : Expression :=
  (bindings.get? ⟨"", id⟩).getD (.var ⟨"", id⟩)

/-- The binding in front decides, which is why the order of a list with repetitions matters. -/
theorem assignment_cons (v : Variable) (value : Expression) (bindings : Bindings) :
    assignment ((v, value) :: bindings) = Function.update bindings.assignment v.id value := by
  funext id
  rw [assignment, get?_cons, Function.update_apply]
  by_cases h : v.id = id
  · rw [if_pos h, if_pos h.symm, Option.getD_some]
  · rw [if_neg h, if_neg (Ne.symm h), assignment]

/-- The bindings as replacements of variables. -/
def forVariables (bindings : Bindings) : List Replacement :=
  bindings.map fun (v, value) ↦ ⟨.var v, value⟩

/-- If no variable is listed twice, a list of bindings is a function. -/
theorem get?_eq_some_iff {bindings : Bindings} (h : (bindings.map (·.1.id)).Nodup) {v : Variable}
    {value : Expression} :
    bindings.get? v = some value ↔ ∃ b ∈ bindings, b.1.id = v.id ∧ b.2 = value := by
  induction bindings with
  | nil => simp [get?]
  | cons b rest ih =>
    obtain ⟨hb, hrest⟩ := List.nodup_cons.1 h
    rw [get?_cons]
    split
    · rename_i hid
      have hne : ¬ ∃ c ∈ rest, c.1.id = v.id ∧ c.2 = value := by
        rintro ⟨c, hc, hcid, -⟩
        exact hb (List.mem_map.2 ⟨c, hc, hcid.trans hid.symm⟩)
      simp [hid, hne]
    · rename_i hid
      simp [hid, ih hrest]

/-- The order of bindings of different variables does not matter. -/
theorem get?_reverse {bindings : Bindings} (h : (bindings.map (·.1.id)).Nodup) (v : Variable) :
    get? bindings.reverse v = bindings.get? v := by
  have hreverse : (bindings.reverse.map (·.1.id)).Nodup := by
    rwa [List.map_reverse, List.nodup_reverse]
  refine Option.ext fun value ↦ ?_
  rw [get?_eq_some_iff hreverse, get?_eq_some_iff h]
  simp

/-- A variable has a value if it is listed anywhere. -/
theorem isSome_get? (bindings : Bindings) (v : Variable) :
    (bindings.get? v).isSome = bindings.any (·.1.id == v.id) := by
  rw [get?, Option.isSome_map, List.isSome_find?]

/-- Whether it has one does not depend on the order. -/
theorem isSome_get?_reverse (bindings : Bindings) (v : Variable) :
    (get? bindings.reverse v).isSome = (bindings.get? v).isSome := by
  rw [isSome_get?, isSome_get?, List.any_reverse]

end Bindings

/-! ### Values put at once -/

/-- The first binding of a variable is the first replacement that the walk finds for it. -/
theorem Bindings.assignment_nameless (bindings : Bindings) (id : Nat) :
    (bindings.assignment id).nameless = (((bindings.forVariables.map Replacement.forms).find?
      fun p ↦ p.1 = .free id).map (·.2)).getD (.free id) := by
  induction bindings with
  | nil => rfl
  | cons b rest ih =>
    have hkey : (forVariables (b :: rest)).map Replacement.forms =
        (.free b.1.id, b.2.nameless) :: (forVariables rest).map Replacement.forms := rfl
    rw [assignment, get?_cons, hkey, List.find?_cons]
    by_cases h : b.1.id = id
    · simp [h]
    · simpa [h, assignment] using ih

namespace Nameless

/-- Assignment looks at free variables only, so it is a map on leaves and commutes with opening
binders. -/
theorem assign_leafwise (σ : Nat → Expression) : Leafwise (assign σ) :=
  ⟨fun _ _ ↦ rfl, fun _ _ ↦ rfl, fun _ _ ↦ rfl, fun items ↦ by rw [assign, assignAll_eq_map]⟩

/-- Replacing variables everywhere is an assignment. -/
theorem replace_forVariables (bindings : Bindings) (t : Nameless) (i : Nat) :
    (t.replace .all (bindings.forVariables.map Replacement.forms) i).1 =
      t.assign bindings.assignment := by
  have hkeys : ∀ p ∈ bindings.forVariables.map Replacement.forms, ∃ id, p.1 = free id := by
    intro p hp
    obtain ⟨r, hr, rfl⟩ := List.mem_map.1 hp
    obtain ⟨b, -, rfl⟩ := List.mem_map.1 hr
    exact ⟨b.1.id, rfl⟩
  refine replace_all_eq (assign_leafwise _) (fun p hp ↦ ?_) (fun t ht ↦ ?_) t i
  · obtain ⟨id, hid⟩ := hkeys p hp
    rw [hid]
    rfl
  · by_cases hfree : ∃ id, t = free id
    · obtain ⟨id, rfl⟩ := hfree
      exact bindings.assignment_nameless id
    · have hnone : ((bindings.forVariables.map Replacement.forms).find? fun p ↦ p.1 = t) =
          none := by
        refine List.find?_eq_none.2 fun p hp hpt ↦ hfree ?_
        obtain ⟨id, hid⟩ := hkeys p hp
        exact ⟨id, (of_decide_eq_true hpt).symm.trans hid⟩
      rw [hnone]
      cases t with
      | free id => exact absurd ⟨id, rfl⟩ hfree
      | _ => first | rfl | cases ht

end Nameless

/-- The replacements mention the variables and the values of the bindings. -/
theorem Bindings.forVariables_below {bindings : Bindings} {n : Nat}
    (hvariables : ∀ b ∈ bindings, b.1.id < n) (hvalues : bindings.Below n) :
    ∀ r ∈ bindings.forVariables, r.Below n := by
  intro r hr
  obtain ⟨b, hb, rfl⟩ := List.mem_map.1 hr
  exact ⟨hvariables b hb, hvalues b hb⟩

/-! ### Values put one after the other -/

namespace Expression

/-- Where a variable is bound outside a scope, opening its binder assigns the value to it. -/
theorem instantiateAt_assign (e : Expression) (σ : Nat → Expression) (value : Expression)
    (scope : List Nat) (x : Nat) :
    ((e.namelessIn (scope ++ [x])).assign σ).instantiateAt value.nameless scope.length =
      (e.namelessIn scope).assign (Function.update σ x value) := by
  induction e generalizing scope with
  | atom a =>
    cases a with
    | var v =>
      rw [namelessIn, namelessIn, resolve_append_singleton, resolve]
      cases hv : scope.idxOf? v.id with
      | some index =>
        obtain ⟨hindex, -⟩ := List.idxOf?_eq_some_iff.1 hv
        exact if_neg (Nat.ne_of_lt hindex)
      | none =>
        by_cases hx : v.id = x
        · simp [Nameless.abstractAt, Nameless.assign, Nameless.instantiateAt, hx]
        -- the value of another variable has no index that points outside
        · simp [Nameless.abstractAt, Nameless.assign, hx]
    | _ => rfl
  | binder kind v body ih => exact congrArg (Nameless.binder kind) (ih (v.id :: scope))
  | implies a b iha ihb => exact congrArg₂ Nameless.implies (iha scope) (ihb scope)
  | equals a b iha ihb => exact congrArg₂ Nameless.equals (iha scope) (ihb scope)
  | application items ih =>
    rw [namelessIn, namelessIn, Nameless.assign, Nameless.assign, Nameless.instantiateAt,
      Nameless.instantiateAllAt_eq_map, Nameless.assignAll_eq_map, Nameless.assignAll_eq_map,
      namelessAllIn_eq_map, namelessAllIn_eq_map, List.map_map, List.map_map, List.map_map]
    exact congrArg _ (List.map_congr_left fun e he ↦ ih e he scope)

/-- Opening quantifiers adds the variables and values to what is assigned already. -/
theorem opens_assign_alls {vs : List Variable} {values : List Expression}
    (h : values.length = vs.length) (e : Expression) (bindings : Bindings) :
    ((alls vs e).nameless.assign bindings.assignment).Opens values
      (e.nameless.assign (Bindings.assignment ((vs.zip values).reverse ++ bindings))) := by
  induction vs generalizing values bindings with
  | nil =>
    cases List.eq_nil_of_length_eq_zero h
    exact .nil _
  | cons v vs ih =>
    obtain ⟨value, values, rfl⟩ := List.exists_cons_of_length_eq_add_one h
    have hopened := instantiateAt_assign (alls vs e) bindings.assignment value [] v.id
    have hrest := ih (Nat.succ_inj.1 h) ((v, value) :: bindings)
    rw [Bindings.assignment_cons] at hrest
    rw [List.zip_cons_cons, List.reverse_cons, List.append_assoc, List.singleton_append]
    exact .cons (hopened.symm ▸ hrest)

/-- **Opening quantifiers with values, one after the other,** puts for each variable the value of
its innermost quantifier. -/
theorem opens_alls {vs : List Variable} {values : List Expression} (h : values.length = vs.length)
    (e : Expression) :
    (alls vs e).nameless.Opens values
      (e.nameless.assign (Bindings.assignment (vs.zip values).reverse)) := by
  have hopens := opens_assign_alls h e []
  rw [List.append_nil] at hopens
  exact (Nameless.assign_var (alls vs e).nameless) ▸ hopens

/-- If no variable is bound twice, the order in which the values are put does not matter. -/
theorem opens_alls_of_nodup {vs : List Variable} {values : List Expression}
    (hnodup : (vs.map (·.id)).Nodup) (h : values.length = vs.length) (e : Expression) :
    (alls vs e).nameless.Opens values
      (e.nameless.assign (Bindings.assignment (vs.zip values))) := by
  have hfirst : (vs.zip values).map (·.1) = vs := List.map_fst_zip (Nat.le_of_eq h.symm)
  have hzip : ((vs.zip values).map (·.1.id)).Nodup := by
    rw [← hfirst, List.map_map] at hnodup
    exact hnodup
  have hreverse : Bindings.assignment (vs.zip values).reverse =
      Bindings.assignment (vs.zip values) := by
    funext id
    rw [Bindings.assignment, Bindings.assignment, Bindings.get?_reverse hzip]
  exact hreverse ▸ opens_alls h e

end Expression

end NaturalDeduction
