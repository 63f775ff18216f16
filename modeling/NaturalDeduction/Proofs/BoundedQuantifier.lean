import NaturalDeduction.Prelude
import NaturalDeduction.Proofs.Nameless

/-!
# What the bounded quantifier stands for

`(forall-in S (lambda (x) P))` is written out as `(forall (x) (-> (in x S) P))`. So the set, which
stands beside the function, is moved below the binder of the function's variable. Nothing is renamed
on the way, and what comes of it depends on whether the set mentions that variable.

If it does not, the expansion has the form that one expects: it does not depend on the names of
bound variables, and the same variables are free in it as before. If it does, the variable is
captured. Both are said by equivalences (`Prelude.boundedQuantifier_expands`), each of which rests
on what a scope of one variable does to a form: nothing, unless the variable occurs free
(`Expression.namelessIn_singleton_eq_iff`), and to the list of free variables: it takes the variable
out (`Expression.unbound_eq_filter`).

Whether the set mentions the variable can be asked before anything is expanded, so the equivalences
are also a check that a caller can make. `Prelude.exists_captured_set` is a set that fails it.
-/

namespace NaturalDeduction

namespace Expression

/-! ### Free variables -/

/-- What a scope binds is left out of the unbound variables. -/
theorem unbound_eq_filter (e : Expression) (bound : List Variable) :
    e.unbound bound = (e.unbound []).filter fun v ↦ !bound.any (·.id == v.id) := by
  induction e generalizing bound with
  | atom a =>
    cases a with
    | var v =>
      simp only [unbound, List.any_nil, Bool.false_eq_true, if_false, List.filter_cons,
        List.filter_nil]
      cases bound.any (·.id == v.id) <;> rfl
    | _ => rfl
  | binder k v body ih =>
    rw [unbound, unbound, ih (v :: bound), ih [v], List.filter_filter]
    refine List.filter_congr fun w _ ↦ ?_
    simp only [List.any_cons, List.any_nil, Bool.or_false, Bool.not_or, Bool.and_comm]
  | implies a b iha ihb | equals a b iha ihb =>
    rw [unbound, unbound, List.filter_append, ← iha, ← ihb]
  | application items ih =>
    rw [unbound, unbound]
    induction items with
    | nil => rfl
    | cons e rest ihrest =>
      obtain ⟨he, hrest⟩ := List.forall_mem_cons.1 ih
      rw [unboundIn, unboundIn, List.filter_append, ← he, ← ihrest hrest]

/-- The variables that occur free are the ones that no scope binds. -/
theorem occursFree_iff_unbound {v : Variable} {e : Expression} :
    e.occursFree v = true ↔ ∃ w ∈ e.unbound [], w.id = v.id := by
  induction e with
  | atom a =>
    cases a <;> simp [occursFree, unbound]
  | binder k w body ih =>
    rw [occursFree, unbound, unbound_eq_filter, Bool.and_eq_true, ih]
    simp only [bne_iff_ne, List.mem_filter, List.any_cons, List.any_nil]
    grind
  | implies a b iha ihb | equals a b iha ihb =>
    rw [occursFree, unbound, Bool.or_eq_true, iha, ihb]
    simp only [List.mem_append]
    grind
  | application items ih =>
    rw [occursFree, unbound]
    induction items with
    | nil => simp [occursFreeIn, unboundIn]
    | cons e rest ihrest =>
      obtain ⟨he, hrest⟩ := List.forall_mem_cons.1 ih
      rw [occursFreeIn, unboundIn, Bool.or_eq_true, he, ihrest hrest]
      simp only [List.mem_append]
      grind

/-- The list of free variables leaves repetitions out, so the two lists have the same members. -/
theorem mem_ids_freeVariables {e : Expression} {n : Nat} :
    n ∈ e.freeVariables.map (·.id) ↔ ∃ w ∈ e.unbound [], w.id = n := by
  have hfold : ∀ vs acc : List Variable,
      n ∈ (vs.foldl (fun vs v ↦ v.insertById vs) acc).map (·.id) ↔
        n ∈ acc.map (·.id) ∨ ∃ w ∈ vs, w.id = n := by
    intro vs
    induction vs with
    | nil => simp
    | cons v rest ih =>
      intro acc
      rw [List.foldl_cons, ih, Variable.mem_ids_insertById]
      grind
  rw [freeVariables, hfold]
  simp

/-- The variables that are listed as free are the ones that occur free. -/
theorem mem_freeVariables_iff_occursFree {e : Expression} {v : Variable} :
    v.id ∈ e.freeVariables.map (·.id) ↔ e.occursFree v = true :=
  mem_ids_freeVariables.trans occursFree_iff_unbound.symm

/-! ### Scopes of one variable -/

/-- A scope of one variable can only be told from another one by what it binds. -/
theorem namelessIn_singleton_eq_iff {v w : Variable} {e : Expression} :
    e.namelessIn [v.id] = e.namelessIn [w.id] ↔
      v.id = w.id ∨ e.occursFree v = false ∧ e.occursFree w = false := by
  constructor
  · intro h
    by_cases hne : v.id = w.id
    · exact .inl hne
    -- a variable that one scope binds and the other does not is free in one of the two forms
    have hnot : ∀ {a b : Variable}, a.id ≠ b.id → e.namelessIn [a.id] = e.namelessIn [b.id] →
        e.occursFree a = false := by
      intro a b hab hforms
      refine Bool.eq_false_iff.2 fun hfree ↦ ?_
      have hoccurs : (e.namelessIn [b.id]).occurs a.id = true :=
        occurs_namelessIn.2 ⟨hfree, by simpa using hab⟩
      rw [← hforms, occurs_namelessIn] at hoccurs
      exact hoccurs.2 List.mem_cons_self
    exact .inr ⟨hnot hne h, hnot (Ne.symm hne) h.symm⟩
  · rintro (h | ⟨hv, hw⟩)
    · rw [h]
    · have hsame : ∀ {a : Variable}, e.occursFree a = false → e.namelessIn [a.id] = e.nameless := by
        intro a ha
        refine namelessIn_of_forall_notMem fun u hu hmem ↦ ?_
        rw [← occursFree_congr (List.mem_singleton.1 hmem), hu] at ha
        cases ha
      rw [hsame hv, hsame hw]

/-- A scope of one variable changes nothing if the variable does not occur free. -/
theorem unbound_singleton_of_not_occursFree {v : Variable} {e : Expression}
    (h : e.occursFree v = false) : e.unbound [v] = e.unbound [] := by
  rw [unbound_eq_filter, List.filter_eq_self]
  intro w hw
  have hne : w.id ≠ v.id := fun hwv ↦ by
    rw [occursFree_iff_unbound.2 ⟨w, hw, hwv⟩] at h
    cases h
  simpa using Ne.symm hne

end Expression

namespace Prelude

open Expression

/-- **What the bounded quantifier stands for.** Applications to a set and a function are always
written out, and what comes of it does not depend on the variables that are drawn. Let two of them
be equal up to bound names. Then so are their expansions, unless one of the sets mentions a
function's variable, and the two functions have different variables. An expansion lists the same
free variables as the application, unless the set mentions the variable of the function. -/
theorem boundedQuantifier_expands {x y : Variable} {set set' body body' : Expression}
    (h : (call "forall-in" [set, .binder .lambda x body]).alphaEq
      (call "forall-in" [set', .binder .lambda y body']) = true) :
    ∃ e e', (∀ n, (boundedQuantifier.expand [set, .binder .lambda x body]).run n = (some e, n)) ∧
      (∀ n, (boundedQuantifier.expand [set', .binder .lambda y body']).run n = (some e', n)) ∧
      (e.alphaEq e' = true ↔ x.id = y.id ∨ set.occursFree x = false ∧ set.occursFree y = false) ∧
      (e.freeVariables = (call "forall-in" [set, .binder .lambda x body]).freeVariables ↔
        set.occursFree x = false) := by
  refine ⟨all x (implies (call "in" [var x, set]) body),
    all y (implies (call "in" [var y, set']) body'), fun _ ↦ rfl, fun _ ↦ rfl, ?_, ?_⟩
  · have hforms := alphaEq_iff.1 h
    simp only [call, nameless, namelessIn, namelessAllIn, Nameless.application.injEq,
      List.cons.injEq, Nameless.binder.injEq] at hforms
    obtain ⟨-, hset, ⟨-, hbody⟩, -⟩ := hforms
    have hset : set'.namelessIn [y.id] = set.namelessIn [y.id] := namelessIn_eq_iff.2 hset.symm
    rw [alphaEq_iff, ← namelessIn_singleton_eq_iff]
    simp [all, call, symbol, var, nameless, namelessIn, namelessAllIn, resolve_cons_self, hset,
      hbody]
  · have hexpansion : (all x (implies (call "in" [var x, set]) body)).unbound [] =
        set.unbound [x] ++ body.unbound [x] := by
      simp [all, call, symbol, var, unbound, unboundIn]
    have happlication : (call "forall-in" [set, .binder .lambda x body]).unbound [] =
        set.unbound [] ++ body.unbound [x] := by
      simp [call, symbol, unbound, unboundIn]
    constructor
    · intro hfree
      -- a variable of the set that the function binds too is free in the application only
      refine Bool.eq_false_iff.2 fun hset ↦ ?_
      have hmem :
          x.id ∈ (call "forall-in" [set, .binder .lambda x body]).freeVariables.map (·.id) := by
        obtain ⟨w, hw, hid⟩ := occursFree_iff_unbound.1 hset
        rw [mem_ids_freeVariables, happlication]
        exact ⟨w, List.mem_append_left _ hw, hid⟩
      rw [← hfree, mem_freeVariables_iff_occursFree] at hmem
      simp [all, occursFree] at hmem
    · intro hset
      rw [freeVariables, freeVariables, hexpansion, happlication,
        unbound_singleton_of_not_occursFree hset]

/-- The set is a variable, and the functions have other ones. -/
theorem boundedQuantifier_expands_outside :
    let x : Variable := ⟨"x", 0⟩
    let y : Variable := ⟨"y", 1⟩
    let z : Variable := ⟨"z", 2⟩
    let stated (v : Variable) :=
      call "forall-in" [var z, .binder .lambda v (call "P" [var v, var z])]
    let expansion (v : Variable) :=
      all v (implies (call "in" [var v, var z]) (call "P" [var v, var z]))
    (stated x).alphaEq (stated y) = true ∧ (expansion x).alphaEq (expansion y) = true ∧
      (expansion x).freeVariables = (stated x).freeVariables := by
  intro x y z stated expansion
  have hstated : (stated x).alphaEq (stated y) = true := by decide +kernel
  obtain ⟨e, e', he, he', halpha, hfree⟩ := boundedQuantifier_expands hstated
  obtain rfl : expansion x = e := Option.some.inj (congrArg Prod.fst (he 0))
  obtain rfl : expansion y = e' := Option.some.inj (congrArg Prod.fst (he' 0))
  exact ⟨hstated, halpha.2 (.inr ⟨by decide, by decide⟩), hfree.2 (by decide)⟩

/-- A set that is the variable of the function is captured. Nothing is free any more in the
expansion, which is another one than that of the same application with a function over another
variable. -/
theorem exists_captured_set :
    let x : Variable := ⟨"x", 10⟩
    let y : Variable := ⟨"y", 11⟩
    let stated (v : Variable) := [var x, .binder .lambda v (call "in" [var v, symbol "N"])]
    (call "forall-in" (stated x)).alphaEq (call "forall-in" (stated y)) = true ∧ ∃ e e',
      (∀ n, (boundedQuantifier.expand (stated x)).run n = (some e, n)) ∧
      (∀ n, (boundedQuantifier.expand (stated y)).run n = (some e', n)) ∧
        e.alphaEq e' = false ∧ e.freeVariables = [] ∧
          (call "forall-in" (stated x)).freeVariables = [x] := by
  refine ⟨by decide +kernel, _, _, fun _ ↦ rfl, fun _ ↦ rfl, ?_⟩
  decide +kernel

end Prelude

end NaturalDeduction
