import NaturalDeduction.Proofs.Assignment
import NaturalDeduction.Proofs.Rewriting

/-!
# Opening quantifiers and filling the holes

A statement is used as a pattern by opening its leading quantifiers into holes, and a match then
says what to fill the holes with. The other way to use it is to instantiate the quantifiers with
these values, one after the other. Both put the values for the variables that the quantifiers bind.
The holes are drawn at the counter, so they are no holes of the statement, and each of them is
filled with its own value.

The two differ if a variable is bound twice among the leading quantifiers. Opening puts one hole for
it everywhere, the one of its outermost quantifier; instantiating puts the value of the innermost
one, which is the quantifier that binds it. `fill_openAlls_alphaEq_iff` says that this is the only
difference.

Main statements: `fill_openAlls_nameless` for opening and filling, `instantiateAll?_alls` for
instantiating, `assign_assignment_iff` for when the two assignments are the same, and
`fill_openAlls_alphaEq_iff`, in which the three meet.
-/

namespace NaturalDeduction

/-! ### The holes of a form -/

namespace Nameless

mutual

/-- Whether the hole with a number occurs. -/
def hasHole (id : Nat) : Nameless → Bool
  | hole i => i == id
  | binder _ body => hasHole id body
  | implies a b => hasHole id a || hasHole id b
  | equals a b => hasHole id a || hasHole id b
  | application items => haveHole id items
  | _ => false

/-- Whether the hole with a number occurs in one of the forms. -/
def haveHole (id : Nat) : List Nameless → Bool
  | [] => false
  | t :: rest => hasHole id t || haveHole id rest

end

/-- A list has a hole if an item has it. -/
theorem haveHole_eq_any (id : Nat) (ts : List Nameless) : haveHole id ts = ts.any (hasHole id) := by
  induction ts with
  | nil => rfl
  | cons t rest ih => rw [haveHole, ih, List.any_cons]

/-- If the values are filled into what is assigned, and a form has no hole of its own that has
another value, then filling the form after the assignment is an assignment. -/
theorem fillHoles_assign {values : Nat → Option Nameless} {σ τ : Nat → Expression} {t : Nameless}
    (hfree : ∀ id, (σ id).nameless.fillHoles values = (τ id).nameless)
    (hholes : ∀ id, t.hasHole id = true → (values id).getD (hole id) = hole id) :
    (t.assign σ).fillHoles values = t.assign τ := by
  induction t with
  | free id => exact hfree id
  | hole id => exact hholes id (beq_self_eq_true id)
  | binder kind body ih => exact congrArg (binder kind) (ih hholes)
  | implies a b iha ihb | equals a b iha ihb =>
    have ha : ∀ id, a.hasHole id = true → (values id).getD (hole id) = hole id :=
      fun id hid ↦ hholes id (by simp [hasHole, hid])
    have hb : ∀ id, b.hasHole id = true → (values id).getD (hole id) = hole id :=
      fun id hid ↦ hholes id (by simp [hasHole, hid])
    simp only [assign, fillHoles, iha ha, ihb hb]
  | application items ih =>
    rw [assign, assign, assignAll_eq_map, assignAll_eq_map, fillHoles, fillAllHoles_eq_map,
      List.map_map]
    refine congrArg application (List.map_congr_left fun t ht ↦ ih t ht fun id hid ↦ ?_)
    refine hholes id ?_
    rw [hasHole, haveHole_eq_any]
    exact List.any_eq_true.2 ⟨t, ht, hid⟩
  | _ => rfl

end Nameless

namespace Expression

/-- A list has a hole if an item has it. -/
theorem haveHole_eq_any (slot : Variable) (es : List Expression) :
    haveHole slot es = es.any (hasHole slot) := by
  induction es with
  | nil => rfl
  | cons e rest ih => rw [haveHole, ih, List.any_cons]

/-- The form of an expression has the holes of the expression. -/
theorem hasHole_namelessIn (slot : Variable) (e : Expression) (scope : List Nat) :
    (e.namelessIn scope).hasHole slot.id = e.hasHole slot := by
  induction e generalizing scope with
  | atom a =>
    cases a with
    | var v =>
      obtain ⟨index, hv⟩ | hv := resolve_eq_bound_or_free scope v.id <;>
        simp [namelessIn, hv, Nameless.hasHole, hasHole]
    | _ => rfl
  | binder kind v body ih => exact ih (v.id :: scope)
  | implies a b iha ihb | equals a b iha ihb =>
    rw [namelessIn, Nameless.hasHole, hasHole, iha, ihb]
  | application items ih =>
    rw [namelessIn, namelessAllIn_eq_map, Nameless.hasHole, Nameless.haveHole_eq_any, hasHole,
      haveHole_eq_any, List.any_map]
    rw [Bool.eq_iff_iff, List.any_eq_true, List.any_eq_true]
    exact exists_congr fun e ↦ and_congr_right fun he ↦ by rw [Function.comp_apply, ih e he scope]

/-- Quantifiers have no holes of their own. -/
theorem hasHole_splitAlls (slot : Variable) (e : Expression) :
    e.splitAlls.2.hasHole slot = e.hasHole slot := by
  fun_induction splitAlls e with
  | case1 v body vs e h ih => rw [h] at ih; exact ih
  | case2 => rfl

end Expression

/-! ### Opening -/

/-- Variables that are drawn for others have the next numbers. -/
theorem Variable.mapM_refresh_run (vs : List Variable) (n : Nat) :
    ∃ slots, (vs.mapM refresh).run n = (slots, n + vs.length) ∧
      slots.map (·.id) = List.range' n vs.length := by
  induction vs generalizing n with
  | nil => exact ⟨[], rfl, rfl⟩
  | cons v vs ih =>
    obtain ⟨slots, hrun, hids⟩ := ih (n + 1)
    refine ⟨⟨v.hint, n⟩ :: slots, ?_, by simp [hids, List.range'_succ]⟩
    rw [List.mapM_cons, Fresh.run_bind (v.refresh_run n), Fresh.run_bind hrun, List.length_cons]
    exact congrArg _ (by omega)

namespace Expression

/-- The replacement of variables by holes. -/
theorem forVariables_zip_hole (vs slots : List Variable) :
    Bindings.forVariables (vs.zip (slots.map hole)) =
      (vs.zip slots).map fun p ↦ ⟨var p.1, hole p.2⟩ := by
  rw [Bindings.forVariables, List.zip_map_right, List.map_map]
  rfl

/-- What opening answers: holes with the next numbers, one for each leading quantifier, and the body
with the holes assigned to the variables. -/
theorem openAlls_run {e : Expression} {n : Nat} (h : e.Below n) :
    ∃ slots body m, e.openAlls.run n = ((slots, body), m) ∧ n + e.splitAlls.1.length ≤ m ∧
      slots.map (·.id) = List.range' n e.splitAlls.1.length ∧ body.Below m ∧
      body.nameless = e.splitAlls.2.nameless.assign
        (Bindings.assignment (e.splitAlls.1.zip (slots.map hole))) := by
  obtain ⟨hvs, hbody⟩ := splitAlls_below h
  obtain ⟨slots, hslots, hids⟩ := Variable.mapM_refresh_run e.splitAlls.1 n
  have hle : n ≤ n + e.splitAlls.1.length := Nat.le_add_right ..
  have hbelow : ∀ r ∈ Bindings.forVariables (e.splitAlls.1.zip (slots.map hole)),
      r.Below (n + e.splitAlls.1.length) := by
    refine Bindings.forVariables_below (fun b hb ↦ ?_) fun b hb ↦ ?_
    · exact Nat.lt_of_lt_of_le (hvs b.1 (List.of_mem_zip hb).1) hle
    · obtain ⟨slot, -, hslot⟩ := List.mem_map.1 (List.of_mem_zip hb).2
      exact hslot ▸ trivial
  obtain ⟨body, m, hrun, hnm, hbelow', hform⟩ := substitute_run (hbody.mono hle) hbelow .all
  rw [Nameless.replace_forVariables] at hform
  rw [forVariables_zip_hole] at hrun
  refine ⟨slots, body, m, ?_, hnm, hids, hbelow', hform⟩
  exact (Fresh.run_bind hslots).trans ((Fresh.run_bind hrun).trans rfl)

end Expression

/-- A hole that is put for a variable, and then its value for the hole, come to the value that is
next to the variable. -/
theorem Bindings.get?_zip_hole {vs slots : List Variable} {values : List Expression}
    {bindings : Bindings} (hslots : slots.length = vs.length)
    (hvalues : List.Forall₂ (fun slot value ↦ bindings.get? slot = some value) slots values)
    (v : Variable) :
    get? (vs.zip (slots.map Expression.hole)) v = none ∧ get? (vs.zip values) v = none ∨
      ∃ slot value, get? (vs.zip (slots.map Expression.hole)) v = some (.hole slot) ∧
        bindings.get? slot = some value ∧ get? (vs.zip values) v = some value := by
  induction hvalues generalizing vs with
  | nil => exact .inl ⟨by simp [get?], by simp [get?]⟩
  | @cons slot value slots values hvalue _ ih =>
    obtain ⟨w, vs, rfl⟩ := List.exists_cons_of_length_eq_add_one hslots.symm
    simp only [List.map_cons, List.zip_cons_cons, get?_cons]
    by_cases hw : w.id = v.id
    · exact .inr ⟨slot, value, by simp [hw, hvalue]⟩
    · simpa only [hw, if_false] using ih (Nat.succ_inj.1 hslots)

/-- Each of some different slots has the value that is next to it. -/
theorem Bindings.forall₂_get?_zip {slots : List Variable} {values : List Expression}
    (hnodup : (slots.map (·.id)).Nodup) (hlength : values.length = slots.length) :
    List.Forall₂ (fun slot value ↦ get? (slots.zip values) slot = some value) slots values := by
  induction slots generalizing values with
  | nil =>
    cases List.eq_nil_of_length_eq_zero hlength
    exact .nil
  | cons slot slots ih =>
    obtain ⟨value, values, rfl⟩ := List.exists_cons_of_length_eq_add_one hlength
    obtain ⟨hslot, hnodup⟩ := List.nodup_cons.1 hnodup
    have hne : ∀ other ∈ slots, slot.id ≠ other.id := fun other hother hid ↦
      hslot (List.mem_map.2 ⟨other, hother, hid.symm⟩)
    refine .cons (by rw [List.zip_cons_cons, get?_cons, if_pos rfl]) ?_
    refine ((List.forall₂_and_left _ _).2 ⟨hne, ih hnodup (Nat.succ_inj.1 hlength)⟩).imp ?_
    rintro other value' ⟨hother, hvalue⟩
    rw [List.zip_cons_cons, get?_cons, if_neg hother, hvalue]

namespace Expression

/-- Filling an opened statement with values for all of its slots puts the values for the variables
at once, if the holes of the statement itself stay as they are. -/
theorem fillHoles_openAlls {statement body : Expression} {slots : List Variable}
    {bindings : Bindings} {values : List Expression} {n m : Nat} (hbelow : statement.Below n)
    (hopen : statement.openAlls.run n = ((slots, body), m))
    (hvalues : List.Forall₂ (fun slot value ↦ bindings.get? slot = some value) slots values)
    (hholes : ∀ slot, statement.hasHole slot = true →
      (bindings.form? slot.id).getD (.hole slot.id) = .hole slot.id) :
    body.nameless.fillHoles bindings.form? = statement.splitAlls.2.nameless.assign
      (Bindings.assignment (statement.splitAlls.1.zip values)) := by
  obtain ⟨slots', body', m', hopen', -, hids, -, hform⟩ := openAlls_run hbelow
  cases hopen.symm.trans hopen'
  have hslots : slots.length = statement.splitAlls.1.length := by
    rw [← List.length_map (·.id), hids, List.length_range']
  rw [hform]
  refine Nameless.fillHoles_assign (fun id ↦ ?_) fun id hid ↦ hholes ⟨"", id⟩ ?_
  · obtain ⟨hnone, hnone'⟩ | ⟨slot, value, hhole, hslot, hvalue⟩ :=
      Bindings.get?_zip_hole hslots hvalues ⟨"", id⟩
    · rw [Bindings.assignment, Bindings.assignment, hnone, hnone']
      rfl
    · rw [Bindings.assignment, Bindings.assignment, hhole, hvalue]
      show (bindings.form? slot.id).getD (.hole slot.id) = _
      rw [Bindings.form?_eq, hslot]
      rfl
  · rw [← hasHole_splitAlls, ← hasHole_namelessIn _ _ []]
    exact hid

/-- Filling the holes of an opened statement with values puts the values for the variables at once.
-/
theorem fill_openAlls_nameless {statement body : Expression} {slots : List Variable}
    {values : List Expression} {n m k : Nat} (hbelow : statement.Below n)
    (hholes : ∀ slot, statement.hasHole slot = true → slot.id < n)
    (hopen : statement.openAlls.run n = ((slots, body), m)) (hlength : values.length = slots.length)
    (hvalues : ∀ e ∈ values, e.Below k) (hk : m ≤ k) :
    ((body.fill (slots.zip values)).run k).1.nameless =
      statement.splitAlls.2.nameless.assign
        (Bindings.assignment (statement.splitAlls.1.zip values)) := by
  obtain ⟨slots', body', m', hopen', -, hids, hbody, -⟩ := openAlls_run hbelow
  cases hopen.symm.trans hopen'
  have hnodup : (slots.map (·.id)).Nodup := hids ▸ List.nodup_range'
  have hbindings : Bindings.Below k (slots.zip values) := fun b hb ↦
    hvalues b.2 (List.of_mem_zip hb).2
  rw [nameless_fill (hbody.mono hk) hbindings]
  refine fillHoles_openAlls hbelow hopen (Bindings.forall₂_get?_zip hnodup hlength)
    fun slot hslot ↦ ?_
  -- the holes of the statement have smaller numbers than the slots
  have hnone : Bindings.get? (slots.zip values) slot = none := by
    rw [← Option.not_isSome_iff_eq_none, Bindings.isSome_get?, List.any_eq_true]
    rintro ⟨b, hb, hbid⟩
    have hmem : b.1.id ∈ slots.map (·.id) := List.mem_map_of_mem (List.of_mem_zip hb).1
    rw [hids, List.mem_range'_1, eq_of_beq hbid] at hmem
    exact Nat.not_lt.2 hmem.1 (hholes slot hslot)
  rw [Bindings.form?_eq, hnone]
  rfl

/-! ### Instantiating -/

/-- Instantiates quantifiers with values, one after the other. -/
def instantiateAll? (statement : Expression) : List Expression → Fresh (Option Expression)
  | [] => pure (some statement)
  | value :: rest => do
    match ← statement.instantiate? value with
    | some body => instantiateAll? body rest
    | none => pure none

/-- As many quantifiers as are opened can be instantiated. -/
theorem instantiateAll?_draws {statement : Expression} {values : List Expression} {t : Nameless}
    {n : Nat} (hopens : statement.nameless.Opens values t) (hstatement : statement.Below n)
    (hvalues : ∀ e ∈ values, e.Below n) :
    (statement.instantiateAll? values).Draws n fun result m ↦
      ∃ bound, result = some bound ∧ bound.Below m ∧ bound.nameless = t := by
  generalize hform : statement.nameless = s at hopens
  induction hopens generalizing statement n with
  | nil => exact .pure ⟨statement, rfl, hstatement, hform⟩
  | @cons t' t value values _ ih =>
    obtain ⟨v, body, rfl, rfl⟩ : ∃ v body, statement = .binder .universal v body ∧
        body.namelessIn [v.id] = t' := by
      rcases statement with (_ | _ | _ | _ | _) | ⟨k, v, body⟩ | _ | _ | _ <;> cases hform
      exact ⟨v, body, rfl, rfl⟩
    obtain ⟨hvalue, hvalues⟩ := List.forall_mem_cons.1 hvalues
    have hinstantiate : (instantiate? (.binder .universal v body) value).Draws n fun result m ↦
        ∃ bound, result = some bound ∧ bound.Below m ∧
          bound.nameless = (body.namelessIn [v.id]).instantiateAt value.nameless 0 := by
      show (some <$> body.substitute [⟨.var v, value⟩] .all).Draws n _
      rw [map_eq_pure_bind]
      exact (substitute_var_draws hstatement.1 hstatement.2 hvalue).bind fun c m _ hc ↦
        .pure ⟨c, rfl, hc⟩
    refine hinstantiate.bind fun result m hnm hresult ↦ ?_
    obtain ⟨bound, rfl, hbelow, hbound⟩ := hresult
    exact ih hbelow (fun e he ↦ (hvalues e he).mono hnm) hbound

/-- Instantiating the leading quantifiers puts for each variable the value of its innermost
quantifier. -/
theorem instantiateAll?_alls {statement : Expression} {values : List Expression} {n : Nat}
    (hlength : values.length = statement.splitAlls.1.length) (hstatement : statement.Below n)
    (hvalues : ∀ e ∈ values, e.Below n) :
    ∃ bound, ((statement.instantiateAll? values).run n).1 = some bound ∧
      bound.nameless = statement.splitAlls.2.nameless.assign
        (Bindings.assignment (statement.splitAlls.1.zip values).reverse) := by
  have hopens := opens_alls hlength statement.splitAlls.2
  rw [alls_splitAlls] at hopens
  obtain ⟨bound, hbound, -, hform⟩ := (instantiateAll?_draws hopens hstatement hvalues).2
  exact ⟨bound, hbound, hform⟩

/-- Two assignments that bind the same variables agree on a form exactly if they agree on every
variable that is free in it and bound by them. -/
theorem assign_assignment_iff {e : Expression} {bindings bindings' : Bindings}
    (h : ∀ v, (bindings.get? v).isSome = (bindings'.get? v).isSome) :
    e.nameless.assign bindings.assignment = e.nameless.assign bindings'.assignment ↔
      ∀ v, e.occursFree v = true → ∀ value value', bindings.get? v = some value →
        bindings'.get? v = some value' → value.alphaEq value' = true := by
  rw [Nameless.assign_eq_assign_iff]
  constructor
  · intro hagree v hv value value' hvalue hvalue'
    have hforms := hagree v.id (occurs_nameless ▸ hv)
    have hget : ∀ b : Bindings, b.get? ⟨"", v.id⟩ = b.get? v := fun b ↦ b.get?_congr rfl
    rw [Bindings.assignment, Bindings.assignment, hget, hget, hvalue, hvalue'] at hforms
    exact alphaEq_iff.2 hforms
  · intro hagree id hid
    have hv : e.occursFree ⟨"", id⟩ = true := by rw [← occurs_nameless]; exact hid
    have hsome := h ⟨"", id⟩
    rw [Bindings.assignment, Bindings.assignment]
    cases hvalue : bindings.get? ⟨"", id⟩ with
    | none =>
      rw [hvalue, Option.isSome_none, eq_comm, Option.isSome_eq_false_iff,
        Option.isNone_iff_eq_none]
        at hsome
      rw [hsome]
    | some value =>
      rw [hvalue, Option.isSome_some, eq_comm] at hsome
      obtain ⟨value', hvalue'⟩ := Option.isSome_iff_exists.1 hsome
      rw [hvalue']
      exact alphaEq_iff.1 (hagree _ hv value value' hvalue hvalue')

/-- **Opening agrees with instantiating, as long as no variable is bound twice to different
values.** Every statement can be opened, into one hole for each leading quantifier. With as many
values, the quantifiers can be instantiated one after the other, the first value for the outermost,
and filling the holes leads to the same up to bound names exactly if every variable that is free
below the quantifiers has the same value from its outermost and from its innermost quantifier. The
values may mention any variables and holes, and the counters need not be the same. -/
theorem fill_openAlls_alphaEq_iff {statement : Expression} {n : Nat} (hbelow : statement.Below n)
    (hholes : ∀ slot, statement.hasHole slot = true → slot.id < n) :
    ∃ slots body m, statement.openAlls.run n = ((slots, body), m) ∧
      slots.length = statement.splitAlls.1.length ∧
      ∀ values k k', values.length = slots.length → (∀ e ∈ values, e.Below k ∧ e.Below k') →
        m ≤ k → n ≤ k' → ∃ bound, ((statement.instantiateAll? values).run k').1 = some bound ∧
          (((body.fill (slots.zip values)).run k).1.alphaEq bound = true ↔
            ∀ v, statement.splitAlls.2.occursFree v = true → ∀ outermost innermost,
              Bindings.get? (statement.splitAlls.1.zip values) v = some outermost →
                Bindings.get? (statement.splitAlls.1.zip values).reverse v = some innermost →
                  outermost.alphaEq innermost = true) := by
  obtain ⟨slots, body, m, hopen, -, hids, -⟩ := openAlls_run hbelow
  have hslots : slots.length = statement.splitAlls.1.length := by
    rw [← List.length_map (·.id), hids, List.length_range']
  refine ⟨slots, body, m, hopen, hslots, fun values k k' hlength hvalues hk hk' ↦ ?_⟩
  obtain ⟨bound, hbound, hform⟩ := instantiateAll?_alls (hlength.trans hslots) (hbelow.mono hk')
    fun e he ↦ (hvalues e he).2
  refine ⟨bound, hbound, ?_⟩
  rw [alphaEq_iff, hform, fill_openAlls_nameless hbelow hholes hopen hlength
    (fun e he ↦ (hvalues e he).1) hk]
  exact assign_assignment_iff fun v ↦ (Bindings.isSome_get?_reverse _ v).symm

/-- The values are the variables of the quantifiers, exchanged: none is captured, whether they are
put at once or one after the other. -/
theorem fill_openAlls_exchanged :
    let x : Variable := ⟨"x", 0⟩
    let y : Variable := ⟨"y", 1⟩
    let statement : Expression := alls [x, y] (.call "R" [.var x, .var y])
    ∃ slots body m bound, statement.openAlls.run 2 = ((slots, body), m) ∧
      ((statement.instantiateAll? [.var y, .var x]).run 2).1 = some bound ∧
        ((body.fill (slots.zip [.var y, .var x])).run (m + 2)).1.alphaEq bound = true := by
  intro x y statement
  have hbelow : statement.Below 2 :=
    ⟨Nat.two_pos, Nat.one_lt_two, trivial, Nat.two_pos, Nat.one_lt_two, trivial⟩
  have hholes : ∀ slot, statement.hasHole slot = true → slot.id < 2 := fun _ h ↦ by cases h
  obtain ⟨slots, body, m, hopen, hslots, h⟩ := fill_openAlls_alphaEq_iff hbelow hholes
  obtain ⟨bound, hbound, hiff⟩ := h [.var y, .var x] (m + 2) 2 hslots.symm
    (by simpa using ⟨⟨Nat.lt_add_left m Nat.one_lt_two, Nat.one_lt_two⟩,
      Nat.lt_add_left m Nat.two_pos, Nat.two_pos⟩) (Nat.le_add_right m 2) (Nat.le_refl 2)
  refine ⟨slots, body, m, bound, hopen, hbound, hiff.2 fun v _ outermost innermost ho hi ↦ ?_⟩
  rw [Bindings.get?_reverse (by decide), ho] at hi
  cases hi
  exact alphaEq_iff.2 rfl

/-- A variable that is bound twice: the hole of the outermost quantifier is put for it, although it
belongs to the innermost. -/
theorem exists_opened_outermost :
    ∃ (statement : Expression) (values : List Expression),
      (statement.openAlls.run 11).1.1.length = values.length ∧
        ∃ bound, ((statement.instantiateAll? values).run 13).1 = some bound ∧
          (((statement.openAlls.run 11).1.2.fill
            ((statement.openAlls.run 11).1.1.zip values)).run 13).1.alphaEq bound = false := by
  let x : Variable := ⟨"x", 10⟩
  refine ⟨alls [x, x] (.call "P" [.var x]), [.symbol "a", .symbol "b"], rfl, ?_⟩
  simpa using (Option.any_eq_true (fun bound ↦ !alphaEq _ bound) _).1 (by decide +kernel)

end Expression

end NaturalDeduction
