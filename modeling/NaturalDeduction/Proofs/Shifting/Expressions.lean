import NaturalDeduction.Expression.Matching
import NaturalDeduction.Proofs.Nameless

/-!
# Shifting variables

Raising the numbers of all variables by the same amount changes nothing but numbers. What the
library asks of two variables is whether their numbers are equal, and that stays as it is; so every
question about shifted expressions has the answer that it has about the expressions themselves, and
what is made of shifted expressions is what is made of the expressions, shifted.

`Shift` is the class of types whose values mention variables. Values that mention none are kept
(`Shift.Constant`), and lists, pairs and results are shifted part by part.

The equations for constructors and fields are simp lemmas. Each question about expressions is then
one induction on the expression, with a lemma in front that does the step for lists of items, since
the items of an application are compared, matched and searched by a recursion of their own. The main
statements are `Expression.equalUnder_shift` and `Expression.matchUnder_shift`.
-/

namespace NaturalDeduction

/-- Types whose values mention variables. -/
class Shift (α : Type) where
  /-- Raises the numbers of all variables by `d`. -/
  shift (d : Nat) : α → α

export Shift (shift)

variable {α β ε : Type} {d : Nat}

/-- Types whose values mention no variables. -/
class Shift.Constant (α : Type) [Shift α] : Prop where
  shift_eq (d : Nat) (a : α) : shift d a = a

@[simp] theorem shift_constant [Shift α] [Shift.Constant α] (d : Nat) (a : α) : shift d a = a :=
  Shift.Constant.shift_eq d a

/-- Keeps every value. -/
@[reducible] def Shift.constant (α : Type) : Shift α := ⟨fun _ a ↦ a⟩

instance : Shift Unit := .constant Unit
instance : Shift.Constant Unit := ⟨fun _ _ ↦ rfl⟩
instance : Shift Bool := .constant Bool
instance : Shift.Constant Bool := ⟨fun _ _ ↦ rfl⟩
instance : Shift String := .constant String
instance : Shift.Constant String := ⟨fun _ _ ↦ rfl⟩
instance : Shift Rat := .constant Rat
instance : Shift.Constant Rat := ⟨fun _ _ ↦ rfl⟩

/-! ### Lists, pairs and results -/

section Containers

variable [Shift α] [Shift β] [Shift ε]

instance : Shift (Option α) := ⟨fun d ↦ Option.map (shift d)⟩
instance : Shift (List α) := ⟨fun d ↦ List.map (shift d)⟩
instance : Shift (α × β) := ⟨fun d p ↦ (shift d p.1, shift d p.2)⟩
instance : Shift (Except ε α) :=
  ⟨fun d result ↦ match result with | .ok a => .ok (shift d a) | .error e => .error (shift d e)⟩

@[simp] theorem shift_none : shift d (none : Option α) = none := rfl
@[simp] theorem shift_some (a : α) : shift d (some a) = some (shift d a) := rfl
@[simp] theorem shift_nil : shift d ([] : List α) = [] := rfl
@[simp] theorem shift_cons (a : α) (as : List α) :
    shift d (a :: as) = shift d a :: shift d as := rfl
@[simp] theorem shift_append (as bs : List α) :
    shift d (as ++ bs) = shift d as ++ shift d bs := List.map_append
@[simp] theorem shift_mk (a : α) (b : β) : shift d (a, b) = (shift d a, shift d b) := rfl
@[simp] theorem shift_ok (a : α) : shift d (.ok a : Except ε α) = .ok (shift d a) := rfl

theorem shift_eq_map (as : List α) : shift d as = as.map (shift d) := rfl

@[simp] theorem length_shift (as : List α) : (shift d as).length = as.length := List.length_map ..

@[simp] theorem isEmpty_shift (as : List α) : (shift d as).isEmpty = as.isEmpty := by
  cases as <;> rfl

instance [Shift.Constant α] : Shift.Constant (List α) :=
  ⟨fun d as ↦ (List.map_congr_left fun a _ ↦ shift_constant d a).trans (List.map_id as)⟩

instance [Shift.Constant α] : Shift.Constant (Option α) :=
  ⟨fun d a ↦ by cases a <;> simp⟩

/-- A question that has the same answer about shifted values finds the shifted value. -/
theorem find?_shift {p q : α → Bool} (h : ∀ a, q (shift d a) = p a) (as : List α) :
    (shift d as).find? q = shift d (as.find? p) := by
  have hpq : q ∘ shift d = p := funext h
  rw [shift_eq_map, List.find?_map, hpq]
  rfl

/-- Items are chosen alike if the question has the same answer about an item and its shift. -/
theorem filter_shift {p q : α → Bool} (h : ∀ a, q (shift d a) = p a) (as : List α) :
    (shift d as).filter q = shift d (as.filter p) := by
  have hpq : q ∘ shift d = p := funext h
  rw [shift_eq_map, List.filter_map, hpq]
  rfl

/-- Some item passes a test just if its shift passes the shifted test. -/
theorem any_shift {p q : α → Bool} {as : List α} (h : ∀ a ∈ as, q (shift d a) = p a) :
    (shift d as).any q = as.any p := by
  induction as with
  | nil => rfl
  | cons a rest ih =>
    obtain ⟨ha, hrest⟩ := List.forall_mem_cons.1 h
    rw [shift_cons, List.any_cons, List.any_cons, ha, ih hrest]

/-- Shifting passes through a map whose function commutes with it. -/
theorem map_shift {f g : α → β} (h : ∀ a, g (shift d a) = shift d (f a))
    (as : List α) : (shift d as).map g = shift d (as.map f) := by
  rw [shift_eq_map, shift_eq_map, List.map_map, List.map_map]
  exact List.map_congr_left fun a _ ↦ h a

theorem zip_shift (as : List α) (bs : List β) :
    (shift d as).zip (shift d bs) = shift d (as.zip bs) :=
  List.zip_map

@[simp] theorem reverse_shift (as : List α) : (shift d as).reverse = shift d as.reverse :=
  List.map_reverse.symm

@[simp] theorem take_shift (n : Nat) (as : List α) : (shift d as).take n = shift d (as.take n) :=
  List.map_take.symm

@[simp] theorem drop_shift (n : Nat) (as : List α) : (shift d as).drop n = shift d (as.drop n) :=
  List.map_drop.symm

@[simp] theorem getElem?_shift (as : List α) (i : Nat) : (shift d as)[i]? = shift d as[i]? :=
  List.getElem?_map

/-- The first answer found among shifted items is the first answer, shifted. -/
theorem findSome?_shift {f g : α → Option β} (h : ∀ a, g (shift d a) = shift d (f a))
    (as : List α) : (shift d as).findSome? g = shift d (as.findSome? f) := by
  induction as with
  | nil => rfl
  | cons a rest ih =>
    rw [shift_cons, List.findSome?_cons, List.findSome?_cons, h, ih]
    cases f a <;> rfl

/-- Shifting passes through a list that is put together from an answer for each item. -/
theorem flatMap_shift {f g : α → List β} (h : ∀ a, g (shift d a) = shift d (f a)) (as : List α) :
    (shift d as).flatMap g = shift d (as.flatMap f) := by
  induction as with
  | nil => rfl
  | cons a rest ih => rw [shift_cons, List.flatMap_cons, List.flatMap_cons, h, ih, shift_append]

@[simp] theorem set_shift (as : List α) (i : Nat) (a : α) :
    (shift d as).set i (shift d a) = shift d (as.set i a) := List.map_set.symm

theorem option_map_shift {f g : α → β} (h : ∀ a, g (shift d a) = shift d (f a)) (a : Option α) :
    (shift d a).map g = shift d (a.map f) := by
  cases a with
  | none => rfl
  | some a => exact congrArg some (h a)

/-- A computation that may have no result goes on with the shifted result as it goes on with the
result. -/
theorem option_bind_shift {f g : α → Option β} (a : Option α)
    (h : ∀ a, g (shift d a) = shift d (f a)) : shift d a >>= g = shift d (a >>= f) := by
  cases a with
  | none => rfl
  | some a => exact h a

/-- If each item has the shifted result or none, so has the list. -/
theorem option_mapM_shift {f g : α → Option β} (h : ∀ a, g (shift d a) = shift d (f a))
    (as : List α) : (shift d as).mapM g = shift d (as.mapM f) := by
  induction as with
  | nil => rfl
  | cons a rest ih =>
    rw [shift_cons, List.mapM_cons, List.mapM_cons, h, ih]
    exact option_bind_shift (f a) fun b ↦ option_bind_shift (rest.mapM f) fun bs ↦ rfl

/-- A computation that may end in an error goes on with the shifted result as it goes on with the
result. -/
theorem bind_shift {f : α → Except ε β} {g : α → Except ε β} (result : Except ε α)
    (h : ∀ a, g (shift d a) = shift d (f a)) :
    shift d result >>= g = shift d (result >>= f) := by
  cases result with
  | error e => rfl
  | ok a => exact h a

/-- The same for an intermediate result that mentions no variables. -/
theorem bind_shift_constant [Shift.Constant α] {f g : α → Except ε β} (result : Except ε α)
    (h : ∀ a, g a = shift d (f a)) : shift d result >>= g = shift d (result >>= f) :=
  bind_shift result fun a ↦ (congrArg g (shift_constant d a)).trans (h a)

/-- The same for an intermediate result that is known to be shifted. -/
theorem bind_shift_of_eq [Shift.Constant α] {f g : α → Except ε β} {result result' : Except ε α}
    (hresult : result' = shift d result) (h : ∀ a, g a = shift d (f a)) :
    result' >>= g = shift d (result >>= f) :=
  hresult ▸ bind_shift_constant result h

end Containers

/-! ### Expressions -/

instance : Shift Variable := ⟨fun d v ↦ ⟨v.hint, v.id + d⟩⟩

@[simp] theorem Variable.id_shift (v : Variable) : (shift d v).id = v.id + d := rfl

/-- Two variables stay different, or the same. -/
theorem Variable.id_shift_beq (v w : Variable) :
    ((shift d v).id == (shift d w).id) = (v.id == w.id) := by
  rw [Bool.eq_iff_iff, beq_iff_eq, beq_iff_eq]
  exact Nat.add_right_cancel_iff

instance : Shift Atom where
  shift d
    | .var v => .var (shift d v)
    | .hole v => .hole (shift d v)
    | a => a

/-- Atoms are the same just if their shifts are: variables are compared by number. -/
@[simp] theorem Atom.same_shift (a b : Atom) : (shift d a).same (shift d b) = a.same b := by
  cases a <;> cases b <;> first | rfl | exact Variable.id_shift_beq _ _

namespace Expression

mutual

/-- Raises the numbers of all variables, bound ones and holes included. -/
def raise (d : Nat) : Expression → Expression
  | atom a => atom (shift d a)
  | binder kind v body => binder kind (shift d v) (raise d body)
  | implies a b => implies (raise d a) (raise d b)
  | equals a b => equals (raise d a) (raise d b)
  | application items => application (raiseAll d items)

/-- The same for a list of expressions. -/
def raiseAll (d : Nat) : List Expression → List Expression
  | [] => []
  | e :: rest => raise d e :: raiseAll d rest

end

instance : Shift Expression := ⟨raise⟩

/-- The recursion over items is the shift of the list of items. -/
theorem raiseAll_eq_shift (es : List Expression) : raiseAll d es = shift d es := by
  induction es with
  | nil => rfl
  | cons e rest ih => exact congrArg (raise d e :: ·) ih

@[simp] theorem shift_atom (a : Atom) : shift d (atom a) = atom (shift d a) := rfl

@[simp] theorem shift_binder (kind : BinderKind) (v : Variable) (body : Expression) :
    shift d (binder kind v body) = binder kind (shift d v) (shift d body) := rfl

@[simp] theorem shift_implies (a b : Expression) :
    shift d (implies a b) = implies (shift d a) (shift d b) := rfl

@[simp] theorem shift_equals (a b : Expression) :
    shift d (equals a b) = equals (shift d a) (shift d b) := rfl

@[simp] theorem shift_application (items : List Expression) :
    shift d (application items) = application (shift d items) :=
  congrArg application (raiseAll_eq_shift items)

@[simp] theorem shift_var (v : Variable) : shift d (var v) = var (shift d v) := rfl

@[simp] theorem shift_hole (v : Variable) : shift d (hole v) = hole (shift d v) := rfl

@[simp] theorem shift_call (head : String) (args : List Expression) :
    shift d (call head args) = call head (shift d args) := shift_application _

@[simp] theorem shift_negation (e : Expression) : shift d e.negation = (shift d e).negation :=
  shift_application _

@[simp] theorem shift_all (v : Variable) (body : Expression) :
    shift d (all v body) = all (shift d v) (shift d body) := rfl

/-- Nested binders are shifted one by one. -/
@[simp] theorem shift_binders (kind : BinderKind) (vs : List Variable) (body : Expression) :
    shift d (binders kind vs body) = binders kind (shift d vs) (shift d body) := by
  induction vs with
  | nil => rfl
  | cons v rest ih => exact congrArg (binder kind (shift d v)) ih

@[simp] theorem shift_alls (vs : List Variable) (body : Expression) :
    shift d (alls vs body) = alls (shift d vs) (shift d body) := shift_binders .universal vs body

/-- Nested implications are shifted part by part. -/
@[simp] theorem shift_rules (conditions : List Expression) (conclusion : Expression) :
    shift d (rules conditions conclusion) = rules (shift d conditions) (shift d conclusion) := by
  induction conditions with
  | nil => rfl
  | cons c rest ih => exact congrArg (implies (shift d c)) ih

/-- Only a quantification is shifted to a quantification. -/
theorem exists_eq_all_of_shift_eq_all {e body : Expression} {v : Variable}
    (h : shift d e = all v body) : ∃ w b, e = all w b := by
  cases e with
  | binder kind w b =>
    cases h
    exact ⟨w, b, rfl⟩
  | application items =>
    rw [shift_application] at h
    cases h
  | _ => cases h

/-! ### Parts -/

/-- Shifting keeps the number of nodes. -/
@[simp] theorem size_shift (e : Expression) : (shift d e).size = e.size := by
  induction e with
  | atom a => rfl
  | binder kind v body ih => rw [shift_binder, size, size, ih]
  | implies a b iha ihb => rw [shift_implies, size, size, iha, ihb]
  | equals a b iha ihb => rw [shift_equals, size, size, iha, ihb]
  | application items ih =>
    rw [shift_application, size, size]
    congr 1
    induction items with
    | nil => rfl
    | cons e rest ih' =>
      obtain ⟨he, hrest⟩ := List.forall_mem_cons.1 ih
      rw [shift_cons, sizes, sizes, he, ih' hrest]

@[simp] theorem head?_shift (e : Expression) : (shift d e).head? = e.head? := by
  cases e with
  | application items =>
    rw [shift_application]
    cases items with
    | nil => rfl
    | cons e rest =>
      cases e with
      | atom a => cases a <;> rfl
      | _ => rfl
  | _ => rfl

@[simp] theorem args_shift (e : Expression) : (shift d e).args = shift d e.args := by
  cases e with
  | application items =>
    rw [shift_application]
    cases items <;> rfl
  | _ => rfl

/-- The leading quantifiers of a shifted statement are those of the statement, shifted. -/
@[simp] theorem splitAlls_shift (e : Expression) : (shift d e).splitAlls = shift d e.splitAlls := by
  induction e with
  | binder kind v body ih =>
    cases kind with
    | universal =>
      rw [shift_binder, splitAlls, ih]
      rfl
    | _ => rfl
  | application items => rw [shift_application]; simp [splitAlls]
  | _ => rfl

/-- Conditions and conclusion of a shifted rule are those of the rule, shifted. -/
@[simp] theorem splitRules_shift (e : Expression) :
    (shift d e).splitRules = shift d e.splitRules := by
  induction e with
  | implies a b iha ihb =>
    rw [shift_implies, splitRules, ihb]
    rfl
  | application items => rw [shift_application]; simp [splitRules]
  | _ => rfl

/-! ### Variables that occur -/

/-- A shifted variable occurs free in a shifted expression just if it did before: binders are raised
by the same amount. -/
@[simp] theorem occursFree_shift (v : Variable) (e : Expression) :
    (shift d e).occursFree (shift d v) = e.occursFree v := by
  induction e with
  | atom a =>
    cases a with
    | var w => exact Variable.id_shift_beq w v
    | _ => rfl
  | binder kind w body ih =>
    rw [shift_binder, occursFree, occursFree, ih, bne, bne, Variable.id_shift_beq]
  | implies a b iha ihb => rw [shift_implies, occursFree, occursFree, iha, ihb]
  | equals a b iha ihb => rw [shift_equals, occursFree, occursFree, iha, ihb]
  | application items ih =>
    rw [shift_application, occursFree, occursFree, occursFreeIn_eq_any, occursFreeIn_eq_any]
    exact any_shift ih

@[simp] theorem hasHoles_shift (e : Expression) : (shift d e).hasHoles = e.hasHoles := by
  induction e with
  | atom a => cases a <;> rfl
  | binder kind w body ih => rw [shift_binder, hasHoles, hasHoles, ih]
  | implies a b iha ihb => rw [shift_implies, hasHoles, hasHoles, iha, ihb]
  | equals a b iha ihb => rw [shift_equals, hasHoles, hasHoles, iha, ihb]
  | application items ih =>
    rw [shift_application, hasHoles, hasHoles, haveHoles_eq_any, haveHoles_eq_any]
    exact any_shift ih

/-- The free variables come in the same order, shifted, whatever was bound around the expression. -/
theorem unbound_shift (bound : List Variable) (e : Expression) :
    (shift d e).unbound (shift d bound) = shift d (e.unbound bound) := by
  induction e generalizing bound with
  | atom a =>
    cases a with
    | var v =>
      have hany : (shift d bound).any (·.id == (shift d v).id) = bound.any (·.id == v.id) :=
        any_shift fun w _ ↦ Variable.id_shift_beq w v
      show (if (shift d bound).any (·.id == (shift d v).id) then [] else [shift d v]) = _
      rw [hany, unbound]
      split <;> rfl
    | _ => rfl
  | binder kind w body ih => exact ih (w :: bound)
  | implies a b iha ihb => rw [shift_implies, unbound, unbound, iha, ihb, shift_append]
  | equals a b iha ihb => rw [shift_equals, unbound, unbound, iha, ihb, shift_append]
  | application items ih =>
    rw [shift_application, unbound, unbound]
    induction items with
    | nil => rfl
    | cons e rest ih' =>
      obtain ⟨he, hrest⟩ := List.forall_mem_cons.1 ih
      rw [shift_cons, unboundIn, unboundIn, he, ih' hrest, shift_append]

/-- Inserting into a sorted list of variables leaves at least one. -/
theorem isEmpty_insertById (v : Variable) (vs : List Variable) :
    (v.insertById vs).isEmpty = false := by
  cases vs with
  | nil => rfl
  | cons w vs =>
    unfold Variable.insertById
    split
    · rfl
    · split <;> rfl

/-- Insertions end with no variable only if there was none and none came. -/
theorem isEmpty_foldl_insertById (vs ws : List Variable) :
    (vs.foldl (fun ws v ↦ v.insertById ws) ws).isEmpty = (ws.isEmpty && vs.isEmpty) := by
  induction vs generalizing ws with
  | nil => rw [List.foldl_nil, List.isEmpty_nil, Bool.and_true]
  | cons v rest ih =>
    rw [List.foldl_cons, ih, isEmpty_insertById, List.isEmpty_cons, Bool.false_and, Bool.and_false]

/-- Whether an expression is ground is a question about emptiness, so shifting keeps the answer. -/
@[simp] theorem isGround_shift (e : Expression) : (shift d e).isGround = e.isGround := by
  have hunbound := unbound_shift (d := d) [] e
  rw [isGround, isGround, freeVariables, freeVariables, isEmpty_foldl_insertById,
    isEmpty_foldl_insertById, hasHoles_shift, ← isEmpty_shift (d := d) (e.unbound []), ← hunbound]
  rfl

/-! ### Equality up to bound names -/

/-- Bound variables are paired alike: the innermost pair that mentions either decides, by number. -/
theorem relates_shift (pairs : Pairing) (v w : Variable) :
    Pairing.relates (shift d pairs) (shift d v) (shift d w) = pairs.relates v w := by
  induction pairs with
  | nil => exact Variable.id_shift_beq v w
  | cons p outer ih =>
    obtain ⟨a, b⟩ := p
    rw [Bool.eq_iff_iff, shift_cons, shift_mk, Pairing.relates_cons_iff,
      Pairing.relates_cons_iff, ih]
    simp

/-- Lists are compared item by item, so their comparison is not changed if that of their items is
not. -/
theorem equalAllUnder_shift {leeway : Leeway} {pairs : Pairing} {as : List Expression}
    (h : ∀ a ∈ as, ∀ b,
      equalUnder leeway (shift d pairs) (shift d a) (shift d b) = equalUnder leeway pairs a b)
    (bs : List Expression) : equalAllUnder leeway (shift d pairs) (shift d as) (shift d bs) =
      equalAllUnder leeway pairs as bs := by
  induction as generalizing bs with
  | nil => cases bs <;> rfl
  | cons a as ih =>
    obtain ⟨ha, has⟩ := List.forall_mem_cons.1 h
    cases bs with
    | nil => rfl
    | cons b bs =>
      rw [shift_cons, shift_cons, equalAllUnder, equalAllUnder, ha, ih has]

/-- A list that starts with a symbol did so before it was shifted. -/
theorem eq_of_shift_eq_symbol_cons {as bs : List Expression} {name : String}
    (h : shift d as = atom (.symbol name) :: bs) :
    ∃ rest, as = atom (.symbol name) :: rest ∧ shift d rest = bs := by
  cases as with
  | nil => cases h
  | cons a rest =>
    obtain ⟨ha, hrest⟩ := List.cons.inj h
    cases a with
    | atom s =>
      cases s with
      | symbol other => cases ha; exact ⟨rest, rfl, hrest⟩
      | _ => cases ha
    | application items =>
      rw [shift_application] at ha
      cases ha
    | _ => cases ha

/-- Only two items are shifted to two items. -/
theorem eq_pair_of_shift_eq_pair {es : List Expression} {a b : Expression}
    (h : shift d es = [a, b]) : ∃ a' b', es = [a', b'] := by
  match es, h with
  | [a', b'], _ => exact ⟨a', b', rfl⟩

/-- The comparison of exchanged operands is not changed, either; it looks at lists of two. -/
theorem equalCrossedUnder_shift {leeway : Leeway} {pairs : Pairing} {as : List Expression}
    (h : ∀ a ∈ as, ∀ b,
      equalUnder leeway (shift d pairs) (shift d a) (shift d b) = equalUnder leeway pairs a b)
    (bs : List Expression) : equalCrossedUnder leeway (shift d pairs) (shift d as) (shift d bs) =
      equalCrossedUnder leeway pairs as bs := by
  fun_cases equalCrossedUnder leeway pairs as bs with
  | case1 f a b g c e =>
    have ha := h a (by simp)
    have hb := h b (by simp)
    show equalCrossedUnder leeway (shift d pairs) [symbol f, shift d a, shift d b]
      [symbol g, shift d c, shift d e] = _
    rw [symbol, symbol, equalCrossedUnder, ha, hb]
  | case2 =>
    rename_i hother
    unfold equalCrossedUnder
    split
    · rename_i f a b g c e has hbs
      obtain ⟨rest, rfl, hrest⟩ := eq_of_shift_eq_symbol_cons has
      obtain ⟨rest', rfl, hrest'⟩ := eq_of_shift_eq_symbol_cons hbs
      obtain ⟨a₀, b₀, rfl⟩ := eq_pair_of_shift_eq_pair hrest
      obtain ⟨c₀, e₀, rfl⟩ := eq_pair_of_shift_eq_pair hrest'
      exact (hother f a₀ b₀ g c₀ e₀ rfl rfl).elim
    · rfl

/-- **Comparing shifted expressions is comparing the expressions**, with every leeway and under
every pairing. -/
@[simp] theorem equalUnder_shift (leeway : Leeway) (pairs : Pairing) (a b : Expression) :
    equalUnder leeway (shift d pairs) (shift d a) (shift d b) = equalUnder leeway pairs a b := by
  induction a generalizing pairs b with
  | atom s =>
    cases b with
    | atom t =>
      cases s <;> cases t <;>
        first | rfl | exact relates_shift pairs _ _ | exact Atom.same_shift _ _
    | application items => rw [shift_application]; cases s <;> rfl
    | _ => cases s <;> rfl
  | binder k v a ih =>
    cases b with
    | binder l w b =>
      rw [shift_binder, shift_binder, equalUnder, equalUnder, ← ih ((v, w) :: pairs)]
      rfl
    | application items => rw [shift_application]; rfl
    | _ => rfl
  | implies a c iha ihc =>
    cases b with
    | implies b e => rw [shift_implies, shift_implies, equalUnder, equalUnder, iha, ihc]
    | application items => rw [shift_application]; rfl
    | _ => rfl
  | equals a c iha ihc =>
    cases b with
    | equals b e =>
      rw [shift_equals, shift_equals, equalUnder, equalUnder, iha, ihc, iha, ihc]
    | application items => rw [shift_application]; rfl
    | _ => rfl
  | application as ih =>
    rw [shift_application]
    cases b with
    | application bs =>
      have h : ∀ a ∈ as, ∀ b, equalUnder leeway (shift d pairs) (shift d a) (shift d b) =
          equalUnder leeway pairs a b := fun a ha b ↦ ih a ha pairs b
      rw [shift_application, equalUnder, equalUnder, equalAllUnder_shift h,
        equalCrossedUnder_shift h]
    | _ => rfl

/-- The same for expressions that stand alone. -/
@[simp] theorem equalUpTo_shift (leeway : Leeway) (a b : Expression) :
    (shift d a).equalUpTo leeway (shift d b) = a.equalUpTo leeway b :=
  equalUnder_shift leeway [] a b

@[simp] theorem alphaEq_shift (a b : Expression) : (shift d a).alphaEq (shift d b) = a.alphaEq b :=
  equalUpTo_shift .none a b

end Expression

/-! ### Matching -/

/-- What a hole is bound to is looked up by its number, so the shifted hole has the shifted value.
-/
theorem Bindings.get?_shift (bindings : Bindings) (slot : Variable) :
    Bindings.get? (shift d bindings) (shift d slot) = shift d (bindings.get? slot) := by
  have hfind : (shift d bindings).find? (·.1.id == (shift d slot).id) =
      shift d (bindings.find? (·.1.id == slot.id)) :=
    find?_shift (fun p ↦ Variable.id_shift_beq p.1 slot) bindings
  rw [get?, get?, hfind]
  cases bindings.find? (·.1.id == slot.id) <;> rfl

namespace Expression

/-- Lists are matched item by item, each with the bindings that those before it left. -/
theorem matchAllUnder_shift {pairs : Pairing} {as : List Expression}
    (h : ∀ a ∈ as, ∀ (known : Bindings) (b : Expression),
      matchUnder (shift d pairs) (shift d known) (shift d a) (shift d b) =
        shift d (matchUnder pairs known a b)) (known : Bindings) (bs : List Expression) :
    matchAllUnder (shift d pairs) (shift d known) (shift d as) (shift d bs) =
      shift d (matchAllUnder pairs known as bs) := by
  induction as generalizing known bs with
  | nil => cases bs <;> rfl
  | cons a as ih =>
    obtain ⟨ha, has⟩ := List.forall_mem_cons.1 h
    cases bs with
    | nil => rfl
    | cons b bs =>
      rw [shift_cons, shift_cons, matchAllUnder, matchAllUnder, ha]
      exact option_bind_shift _ fun known' ↦ ih has known' bs

/-- A hole meets the shifted term as it meets the term. It is new, or bound to an equal term, or it
must not be bound to what it meets. -/
theorem matchUnder_hole_shift (pairs : Pairing) (known : Bindings) (slot : Variable)
    (b : Expression) :
    matchUnder (shift d pairs) (shift d known) (atom (.hole (shift d slot))) (shift d b) =
      shift d (matchUnder pairs known (atom (.hole slot)) b) := by
  have hany : (shift d pairs).any (fun p ↦ (shift d b).occursFree p.2) =
      pairs.any fun p ↦ b.occursFree p.2 := any_shift fun p _ ↦ occursFree_shift p.2 b
  rw [matchUnder, matchUnder, hany, Bindings.get?_shift]
  split
  · rfl
  · cases known.get? slot with
    | none => rfl
    | some value =>
      rw [shift_some]
      dsimp only
      rw [alphaEq_shift]
      split <;> rfl

/-- **Matching a shifted pattern against a shifted term** succeeds just if the pattern matches the
term, with the bindings shifted. -/
theorem matchUnder_shift (pairs : Pairing) (known : Bindings) (a b : Expression) :
    matchUnder (shift d pairs) (shift d known) (shift d a) (shift d b) =
      shift d (matchUnder pairs known a b) := by
  induction a generalizing pairs known b with
  | atom s =>
    cases s with
    | hole slot => exact matchUnder_hole_shift pairs known slot b
    | var v =>
      cases b with
      | atom t =>
        cases t with
        | var w =>
          show (if Pairing.relates (shift d pairs) (shift d v) (shift d w) then
            some (shift d known) else none) = _
          rw [relates_shift, matchUnder]
          split <;> rfl
        | _ => rfl
      | application items => rw [shift_application]; rfl
      | _ => rfl
    | symbol | text | number =>
      cases b with
      | atom t =>
        cases t with
        | symbol | text | number =>
          rw [shift_atom, shift_atom]
          first | rfl | (unfold matchUnder; dsimp only [shift]; split <;> rfl)
        | _ => rfl
      | application items => rw [shift_application]; rfl
      | _ => rfl
  | binder k v a ih =>
    cases b with
    | binder l w b =>
      rw [shift_binder, shift_binder, matchUnder, matchUnder]
      split
      · exact ih ((v, w) :: pairs) known b
      · rfl
    | application items => rw [shift_application]; rfl
    | _ => rfl
  | implies a c iha ihc =>
    cases b with
    | implies b e =>
      rw [shift_implies, shift_implies, matchUnder, matchUnder, iha]
      exact option_bind_shift _ fun known' ↦ ihc pairs known' e
    | application items => rw [shift_application]; rfl
    | _ => rfl
  | equals a c iha ihc =>
    cases b with
    | equals b e =>
      rw [shift_equals, shift_equals, matchUnder, matchUnder, iha]
      exact option_bind_shift _ fun known' ↦ ihc pairs known' e
    | application items => rw [shift_application]; rfl
    | _ => rfl
  | application as ih =>
    rw [shift_application]
    cases b with
    | application bs =>
      rw [shift_application, matchUnder, matchUnder]
      exact matchAllUnder_shift (fun a ha known b ↦ ih a ha pairs known b) known bs
    | _ => rfl

/-- The same for a pattern and a term that stand alone. -/
@[simp] theorem match?_shift (pattern term : Expression) :
    (shift d pattern).match? (shift d term) = shift d (pattern.match? term) :=
  matchUnder_shift [] [] pattern term

end Expression

end NaturalDeduction
