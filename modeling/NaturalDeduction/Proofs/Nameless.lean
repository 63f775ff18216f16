import NaturalDeduction.Expression.Alpha

/-!
# Nameless forms

The nameless form of an expression has an index in place of every bound variable: the number of
binders between the occurrence and the binder that it belongs to. Free variables keep their numbers,
and nothing keeps a hint. So the names of bound variables are gone, and what is left of two
expressions can be compared by plain equality.

The form is taken under a *scope*: the numbers of the variables bound above, innermost first. A
number that is bound twice resolves to the innermost of its binders (`Expression.resolve`), which is
all that shadowing comes to.

Main statements:

* `equalUnder_none_iff`: comparing two expressions under pairs of variables is comparing their forms
  under the two scopes that the pairs list. The invariant is `relates_iff`: two occurrences are
  related by the pairs exactly if they resolve to one and the same thing.
* `alphaEq_isExact`: equality up to the names of bound variables is equality of nameless forms, so
  it is an equivalence, and it never takes a bound variable for a free one.
* `namelessIn_eq_iff`: the scope under which two forms are compared does not matter.
-/

namespace NaturalDeduction

/-- Expressions without the names of bound variables. -/
inductive Nameless where
  | symbol (name : String)
  | text (contents : String)
  | number (value : Rat)
  | hole (id : Nat)
  /-- A free variable, by its number. -/
  | free (id : Nat)
  /-- A bound variable, by the number of binders between it and its own. -/
  | bound (index : Nat)
  | binder (kind : BinderKind) (body : Nameless)
  | implies (condition conclusion : Nameless)
  | equals (left right : Nameless)
  | application (items : List Nameless)
  deriving Inhabited

namespace Nameless

/-- Induction with a hypothesis for every item of an application. -/
@[elab_as_elim, induction_eliminator]
theorem induction {P : Nameless → Prop} (symbol : ∀ name, P (symbol name))
    (text : ∀ contents, P (text contents)) (number : ∀ value, P (number value))
    (hole : ∀ id, P (hole id)) (free : ∀ id, P (free id)) (bound : ∀ index, P (bound index))
    (binder : ∀ kind body, P body → P (binder kind body))
    (implies : ∀ a b, P a → P b → P (implies a b)) (equals : ∀ a b, P a → P b → P (equals a b))
    (application : ∀ items, (∀ t ∈ items, P t) → P (application items)) (t : Nameless) : P t :=
  Nameless.rec (motive_1 := P) (motive_2 := fun ts ↦ ∀ t ∈ ts, P t) symbol text number hole free
    bound binder implies equals application (by simp)
    (fun _ _ ht hts ↦ by simpa using ⟨ht, hts⟩) t

/-! ### Equality is decidable -/

mutual

/-- Whether two forms are the same. -/
def same : Nameless → Nameless → Bool
  | symbol a, symbol b => a == b
  | text a, text b => a == b
  | number a, number b => a == b
  | hole a, hole b => a == b
  | free a, free b => a == b
  | bound a, bound b => a == b
  | binder k a, binder l b => k == l && same a b
  | implies a b, implies c d => same a c && same b d
  | equals a b, equals c d => same a c && same b d
  | application as, application bs => sameAll as bs
  | _, _ => false

/-- Whether two lists of forms are the same. -/
def sameAll : List Nameless → List Nameless → Bool
  | [], [] => true
  | a :: as, b :: bs => same a b && sameAll as bs
  | _, _ => false

end

/-- The step from operands to lists of them. -/
theorem sameAll_iff {as bs : List Nameless} (h : ∀ a ∈ as, ∀ b, same a b = true ↔ a = b) :
    sameAll as bs = true ↔ as = bs := by
  induction as generalizing bs with
  | nil => cases bs <;> simp [sameAll]
  | cons a as ih =>
    cases bs with
    | nil => simp [sameAll]
    | cons b bs =>
      rw [sameAll, Bool.and_eq_true, h a List.mem_cons_self b,
        ih fun c hc ↦ h c (List.mem_cons_of_mem a hc), List.cons.injEq]

/-- The decision agrees with equality, which makes equality of forms decidable by evaluation. -/
theorem same_iff {s t : Nameless} : same s t = true ↔ s = t := by
  induction s generalizing t with
  | application as ih =>
    cases t with
    | application bs => rw [same, sameAll_iff fun a ha b ↦ ih a ha, application.injEq]
    | _ => simp [same]
  | binder k a ih => cases t <;> simp [same, ih]
  | implies a b iha ihb => cases t <;> simp [same, iha, ihb]
  | equals a b iha ihb => cases t <;> simp [same, iha, ihb]
  | _ => cases t <;> simp [same]

instance : DecidableEq Nameless := fun _ _ ↦ decidable_of_iff _ same_iff

/-! ### Free variables -/

mutual

/-- Whether the free variable with a number occurs. -/
def occurs (id : Nat) : Nameless → Bool
  | free i => i == id
  | binder _ body => occurs id body
  | implies a b => occurs id a || occurs id b
  | equals a b => occurs id a || occurs id b
  | application items => occursIn id items
  | _ => false

/-- Whether the free variable with a number occurs in one of the forms. -/
def occursIn (id : Nat) : List Nameless → Bool
  | [] => false
  | t :: rest => occurs id t || occursIn id rest

end

/-- A number occurs in a list if it does in an item. -/
theorem occursIn_eq_any (id : Nat) (ts : List Nameless) : occursIn id ts = ts.any (occurs id) := by
  induction ts with
  | nil => rfl
  | cons t rest ih => rw [occursIn, ih, List.any_cons]

end Nameless

namespace Expression

/-- Induction with a hypothesis for every item of an application. -/
@[elab_as_elim, induction_eliminator]
theorem induction {P : Expression → Prop} (atom : ∀ a, P (atom a))
    (binder : ∀ kind v body, P body → P (binder kind v body))
    (implies : ∀ a b, P a → P b → P (implies a b)) (equals : ∀ a b, P a → P b → P (equals a b))
    (application : ∀ items, (∀ e ∈ items, P e) → P (application items)) (e : Expression) : P e :=
  Expression.rec (motive_1 := P) (motive_2 := fun es ↦ ∀ e ∈ es, P e) atom binder implies equals
    application (by simp) (fun _ _ he hes ↦ by simpa using ⟨he, hes⟩) e

/-! ### The form of an expression -/

/-- What the variable with a number is under the binders of a scope. -/
def resolve (scope : List Nat) (id : Nat) : Nameless :=
  match scope.idxOf? id with
  | some index => .bound index
  | none => .free id

mutual

/-- The nameless form under a scope. -/
def namelessIn (scope : List Nat) : Expression → Nameless
  | atom (.symbol name) => .symbol name
  | atom (.text contents) => .text contents
  | atom (.number value) => .number value
  | atom (.hole v) => .hole v.id
  | atom (.var v) => resolve scope v.id
  | binder kind v body => .binder kind (namelessIn (v.id :: scope) body)
  | implies a b => .implies (namelessIn scope a) (namelessIn scope b)
  | equals a b => .equals (namelessIn scope a) (namelessIn scope b)
  | application items => .application (namelessAllIn scope items)

/-- The nameless forms of a list of expressions. -/
def namelessAllIn (scope : List Nat) : List Expression → List Nameless
  | [] => []
  | e :: rest => namelessIn scope e :: namelessAllIn scope rest

end

/-- The form of a list is the list of forms. -/
theorem namelessAllIn_eq_map (scope : List Nat) (es : List Expression) :
    namelessAllIn scope es = es.map (namelessIn scope) := by
  induction es with
  | nil => rfl
  | cons e rest ih => rw [namelessAllIn, ih, List.map_cons]

/-- The nameless form. -/
def nameless (e : Expression) : Nameless := e.namelessIn []

/-! ### Resolving variables -/

theorem resolve_nil (id : Nat) : resolve [] id = .free id := rfl

/-- The innermost variable has the index zero. -/
theorem resolve_cons_self (id : Nat) (scope : List Nat) : resolve (id :: scope) id = .bound 0 := by
  simp [resolve, List.idxOf?_cons]

/-- What the scope does not bind is free. -/
theorem resolve_of_notMem {scope : List Nat} {id : Nat} (h : id ∉ scope) :
    resolve scope id = .free id := by
  rw [resolve, List.idxOf?_eq_none_iff.2 h]

/-- A variable is never a compound form. -/
theorem resolve_eq_bound_or_free (scope : List Nat) (id : Nat) :
    (∃ index, resolve scope id = .bound index) ∨ resolve scope id = .free id := by
  rw [resolve]
  cases scope.idxOf? id with
  | some index => exact .inl ⟨index, rfl⟩
  | none => exact .inr rfl

/-- The form of an atom has no parts. -/
theorem ne_namelessIn_atom (a : Atom) (scope : List Nat) :
    (∀ kind t, .binder kind t ≠ (atom a).namelessIn scope) ∧
      (∀ s t, .implies s t ≠ (atom a).namelessIn scope) ∧
      (∀ s t, .equals s t ≠ (atom a).namelessIn scope) ∧
      ∀ ts, .application ts ≠ (atom a).namelessIn scope := by
  cases a with
  | var v =>
    obtain ⟨index, h⟩ | h := resolve_eq_bound_or_free scope v.id <;> simp [namelessIn, h]
  | _ => simp [namelessIn]

/-- Under one more binder, two variables other than its own resolve alike if they did before. -/
theorem resolve_cons_eq_iff {a b i j : Nat} {s t : List Nat} (ha : a ≠ i) (hb : b ≠ j) :
    resolve (a :: s) i = resolve (b :: t) j ↔ resolve s i = resolve t j := by
  simp only [resolve, List.idxOf?_cons, beq_iff_eq, ha, hb, if_false]
  cases s.idxOf? i <;> cases t.idxOf? j <;> simp

/-- A bound variable is not what another variable resolves to below its own binder. -/
theorem resolve_cons_self_ne {i j b : Nat} {s t : List Nat} (hb : b ≠ j) :
    resolve (i :: s) i ≠ resolve (b :: t) j := by
  simp only [resolve, List.idxOf?_cons, beq_self_eq_true, if_true, beq_iff_eq, hb, if_false]
  cases t.idxOf? j <;> simp

/-- Pairs relate two occurrences exactly if these resolve to one thing, each on its own side. -/
theorem relates_iff {pairs : Pairing} {v w : Variable} :
    pairs.relates v w = true ↔
      resolve (pairs.map (·.1.id)) v.id = resolve (pairs.map (·.2.id)) w.id := by
  induction pairs with
  | nil => simp [resolve_nil]
  | cons p outer ih =>
    obtain ⟨a, b⟩ := p
    rw [Pairing.relates_cons_iff, ih, List.map_cons, List.map_cons]
    by_cases ha : a.id = v.id <;> by_cases hb : b.id = w.id
    · simp [ha, hb, resolve_cons_self]
    · simp [ha, hb, resolve_cons_self_ne hb]
    · simp [ha, hb, (resolve_cons_self_ne ha).symm]
    · simp [ha, hb, resolve_cons_eq_iff ha hb]

/-! ### Equality up to bound names -/

/-- The step from operands to lists of them. -/
theorem equalAllUnder_iff {s t : List Nat} {pairs : Pairing} {as bs : List Expression}
    (h : ∀ a ∈ as, ∀ b, equalUnder .none pairs a b = true ↔ a.namelessIn s = b.namelessIn t) :
    equalAllUnder .none pairs as bs = true ↔ namelessAllIn s as = namelessAllIn t bs := by
  induction as generalizing bs with
  | nil => cases bs <;> simp [equalAllUnder, namelessAllIn]
  | cons a as ih =>
    cases bs with
    | nil => simp [equalAllUnder, namelessAllIn]
    | cons b bs =>
      rw [equalAllUnder, Bool.and_eq_true, h a List.mem_cons_self b,
        ih fun c hc ↦ h c (List.mem_cons_of_mem a hc), namelessAllIn, namelessAllIn,
        List.cons.injEq]

/-- Comparing expressions under pairs of variables is comparing their forms under the two scopes
that the pairs list. -/
theorem equalUnder_none_iff {pairs : Pairing} {a b : Expression} :
    equalUnder .none pairs a b = true ↔
      a.namelessIn (pairs.map (·.1.id)) = b.namelessIn (pairs.map (·.2.id)) := by
  induction a generalizing pairs b with
  | atom x =>
    cases b with
    | atom y =>
      cases x <;> cases y <;>
        -- two variables may both be bound, and then the scopes decide
        simp [equalUnder, namelessIn, Atom.same, relates_iff, resolve] <;> split <;> simp
    | _ =>
      cases x <;> simp [equalUnder, namelessIn, resolve]
      split <;> simp
  | binder k v a ih =>
    cases b with
    | binder l w b => simp [equalUnder, namelessIn, ih]
    | atom y => simp [equalUnder, namelessIn, ne_namelessIn_atom]
    | _ => simp [equalUnder, namelessIn]
  | implies a c iha ihc =>
    cases b with
    | implies b d => simp [equalUnder, namelessIn, iha, ihc]
    | atom y => simp [equalUnder, namelessIn, ne_namelessIn_atom]
    | _ => simp [equalUnder, namelessIn]
  | equals a c iha ihc =>
    cases b with
    | equals b d => simp [equalUnder_none_equals, namelessIn, iha, ihc]
    | atom y => simp [equalUnder, namelessIn, ne_namelessIn_atom]
    | _ => simp [equalUnder, namelessIn]
  | application as ih =>
    cases b with
    | application bs =>
      rw [equalUnder_none_application, equalAllUnder_iff fun a ha b ↦ ih a ha, namelessIn,
        namelessIn, Nameless.application.injEq]
    | atom y => simp [equalUnder, namelessIn, ne_namelessIn_atom]
    | _ => simp [equalUnder, namelessIn]

/-- Equality up to bound names is the case of the empty scope. -/
theorem alphaEq_iff {a b : Expression} : a.alphaEq b = true ↔ a.nameless = b.nameless :=
  equalUnder_none_iff

/-- The free variables of a form are the free variables of the expression that its scope does not
bind. -/
theorem occurs_namelessIn {scope : List Nat} {v : Variable} {e : Expression} :
    (e.namelessIn scope).occurs v.id = true ↔ e.occursFree v = true ∧ v.id ∉ scope := by
  induction e generalizing scope with
  | atom a =>
    cases a with
    | var w =>
      rw [namelessIn, occursFree, beq_iff_eq]
      by_cases h : w.id ∈ scope
      · obtain ⟨index, hi⟩ := Option.isSome_iff_exists.1 (List.isSome_idxOf?.2 h)
        rw [resolve, hi]
        simp only [Nameless.occurs, Bool.false_eq_true, false_iff, not_and]
        exact fun hw hs ↦ hs (hw ▸ h)
      · rw [resolve_of_notMem h, Nameless.occurs, beq_iff_eq]
        exact ⟨fun hw ↦ ⟨hw, hw ▸ h⟩, fun hw ↦ hw.1⟩
    | _ => simp [namelessIn, Nameless.occurs, occursFree]
  | binder k w body ih =>
    rw [namelessIn, Nameless.occurs, ih, occursFree, Bool.and_eq_true, bne_iff_ne,
      List.mem_cons]
    grind
  | implies a b iha ihb =>
    rw [namelessIn, Nameless.occurs, Bool.or_eq_true, iha, ihb, occursFree, Bool.or_eq_true]
    grind
  | equals a b iha ihb =>
    rw [namelessIn, Nameless.occurs, Bool.or_eq_true, iha, ihb, occursFree, Bool.or_eq_true]
    grind
  | application items ih =>
    rw [namelessIn, Nameless.occurs, Nameless.occursIn_eq_any, namelessAllIn_eq_map, occursFree,
      occursFreeIn_eq_any, List.any_map, List.any_eq_true, List.any_eq_true]
    constructor
    · rintro ⟨e, he, h⟩
      exact ⟨⟨e, he, ((ih e he).1 h).1⟩, ((ih e he).1 h).2⟩
    · rintro ⟨⟨e, he, h⟩, hs⟩
      exact ⟨e, he, (ih e he).2 ⟨h, hs⟩⟩

/-- A variable occurs free in an expression if its number occurs in the form. -/
theorem occurs_nameless {v : Variable} {e : Expression} :
    e.nameless.occurs v.id = e.occursFree v := by
  rw [Bool.eq_iff_iff, nameless, occurs_namelessIn]
  simp

/-- Occurrences are told apart by numbers alone. -/
theorem occursFree_congr {e : Expression} {v w : Variable} (h : v.id = w.id) :
    e.occursFree v = e.occursFree w := by
  rw [← occurs_nameless, h, occurs_nameless]

/-- **Equality up to bound names is exact.** It holds of two expressions if and only if their
nameless forms are the same; so it is an equivalence. The variables that are free in a form are the
ones that occur free in the expression, so nothing free is ever taken for something bound. -/
theorem alphaEq_isExact :
    (∀ a b : Expression, a.alphaEq b = true ↔ a.nameless = b.nameless) ∧
      Equivalence (fun a b : Expression ↦ a.alphaEq b = true) ∧
      ∀ (a : Expression) (v : Variable), a.nameless.occurs v.id = a.occursFree v := by
  refine ⟨fun a b ↦ alphaEq_iff, ⟨fun a ↦ ?_, fun h ↦ ?_, fun h h' ↦ ?_⟩, fun a v ↦ occurs_nameless⟩
  · exact alphaEq_iff.2 rfl
  · exact alphaEq_iff.2 (alphaEq_iff.1 h).symm
  · exact alphaEq_iff.2 ((alphaEq_iff.1 h).trans (alphaEq_iff.1 h'))

/-! ### The scope does not matter -/

/-- Comparison depends on the pairs through what they relate only. -/
theorem equalUnder_congr {p q : Pairing} {a b : Expression}
    (h : ∀ v w, p.relates v w = q.relates v w) :
    equalUnder .none p a b = equalUnder .none q a b := by
  induction a generalizing p q b with
  | atom x =>
    cases b with
    | atom y => cases x <;> cases y <;> simp [equalUnder, h]
    | _ => cases x <;> simp [equalUnder]
  | binder k v a ih =>
    cases b with
    | binder l w b =>
      have hcons : ∀ x y, Pairing.relates ((v, w) :: p) x y = Pairing.relates ((v, w) :: q) x y :=
        fun x y ↦ by rw [Pairing.relates, Pairing.relates, h]
      rw [equalUnder, equalUnder, ih hcons]
    | _ => simp [equalUnder]
  | implies a c iha ihc => cases b <;> simp [equalUnder, iha h, ihc h]
  | equals a c iha ihc =>
    cases b with
    | equals b d => rw [equalUnder_none_equals, equalUnder_none_equals, iha h, ihc h]
    | _ => simp [equalUnder]
  | application as ih =>
    cases b with
    | application bs =>
      rw [equalUnder_none_application, equalUnder_none_application]
      induction as generalizing bs with
      | nil => cases bs <;> rfl
      | cons a as ih' =>
        cases bs with
        | nil => rfl
        | cons b bs =>
          rw [equalAllUnder, equalAllUnder, ih a List.mem_cons_self h,
            ih' (fun c hc ↦ ih c (List.mem_cons_of_mem a hc)) bs]
    | _ => simp [equalUnder]

/-- Pairs of equal variables relate equal variables. -/
theorem relates_map_self (vs : List Variable) (v w : Variable) :
    Pairing.relates (vs.map fun u ↦ (u, u)) v w = (v.id == w.id) := by
  induction vs with
  | nil => rfl
  | cons u vs ih =>
    rw [List.map_cons, Pairing.relates, ih]
    grind

/-- Under every scope, forms are equal exactly if the expressions are equal up to bound names. -/
theorem namelessIn_eq_iff {scope : List Nat} {a b : Expression} :
    a.namelessIn scope = b.namelessIn scope ↔ a.nameless = b.nameless := by
  let pairs : Pairing := (scope.map fun id ↦ ⟨"", id⟩).map fun u ↦ (u, u)
  have hleft : pairs.map (·.1.id) = scope := by simp [pairs, Function.comp_def]
  have hright : pairs.map (·.2.id) = scope := by simp [pairs, Function.comp_def]
  have h : equalUnder .none pairs a b = equalUnder .none [] a b :=
    equalUnder_congr fun v w ↦ relates_map_self _ v w
  rw [← alphaEq_iff, alphaEq, equalUpTo, ← h, equalUnder_none_iff, hleft, hright]

/-- A form depends on the scope through the free variables of the expression only. -/
theorem namelessIn_congr {s t : List Nat} {e : Expression}
    (h : ∀ v, e.occursFree v = true → resolve s v.id = resolve t v.id) :
    e.namelessIn s = e.namelessIn t := by
  induction e generalizing s t with
  | atom a =>
    cases a with
    | var v => exact h v (by simp [occursFree])
    | _ => rfl
  | binder k w body ih =>
    rw [namelessIn, namelessIn, ih fun v hv ↦ ?_]
    by_cases hw : w.id = v.id
    · rw [hw, resolve_cons_self, resolve_cons_self]
    · exact (resolve_cons_eq_iff hw hw).2 (h v (by simp [occursFree, hv, hw]))
  | implies a b iha ihb =>
    rw [namelessIn, namelessIn, iha fun v hv ↦ h v (by simp [occursFree, hv]),
      ihb fun v hv ↦ h v (by simp [occursFree, hv])]
  | equals a b iha ihb =>
    rw [namelessIn, namelessIn, iha fun v hv ↦ h v (by simp [occursFree, hv]),
      ihb fun v hv ↦ h v (by simp [occursFree, hv])]
  | application items ih =>
    rw [namelessIn, namelessIn, namelessAllIn_eq_map, namelessAllIn_eq_map]
    refine congrArg _ (List.map_congr_left fun e he ↦ ih e he fun v hv ↦ h v ?_)
    rw [occursFree, occursFreeIn_eq_any, List.any_eq_true]
    exact ⟨e, he, hv⟩

/-- A scope that binds no free variable of an expression leaves its form as it is. -/
theorem namelessIn_of_forall_notMem {scope : List Nat} {e : Expression}
    (h : ∀ v, e.occursFree v = true → v.id ∉ scope) : e.namelessIn scope = e.nameless :=
  namelessIn_congr fun v hv ↦ resolve_of_notMem (h v hv)

end Expression

end NaturalDeduction
