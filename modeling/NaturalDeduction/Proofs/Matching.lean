import NaturalDeduction.Expression.Matching
import NaturalDeduction.Proofs.Replacement

/-!
# Matching is exact

A pattern laid over a term either differs from it somewhere outside the holes, or every hole meets
a part of the term (`Expression.meetings`). Matching is laying the pattern over the term, and then
learning values from what the holes meet, one meeting after the other (`matchUnder_eq`).

On nameless forms, putting values for holes turns the pattern into the term exactly if every hole
meets its value (`fillHoles_eq_iff`). Names matter in one place only: a part that mentions a
variable bound above it has a form with an index that points out of it, and that is the form of no
whole expression, so no value can fill what the hole meets (`namelessIn_eq_nameless_iff`).

The search for a match is thus cut in two: `meetings` does not look at values, and learning does not
look at the pattern.

Main definitions and statements:

* `Expression.meetings`: what the holes meet, from left to right.
* `Bindings.learn`: what one meeting teaches, given what is known.
* `matchUnder_eq`: matching is the one after the other.
* `Bindings.Solves`: values that turn the pattern into the term, and are in line with what is
  known.
* `exists_matchWith`, `solves_of_matchWith`, `Bindings.Solves.unique`: completeness, soundness and
  uniqueness, put together in `matching_isExact`.
-/

namespace NaturalDeduction

/-! ### Values below a counter -/

/-- Whether every value is below `n`. -/
def Bindings.Below (n : Nat) (bindings : Bindings) : Prop := ∀ b ∈ bindings, b.2.Below n

theorem Bindings.Below.mono {bindings : Bindings} {n m : Nat} (h : bindings.Below n) (hnm : n ≤ m) :
    bindings.Below m := fun b hb ↦ (h b hb).mono hnm

theorem Bindings.Below.get? {bindings : Bindings} {n : Nat} (h : bindings.Below n) {slot : Variable}
    {value : Expression} (hvalue : bindings.get? slot = some value) : value.Below n := by
  obtain ⟨b, hb, rfl⟩ := Option.map_eq_some_iff.1 hvalue
  exact h b (List.mem_of_find?_eq_some hb)

theorem Bindings.Below.mapM_get? {bindings : Bindings} {n : Nat} (h : bindings.Below n)
    {slots : List Variable} {values : List Expression}
    (hvalues : slots.mapM bindings.get? = some values) : ∀ e ∈ values, e.Below n := by
  induction slots generalizing values with
  | nil =>
    cases hvalues
    exact fun e he ↦ absurd he List.not_mem_nil
  | cons slot rest ih =>
    rw [List.mapM_cons] at hvalues
    obtain ⟨value, hvalue, hvalues⟩ := Option.bind_eq_some_iff.1 hvalues
    obtain ⟨others, hothers, hvalues⟩ := Option.bind_eq_some_iff.1 hvalues
    cases hvalues
    exact List.forall_mem_cons.2 ⟨h.get? hvalue, ih hothers⟩

theorem Bindings.Below.replacements {bindings : Bindings} {n : Nat} (h : bindings.Below n) :
    ∀ r ∈ bindings.replacements, r.Below n := by
  intro r hr
  obtain ⟨b, hb, rfl⟩ := List.mem_map.1 hr
  exact ⟨trivial, h b hb⟩

/-! ### Keys without parts

To fill holes is to replace, and so is to put values for variables. In both cases no key has parts.
A replacement of everything is then a function of the leaves, and neither counts nor binders have to
be followed.
-/

namespace Nameless

/-- Whether a form has no parts. -/
def isLeaf : Nameless → Bool
  | binder .. => false
  | implies .. => false
  | equals .. => false
  | application _ => false
  | _ => true

/-- Whether a function of forms is given by what it does to forms without parts. -/
structure Leafwise (f : Nameless → Nameless) : Prop where
  binder (kind : BinderKind) (body : Nameless) : f (binder kind body) = .binder kind (f body)
  implies (a b : Nameless) : f (implies a b) = .implies (f a) (f b)
  equals (a b : Nameless) : f (equals a b) = .equals (f a) (f b)
  application (items : List Nameless) : f (application items) = .application (items.map f)

/-- If no key has parts, then replacing everywhere puts values for forms without parts, each on its
own. -/
theorem replace_all_eq {pairs : List (Nameless × Nameless)} {f : Nameless → Nameless}
    (hf : Leafwise f) (hkeys : ∀ p ∈ pairs, p.1.isLeaf = true)
    (hleaf : ∀ t, t.isLeaf = true → f t = ((pairs.find? fun p ↦ p.1 = t).map (·.2)).getD t)
    (t : Nameless) (i : Nat) : (t.replace .all pairs i).1 = f t := by
  have hnone : ∀ t : Nameless, t.isLeaf = false → (pairs.find? fun p ↦ p.1 = t) = none := by
    intro t ht
    refine List.find?_eq_none.2 fun p hp hpt ↦ ?_
    rw [← of_decide_eq_true hpt, hkeys p hp] at ht
    cases ht
  induction t generalizing i with
  | application items ih =>
    rw [replace_node, hnone _ rfl, hf.application]
    refine congrArg Nameless.application ?_
    induction items generalizing i with
    | nil => rfl
    | cons t rest ih' =>
      refine congrArg₂ List.cons (ih t List.mem_cons_self i) ?_
      exact ih' (fun u hu ↦ ih u (List.mem_cons_of_mem _ hu)) _
  | binder kind body ih =>
    rw [replace_node, hnone _ rfl, hf.binder]
    exact congrArg (Nameless.binder kind) (ih i)
  | implies a b iha ihb =>
    rw [replace_node, hnone _ rfl, hf.implies]
    exact congrArg₂ Nameless.implies (iha i) (ihb _)
  | equals a b iha ihb =>
    rw [replace_node, hnone _ rfl, hf.equals]
    exact congrArg₂ Nameless.equals (iha i) (ihb _)
  | _ =>
    rw [replace_node, hleaf _ rfl]
    split
    next p hp => rw [hp]; rfl
    next hp => rw [hp]; rfl

/-! ### Filling holes of nameless forms -/

mutual

/-- Puts values for holes. -/
def fillHoles (values : Nat → Option Nameless) : Nameless → Nameless
  | hole id => (values id).getD (hole id)
  | binder kind body => binder kind (fillHoles values body)
  | implies a b => implies (fillHoles values a) (fillHoles values b)
  | equals a b => equals (fillHoles values a) (fillHoles values b)
  | application items => application (fillAllHoles values items)
  | t => t

/-- The same for a list of forms. -/
def fillAllHoles (values : Nat → Option Nameless) : List Nameless → List Nameless
  | [] => []
  | t :: rest => fillHoles values t :: fillAllHoles values rest

end

mutual

/-- Whether an index points past `depth` binders and further out. -/
def pointsOutside (depth : Nat) : Nameless → Bool
  | bound index => depth ≤ index
  | binder _ body => pointsOutside (depth + 1) body
  | implies a b => pointsOutside depth a || pointsOutside depth b
  | equals a b => pointsOutside depth a || pointsOutside depth b
  | application items => pointOutside depth items
  | _ => false

/-- Whether an index in one of the forms does. -/
def pointOutside (depth : Nat) : List Nameless → Bool
  | [] => false
  | t :: rest => pointsOutside depth t || pointOutside depth rest

end

/-- A list points outside if an item does. -/
theorem pointOutside_eq_any (depth : Nat) (ts : List Nameless) :
    pointOutside depth ts = ts.any (pointsOutside depth) := by
  induction ts with
  | nil => rfl
  | cons t rest ih => rw [pointOutside, ih, List.any_cons]

end Nameless

namespace Bindings

/-- The form of the value of a hole, by the number of the hole. -/
def form? (bindings : Bindings) (id : Nat) : Option Nameless :=
  (bindings.get? ⟨"", id⟩).map Expression.nameless

theorem form?_eq (bindings : Bindings) (slot : Variable) :
    bindings.form? slot.id = (bindings.get? slot).map Expression.nameless := rfl

/-- The form of a value is what the walk finds when holes are replaced. -/
theorem form?_eq_find? (bindings : Bindings) (id : Nat) :
    bindings.form? id = ((bindings.replacements.map Replacement.forms).find?
      fun p ↦ p.1 = .hole id).map (·.2) := by
  unfold form? get? replacements
  rw [List.map_map, List.find?_map, Option.map_map, Option.map_map]
  congr 2
  funext b
  simp [Replacement.forms, Expression.nameless, Expression.hole, Expression.namelessIn]
  rfl

end Bindings

namespace Nameless

/-- Filling goes through a list item by item. -/
theorem fillAllHoles_eq_map (values : Nat → Option Nameless) (ts : List Nameless) :
    fillAllHoles values ts = ts.map (fillHoles values) := by
  induction ts with
  | nil => rfl
  | cons t rest ih => rw [fillAllHoles, ih, List.map_cons]

/-- Filling changes leaves only, so nothing is to be said about binders. -/
theorem fillHoles_leafwise (values : Nat → Option Nameless) : Leafwise (fillHoles values) :=
  ⟨fun _ _ ↦ rfl, fun _ _ ↦ rfl, fun _ _ ↦ rfl, fun items ↦ by rw [fillHoles, fillAllHoles_eq_map]⟩

/-- Only holes are replaced by the values of holes. -/
theorem find?_replacements_eq_none (bindings : Bindings) {t : Nameless} (h : ∀ id, t ≠ .hole id) :
    (bindings.replacements.map Replacement.forms).find? (fun p ↦ p.1 = t) = none := by
  rw [List.find?_eq_none]
  intro p hp
  obtain ⟨r, hr, rfl⟩ := List.mem_map.1 hp
  obtain ⟨b, -, rfl⟩ := List.mem_map.1 hr
  have hkey : (Replacement.forms ⟨.hole b.1, b.2⟩).1 = .hole b.1.id := rfl
  simpa [hkey] using (h b.1.id).symm

/-- Filling is the replacement that the kernel carries out, on forms. -/
theorem replace_replacements (bindings : Bindings) (t : Nameless) (i : Nat) :
    (t.replace .all (bindings.replacements.map Replacement.forms) i).1 =
      t.fillHoles bindings.form? := by
  refine replace_all_eq (fillHoles_leafwise _) (fun p hp ↦ ?_) (fun t ht ↦ ?_) t i
  · obtain ⟨r, hr, rfl⟩ := List.mem_map.1 hp
    obtain ⟨b, -, rfl⟩ := List.mem_map.1 hr
    rfl
  · cases t with
    | hole id => rw [fillHoles, Bindings.form?_eq_find?]
    | _ => first | (rw [find?_replacements_eq_none _ (by simp)]; rfl) | cases ht

end Nameless

namespace Expression

mutual

/-- Whether the hole `slot` occurs. -/
def hasHole (slot : Variable) : Expression → Bool
  | atom (.hole w) => w.id == slot.id
  | atom _ => false
  | binder _ _ body => hasHole slot body
  | implies a b => hasHole slot a || hasHole slot b
  | equals a b => hasHole slot a || hasHole slot b
  | application items => haveHole slot items

/-- Whether the hole `slot` occurs in one of the expressions. -/
def haveHole (slot : Variable) : List Expression → Bool
  | [] => false
  | e :: rest => hasHole slot e || haveHole slot rest

end

/-- An index points out of a form exactly if the expression mentions a variable bound there. -/
theorem pointsOutside_namelessIn {inner outer : List Nat} {e : Expression} :
    (e.namelessIn (inner ++ outer)).pointsOutside inner.length = true ↔
      ∃ v, e.occursFree v = true ∧ v.id ∈ outer ∧ v.id ∉ inner := by
  induction e generalizing inner with
  | atom a =>
    cases a with
    | var w =>
      have happend : (inner ++ outer).idxOf? w.id =
          (inner.idxOf? w.id).or ((outer.idxOf? w.id).map (· + inner.length)) :=
        List.findIdx?_append
      rw [namelessIn, resolve, happend]
      -- the first scope that has the variable gives the index: inner binders shadow outer ones
      cases hinner : inner.idxOf? w.id with
      | some index =>
        obtain ⟨hindex, heq, -⟩ := List.idxOf?_eq_some_iff.1 hinner
        have hmem : w.id ∈ inner := List.isSome_idxOf?.1 (by simp [hinner])
        simp [Nameless.pointsOutside, occursFree]
        grind
      | none =>
        have hmem : w.id ∉ inner := List.idxOf?_eq_none_iff.1 hinner
        cases houter : outer.idxOf? w.id with
        | some index =>
          have hmem' : w.id ∈ outer := List.isSome_idxOf?.1 (by simp [houter])
          simp [Nameless.pointsOutside, occursFree]
          grind
        | none =>
          have hmem' : w.id ∉ outer := List.idxOf?_eq_none_iff.1 houter
          simp [Nameless.pointsOutside, occursFree]
          grind
    | _ => simp [namelessIn, Nameless.pointsOutside, occursFree]
  | binder k w body ih =>
    -- the variable of the binder joins the inner scope, whose length grows with the depth
    have hbody := @ih (w.id :: inner)
    rw [namelessIn, Nameless.pointsOutside]
    rw [List.cons_append, List.length_cons] at hbody
    rw [hbody]
    simp only [occursFree, Bool.and_eq_true, bne_iff_ne, List.mem_cons]
    grind
  | implies a b iha ihb | equals a b iha ihb =>
    rw [namelessIn, Nameless.pointsOutside, Bool.or_eq_true, iha, ihb]
    simp only [occursFree, Bool.or_eq_true]
    grind
  | application items ih =>
    rw [namelessIn, Nameless.pointsOutside, Nameless.pointOutside_eq_any, namelessAllIn_eq_map,
      List.any_map, List.any_eq_true]
    simp only [occursFree, occursFreeIn_eq_any, List.any_eq_true, Function.comp_apply]
    constructor
    · rintro ⟨e, he, h⟩
      obtain ⟨v, hv, hscope⟩ := (ih e he).1 h
      exact ⟨v, ⟨e, he, hv⟩, hscope⟩
    · rintro ⟨v, ⟨e, he, hv⟩, hscope⟩
      exact ⟨e, he, (ih e he).2 ⟨v, hv, hscope⟩⟩

/-- A form of a part that mentions a variable bound above is the form of no whole expression. -/
theorem namelessIn_eq_nameless_iff {scope : List Nat} {e value : Expression} :
    e.namelessIn scope = value.nameless ↔
      e.nameless = value.nameless ∧ ∀ v, e.occursFree v = true → v.id ∉ scope := by
  constructor
  · intro h
    have hfree : ∀ v, e.occursFree v = true → v.id ∉ scope := by
      intro v hv hmem
      have hout : (e.namelessIn ([] ++ scope)).pointsOutside ([] : List Nat).length = true :=
        pointsOutside_namelessIn.2 ⟨v, hv, hmem, List.not_mem_nil⟩
      have hclosed : (value.namelessIn ([] ++ [])).pointsOutside ([] : List Nat).length ≠ true :=
        fun hvalue ↦ by simpa using pointsOutside_namelessIn.1 hvalue
      exact hclosed (by simpa [h, nameless] using hout)
    exact ⟨(namelessIn_of_forall_notMem hfree).symm.trans h, hfree⟩
  · rintro ⟨h, hfree⟩
    rw [namelessIn_of_forall_notMem hfree, h]

/-- Variables are no holes, bound or free. -/
theorem fillHoles_resolve (values : Nat → Option Nameless) (scope : List Nat) (id : Nat) :
    (resolve scope id).fillHoles values = resolve scope id := by
  obtain ⟨index, h⟩ | h := resolve_eq_bound_or_free scope id <;> rw [h] <;> rfl

end Expression

/-! ### Laying a pattern over a term

The two scopes are kept in one list of pairs, as in comparisons. A meeting remembers the variables
of the term that were bound above it, because a value must not mention them.
-/

/-- A hole of a pattern, the part of a term that it meets, and the variables that the term binds
above that part, innermost first. -/
structure Meeting where
  slot : Variable
  part : Expression
  above : List Variable

/-- Whether the value of the hole is what the hole meets. The form of the part is taken where the
part stands, below the variables bound above it. -/
def Meeting.FilledBy (values : Nat → Option Nameless) (m : Meeting) : Prop :=
  (values m.slot.id).getD (.hole m.slot.id) = m.part.namelessIn (m.above.map (·.id))

namespace Expression

mutual

/-- What the holes of a pattern meet when the pattern is laid over a term, from left to right, if
the two do not differ elsewhere. -/
def meetings (pairs : Pairing) : Expression → Expression → Option (List Meeting)
  | atom (.hole slot), term => some [⟨slot, term, pairs.map (·.2)⟩]
  | atom (.var v), atom (.var w) => if pairs.relates v w then some [] else none
  | atom a, atom b => if a.same b then some [] else none
  | binder k v a, binder l w b => if k = l then meetings ((v, w) :: pairs) a b else none
  | implies a b, implies c d => do return (← meetings pairs a c) ++ (← meetings pairs b d)
  | equals a b, equals c d => do return (← meetings pairs a c) ++ (← meetings pairs b d)
  | application as, application bs => meetingsAll pairs as bs
  | _, _ => none

/-- The same for lists of the same length, item by item. -/
def meetingsAll (pairs : Pairing) : List Expression → List Expression → Option (List Meeting)
  | [], [] => some []
  | a :: as, b :: bs => do return (← meetings pairs a b) ++ (← meetingsAll pairs as bs)
  | _, _ => none

end

/-- Meetings of two parts are those of the one and those of the other. -/
theorem exists_append_iff {α : Type} {p : α → Prop} {x y : Option (List α)} :
    (∃ ms, (do return (← x) ++ (← y) : Option (List α)) = some ms ∧ ∀ m ∈ ms, p m) ↔
      (∃ ms, x = some ms ∧ ∀ m ∈ ms, p m) ∧ ∃ ms, y = some ms ∧ ∀ m ∈ ms, p m := by
  cases x <;> cases y <;> simp [or_imp, forall_and]

/-- The step from the operands to the list of them. Lists of different lengths have no meetings and
are no fillings of each other. -/
theorem fillAllHoles_eq_iff {values : Nat → Option Nameless} {pairs : Pairing}
    {as bs : List Expression}
    (h : ∀ a ∈ as, ∀ b, (a.namelessIn (pairs.map (·.1.id))).fillHoles values =
        b.namelessIn (pairs.map (·.2.id)) ↔
      ∃ ms, meetings pairs a b = some ms ∧ ∀ m ∈ ms, Meeting.FilledBy values m) :
    Nameless.fillAllHoles values (namelessAllIn (pairs.map (·.1.id)) as) =
        namelessAllIn (pairs.map (·.2.id)) bs ↔
      ∃ ms, meetingsAll pairs as bs = some ms ∧ ∀ m ∈ ms, Meeting.FilledBy values m := by
  induction as generalizing bs with
  | nil => cases bs <;> simp [meetingsAll, namelessAllIn, Nameless.fillAllHoles]
  | cons a as ih =>
    cases bs with
    | nil => simp [meetingsAll, namelessAllIn, Nameless.fillAllHoles]
    | cons b bs =>
      rw [meetingsAll, exists_append_iff, ← h a List.mem_cons_self b,
        ← ih fun c hc ↦ h c (List.mem_cons_of_mem a hc), namelessAllIn, namelessAllIn,
        Nameless.fillAllHoles, List.cons.injEq]

/-- Values for the holes turn a pattern into a term exactly if the pattern can be laid over the term
and every hole meets its value. -/
theorem fillHoles_eq_iff {values : Nat → Option Nameless} {pairs : Pairing}
    {pattern term : Expression} :
    (pattern.namelessIn (pairs.map (·.1.id))).fillHoles values =
        term.namelessIn (pairs.map (·.2.id)) ↔
      ∃ ms, meetings pairs pattern term = some ms ∧ ∀ m ∈ ms, Meeting.FilledBy values m := by
  induction pattern generalizing pairs term with
  | atom x =>
    cases x with
    | hole slot =>
      simp [meetings, namelessIn, Nameless.fillHoles, Meeting.FilledBy, Function.comp_def]
    | var v =>
      -- what a variable resolves to has no holes, and two resolve alike if the pairing relates them
      rw [namelessIn, fillHoles_resolve]
      cases term with
      | atom y =>
        cases y <;> simp [meetings, namelessIn, Atom.same, relates_iff, resolve] <;> split <;> simp
      | _ =>
        simp [meetings, namelessIn, resolve]
        split <;> simp
    | _ =>
      cases term with
      | atom y =>
        cases y <;> simp [meetings, namelessIn, Nameless.fillHoles, Atom.same, resolve]
        split <;> simp
      | _ => simp [meetings, namelessIn, Nameless.fillHoles]
  | binder k v a ih =>
    cases term with
    | binder l w b =>
      rw [namelessIn, namelessIn, Nameless.fillHoles, Nameless.binder.injEq, meetings]
      by_cases hkind : k = l
      · rw [if_pos hkind, ← ih]
        simp [hkind]
      · simp [hkind]
    | atom y => simp [meetings, namelessIn, Nameless.fillHoles, ne_namelessIn_atom]
    | _ => simp [meetings, namelessIn, Nameless.fillHoles]
  | implies a b iha ihb =>
    cases term with
    | implies c d =>
      rw [namelessIn, namelessIn, Nameless.fillHoles, Nameless.implies.injEq, meetings,
        exists_append_iff, iha, ihb]
    | atom y => simp [meetings, namelessIn, Nameless.fillHoles, ne_namelessIn_atom]
    | _ => simp [meetings, namelessIn, Nameless.fillHoles]
  | equals a b iha ihb =>
    cases term with
    | equals c d =>
      rw [namelessIn, namelessIn, Nameless.fillHoles, Nameless.equals.injEq, meetings,
        exists_append_iff, iha, ihb]
    | atom y => simp [meetings, namelessIn, Nameless.fillHoles, ne_namelessIn_atom]
    | _ => simp [meetings, namelessIn, Nameless.fillHoles]
  | application as ih =>
    cases term with
    | application bs =>
      rw [namelessIn, namelessIn, Nameless.fillHoles, Nameless.application.injEq, meetings,
        fillAllHoles_eq_iff fun a ha b ↦ ih a ha]
    | atom y => simp [meetings, namelessIn, Nameless.fillHoles, ne_namelessIn_atom]
    | _ => simp [meetings, namelessIn, Nameless.fillHoles]

end Expression

/-! ### Learning from what the holes meet -/

/-- Learns from a meeting. The part must not mention what is bound above it, and if the hole has a
value already, the part has to be equal to it. -/
def Bindings.learn (known : Bindings) (m : Meeting) : Option Bindings :=
  if m.above.any fun v ↦ m.part.occursFree v then none
  else
    match known.get? m.slot with
    | some value => if value.alphaEq m.part then some known else none
    | none => some ((m.slot, m.part) :: known)

namespace Expression

/-- Learning from two parts is learning from the first and then from the second. -/
theorem bind_append_foldlM {α : Type} {f : Bindings → α → Option Bindings} {known : Bindings}
    {x y : Option (List α)} :
    ((do return (← x) ++ (← y) : Option (List α)).bind fun ms ↦ ms.foldlM f known) =
      (x.bind fun ms ↦ ms.foldlM f known).bind fun known ↦ y.bind fun ms ↦ ms.foldlM f known := by
  cases x <;> cases y <;> simp [List.foldlM_append]

/-- Matching is laying the pattern over the term and learning from what the holes meet. -/
theorem matchUnder_eq {pairs : Pairing} {known : Bindings} {pattern term : Expression} :
    matchUnder pairs known pattern term =
      (meetings pairs pattern term).bind fun ms ↦ ms.foldlM Bindings.learn known := by
  induction pattern generalizing pairs known term with
  | atom x =>
    cases x with
    | hole slot =>
      -- both ask whether the part mentions a variable bound above, and then what is known
      simp only [matchUnder, meetings, Option.bind_some, List.foldlM_cons, List.foldlM_nil,
        Bindings.learn, List.any_map, Function.comp_def]
      split
      · rfl
      · cases known.get? slot with
        | some value => dsimp only; split <;> rfl
        | none => rfl
    | _ =>
      cases term with
      | atom y => cases y <;> simp [matchUnder, meetings] <;> split <;> rfl
      | _ => rfl
  | binder k v a ih =>
    cases term with
    | binder l w b =>
      rw [matchUnder, meetings, ih]
      split <;> rfl
    | _ => simp [matchUnder, meetings]
  | implies a b iha ihb =>
    cases term with
    | implies c d =>
      rw [matchUnder, meetings, bind_append_foldlM, iha]
      simp only [ihb]
      rfl
    | _ => simp [matchUnder, meetings]
  | equals a b iha ihb =>
    cases term with
    | equals c d =>
      rw [matchUnder, meetings, bind_append_foldlM, iha]
      simp only [ihb]
      rfl
    | _ => simp [matchUnder, meetings]
  | application as ih =>
    cases term with
    | application bs =>
      rw [matchUnder, meetings]
      induction as generalizing known bs with
      | nil => cases bs <;> rfl
      | cons a as ih' =>
        cases bs with
        | nil => rfl
        | cons b bs =>
          rw [matchAllUnder, meetingsAll, bind_append_foldlM, ih a List.mem_cons_self]
          simp only [ih' fun c hc ↦ ih c (List.mem_cons_of_mem a hc)]
          rfl
    | _ => simp [matchUnder, meetings]

/-- Induction along a pattern that is laid over a term, with what the holes of it meet. -/
theorem meetings_induction {P : Expression → Expression → List Meeting → Prop}
    {Q : List Expression → List Expression → List Meeting → Prop}
    (hole : ∀ slot term above, P (atom (.hole slot)) term [⟨slot, term, above⟩])
    (atom : ∀ x y, (∀ slot, x ≠ .hole slot) → P (atom x) (atom y) [])
    (binder : ∀ k v w a b ms, P a b ms → P (binder k v a) (binder k w b) ms)
    (implies : ∀ a b c d ms ms', P a c ms → P b d ms' → P (implies a b) (implies c d) (ms ++ ms'))
    (equals : ∀ a b c d ms ms', P a c ms → P b d ms' → P (equals a b) (equals c d) (ms ++ ms'))
    (application : ∀ as bs ms, Q as bs ms → P (application as) (application bs) ms)
    (nil : Q [] [] [])
    (cons : ∀ a b as bs ms ms', P a b ms → Q as bs ms' → Q (a :: as) (b :: bs) (ms ++ ms'))
    {pairs : Pairing} {pattern term : Expression} {ms : List Meeting}
    (h : meetings pairs pattern term = some ms) : P pattern term ms := by
  induction pattern generalizing pairs term ms with
  | atom x =>
    by_cases hx : ∃ slot, x = .hole slot
    · obtain ⟨slot, rfl⟩ := hx
      cases h
      exact hole slot term _
    · have hx : ∀ slot, x ≠ .hole slot := fun slot hslot ↦ hx ⟨slot, hslot⟩
      cases term with
      | atom y =>
        have hms : ms = [] := by
          cases x <;> cases y <;> simp_all [meetings]
        exact hms ▸ atom x y hx
      | _ => cases x <;> simp_all [meetings]
  | binder k v a ih =>
    cases term with
    | binder l w b =>
      rw [meetings, Option.ite_none_right_eq_some] at h
      obtain ⟨rfl, h⟩ := h
      exact binder k v w a b ms (ih h)
    | _ => simp [meetings] at h
  | implies a b iha ihb =>
    cases term with
    | implies c d =>
      obtain ⟨ms₁, h₁, h⟩ := Option.bind_eq_some_iff.1 h
      obtain ⟨ms₂, h₂, h⟩ := Option.bind_eq_some_iff.1 h
      cases h
      exact implies a b c d ms₁ ms₂ (iha h₁) (ihb h₂)
    | _ => simp [meetings] at h
  | equals a b iha ihb =>
    cases term with
    | equals c d =>
      obtain ⟨ms₁, h₁, h⟩ := Option.bind_eq_some_iff.1 h
      obtain ⟨ms₂, h₂, h⟩ := Option.bind_eq_some_iff.1 h
      cases h
      exact equals a b c d ms₁ ms₂ (iha h₁) (ihb h₂)
    | _ => simp [meetings] at h
  | application as ih =>
    cases term with
    | application bs =>
      rw [meetings] at h
      -- an induction over the operands, since `Q` is about lists
      refine application as bs ms ?_
      induction as generalizing bs ms with
      | nil =>
        cases bs with
        | nil => cases h; exact nil
        | cons b bs => cases h
      | cons a as ih' =>
        cases bs with
        | nil => cases h
        | cons b bs =>
          obtain ⟨ms₁, h₁, h⟩ := Option.bind_eq_some_iff.1 h
          obtain ⟨ms₂, h₂, h⟩ := Option.bind_eq_some_iff.1 h
          cases h
          exact cons a b as bs ms₁ ms₂ (ih a List.mem_cons_self h₁)
            (ih' (fun c hc ↦ ih c (List.mem_cons_of_mem a hc)) bs h₂)
    | _ => simp [meetings] at h

/-- The holes of a pattern are the ones that meet something. -/
theorem hasHole_iff_of_meetings {pairs : Pairing} {pattern term : Expression} {ms : List Meeting}
    (h : meetings pairs pattern term = some ms) (slot : Variable) :
    pattern.hasHole slot = true ↔ ∃ m ∈ ms, m.slot.id = slot.id := by
  have happend {p q : Bool} {ms ms' : List Meeting} (h : p = true ↔ ∃ m ∈ ms, m.slot.id = slot.id)
      (h' : q = true ↔ ∃ m ∈ ms', m.slot.id = slot.id) :
      (p || q) = true ↔ ∃ m ∈ ms ++ ms', m.slot.id = slot.id := by
    rw [Bool.or_eq_true, h, h']
    simp [or_and_right, exists_or]
  refine meetings_induction
    (P := fun pattern _ ms ↦ pattern.hasHole slot = true ↔ ∃ m ∈ ms, m.slot.id = slot.id)
    (Q := fun as _ ms ↦ haveHole slot as = true ↔ ∃ m ∈ ms, m.slot.id = slot.id)
    ?hole ?atom ?binder ?implies ?equals ?application ?nil ?cons h
  case hole => simp [hasHole]
  case atom =>
    intro x y hx
    cases x <;> simp_all [hasHole]
  case binder => exact fun _ _ _ _ _ _ h ↦ h
  case implies | equals => exact fun _ _ _ _ _ _ h h' ↦ happend h h'
  case application => exact fun _ _ _ h ↦ h
  case nil => simp [haveHole]
  case cons => exact fun _ _ _ _ _ _ h h' ↦ happend h h'

/-- What the holes of a pattern meet are parts of the term. -/
theorem below_of_meetings {pairs : Pairing} {pattern term : Expression} {ms : List Meeting}
    {n : Nat} (h : meetings pairs pattern term = some ms) (hterm : term.Below n) :
    ∀ m ∈ ms, m.part.Below n := by
  revert hterm
  refine meetings_induction (P := fun _ term ms ↦ term.Below n → ∀ m ∈ ms, m.part.Below n)
    (Q := fun _ bs ms ↦ (∀ b ∈ bs, b.Below n) → ∀ m ∈ ms, m.part.Below n)
    ?hole ?atom ?binder ?implies ?equals ?application ?nil ?cons h
  case hole => exact fun _ _ _ hterm m hm ↦ List.mem_singleton.1 hm ▸ hterm
  case atom => exact fun _ _ _ _ _ hm ↦ absurd hm List.not_mem_nil
  case binder => exact fun _ _ _ _ _ _ h hterm ↦ h hterm.2
  case implies | equals =>
    exact fun _ _ _ _ _ _ h h' hterm ↦ List.forall_mem_append.2 ⟨h hterm.1, h' hterm.2⟩
  case application => exact fun _ _ _ h hterm ↦ h (allBelow_iff.1 hterm)
  case nil => exact fun _ _ hm ↦ absurd hm List.not_mem_nil
  case cons =>
    intro a b as bs ms ms' h h' hbs
    obtain ⟨hb, hbs⟩ := List.forall_mem_cons.1 hbs
    exact List.forall_mem_append.2 ⟨h hb, h' hbs⟩

end Expression

namespace Bindings

/-- What was learned last is found first. -/
theorem get?_cons (slot : Variable) (value : Expression) (known : Bindings) (w : Variable) :
    get? ((slot, value) :: known) w = if slot.id = w.id then some value else known.get? w := by
  unfold get?
  rw [List.find?_cons]
  by_cases h : slot.id = w.id
  · simp [h]
  · simp [h, beq_eq_false_iff_ne.2 h]

/-- Bindings go by the number of a hole; the hint does not matter. -/
theorem get?_congr (known : Bindings) {v w : Variable} (h : v.id = w.id) :
    known.get? v = known.get? w := by
  unfold get?
  rw [h]

/-- Learning succeeds in two ways. -/
theorem learn_eq_some_iff {known bindings : Bindings} {m : Meeting} :
    known.learn m = some bindings ↔ (∀ v ∈ m.above, m.part.occursFree v = false) ∧
      ((∃ value, known.get? m.slot = some value ∧ value.nameless = m.part.nameless ∧
          bindings = known) ∨
        known.get? m.slot = none ∧ bindings = (m.slot, m.part) :: known) := by
  unfold learn
  cases hescape : m.above.any fun v ↦ m.part.occursFree v with
  | true =>
    simp at hescape ⊢
    grind
  | false =>
    have hfree : ∀ v ∈ m.above, m.part.occursFree v = false := by simpa using hescape
    rw [if_neg Bool.false_ne_true, and_iff_right hfree]
    cases known.get? m.slot with
    | none => simp [eq_comm (b := bindings)]
    | some value =>
      by_cases hsame : value.nameless = m.part.nameless
      · simp [Expression.alphaEq_iff.2 hsame, hsame, eq_comm (b := bindings)]
      · simp [Expression.alphaEq_iff, hsame]

/-- What is learned was part of the term. -/
theorem Below.foldlM_learn {known bindings : Bindings} {ms : List Meeting} {n : Nat}
    (hknown : known.Below n) (hms : ∀ m ∈ ms, m.part.Below n)
    (h : ms.foldlM learn known = some bindings) : bindings.Below n := by
  induction ms generalizing known with
  | nil => exact Option.some.inj h ▸ hknown
  | cons m ms ih =>
    rw [List.foldlM_cons] at h
    obtain ⟨known', hlearn, h⟩ := Option.bind_eq_some_iff.1 h
    obtain ⟨hpart, hms⟩ := List.forall_mem_cons.1 hms
    refine ih ?_ hms h
    obtain ⟨-, ⟨-, -, -, rfl⟩ | ⟨-, rfl⟩⟩ := learn_eq_some_iff.1 hlearn
    · exact hknown
    · exact List.forall_mem_cons.2 ⟨hpart, hknown⟩

/-- What learning from meetings comes to. -/
structure Learned (known : Bindings) (ms : List Meeting) (bindings : Bindings) : Prop where
  keeps : ∀ slot value, known.get? slot = some value → bindings.get? slot = some value
  domain : ∀ slot, (bindings.get? slot).isSome = true ↔
    (known.get? slot).isSome = true ∨ ∃ m ∈ ms, m.slot.id = slot.id
  values : ∀ m ∈ ms, (∃ value, bindings.get? m.slot = some value ∧
    value.nameless = m.part.nameless) ∧ ∀ v ∈ m.above, m.part.occursFree v = false

/-- By induction on the meetings: nothing is forgotten, and each hole that was met has a value. -/
theorem learned_of_foldlM {known bindings : Bindings} {ms : List Meeting}
    (h : ms.foldlM learn known = some bindings) : Learned known ms bindings := by
  induction ms generalizing known with
  | nil =>
    cases h
    exact ⟨fun _ _ h ↦ h, by simp, by simp⟩
  | cons m ms ih =>
    rw [List.foldlM_cons] at h
    obtain ⟨known', hlearn, h⟩ := Option.bind_eq_some_iff.1 h
    obtain ⟨hkeeps, hdomain, hvalues⟩ := ih h
    obtain ⟨hfree, ⟨value, hvalue, hform, rfl⟩ | ⟨hnone, rfl⟩⟩ := learn_eq_some_iff.1 hlearn
    · refine ⟨hkeeps, fun slot ↦ ?_, List.forall_mem_cons.2 ⟨⟨⟨value, ?_, hform⟩, hfree⟩, hvalues⟩⟩
      · rw [hdomain]
        simp only [List.mem_cons, exists_eq_or_imp]
        have hslot : m.slot.id = slot.id → (known'.get? slot).isSome = true := by
          intro hid
          rw [← get?_congr known' hid, hvalue]
          rfl
        grind
      · exact hkeeps _ _ hvalue
    · refine ⟨fun slot value hvalue ↦ hkeeps slot value ?_, fun slot ↦ ?_,
        List.forall_mem_cons.2 ⟨⟨⟨m.part, ?_, rfl⟩, hfree⟩, hvalues⟩⟩
      · rw [get?_cons, if_neg fun hid ↦ ?_, hvalue]
        rw [get?_congr known hid, hvalue] at hnone
        cases hnone
      · rw [hdomain, get?_cons]
        simp only [List.mem_cons, exists_eq_or_imp]
        split <;> grind
      · exact hkeeps _ _ (by rw [get?_cons, if_pos rfl])

/-- Learning from meetings succeeds if all of them, and what is known before, fit to some values. -/
theorem exists_foldlM_learn {values : Nat → Option Nameless} {known : Bindings} {ms : List Meeting}
    (hvalues : ∀ m ∈ ms, values m.slot.id = some m.part.nameless ∧
      ∀ v ∈ m.above, m.part.occursFree v = false)
    (hknown : ∀ m ∈ ms, ∀ value, known.get? m.slot = some value →
      values m.slot.id = some value.nameless) :
    ∃ bindings, ms.foldlM learn known = some bindings := by
  induction ms generalizing known with
  | nil => exact ⟨known, rfl⟩
  | cons m ms ih =>
    obtain ⟨⟨hvalue, hfree⟩, hvalues⟩ := List.forall_mem_cons.1 hvalues
    obtain ⟨hfirst, hknown⟩ := List.forall_mem_cons.1 hknown
    have hlearn : ∃ known', known.learn m = some known' ∧ ∀ m ∈ ms, ∀ value,
        known'.get? m.slot = some value → values m.slot.id = some value.nameless := by
      cases hget : known.get? m.slot with
      | some value =>
        have hform : value.nameless = m.part.nameless :=
          Option.some.inj ((hfirst value hget).symm.trans hvalue)
        exact ⟨known, learn_eq_some_iff.2 ⟨hfree, .inl ⟨value, hget, hform, rfl⟩⟩, hknown⟩
      | none =>
        refine ⟨_, learn_eq_some_iff.2 ⟨hfree, .inr ⟨hget, rfl⟩⟩, fun m' hm' value hvalue' ↦ ?_⟩
        rw [get?_cons] at hvalue'
        split at hvalue'
        · rename_i hid
          cases hvalue'
          rw [← hid, hvalue]
        · exact hknown m' hm' value hvalue'
    obtain ⟨known', hlearn, hknown'⟩ := hlearn
    obtain ⟨bindings, h⟩ := ih hvalues hknown'
    exact ⟨bindings, by rw [List.foldlM_cons, hlearn]; exact h⟩

end Bindings

namespace Expression

/-- Matching binds holes to parts of the term. -/
theorem matchUnder_below {pairs : Pairing} {known bindings : Bindings} {pattern term : Expression}
    {n : Nat} (hknown : known.Below n) (hterm : term.Below n)
    (h : matchUnder pairs known pattern term = some bindings) : bindings.Below n := by
  rw [matchUnder_eq] at h
  obtain ⟨ms, hms, hlearn⟩ := Option.bind_eq_some_iff.1 h
  exact hknown.foldlM_learn (below_of_meetings hms hterm) hlearn

/-- A match on its own starts with nothing known. -/
theorem match?_below {pattern term : Expression} {bindings : Bindings} {n : Nat}
    (hterm : term.Below n) (h : pattern.match? term = some bindings) : bindings.Below n :=
  matchUnder_below (fun _ hb ↦ absurd hb List.not_mem_nil) hterm h

end Expression

/-! ### Solutions -/

/-- Values for all holes of a pattern, in line with what is known, that turn the pattern into the
term. The holes are filled when the counter is at `n`. -/
structure Bindings.Solves (known : Bindings) (pattern term : Expression) (n : Nat)
    (solution : Bindings) : Prop where
  below : solution.Below n
  covers : ∀ slot, pattern.hasHole slot = true → ∃ value, solution.get? slot = some value
  agrees : ∀ slot value value', pattern.hasHole slot = true → known.get? slot = some value →
    solution.get? slot = some value' → value.alphaEq value' = true
  fills : ((pattern.fill solution).run n).1.alphaEq term = true

namespace Expression

variable {pattern term : Expression} {known bindings : Bindings} {n : Nat}

/-- Filling a pattern is filling its form, as the values mention nothing beyond the counter. -/
theorem nameless_fill (hpattern : pattern.Below n) (hbindings : bindings.Below n) :
    ((pattern.fill bindings).run n).1.nameless = pattern.nameless.fillHoles bindings.form? := by
  obtain ⟨result, m, hrun, -, -, hform⟩ := substitute_run hpattern hbindings.replacements .all
  rw [fill, hrun, hform, Nameless.replace_replacements]

/-- So a filled pattern is the term up to bound names exactly if the forms say so. -/
theorem fill_alphaEq_iff (hpattern : pattern.Below n) (hbindings : bindings.Below n) :
    ((pattern.fill bindings).run n).1.alphaEq term = true ↔
      pattern.nameless.fillHoles bindings.form? = term.nameless := by
  rw [alphaEq_iff, nameless_fill hpattern hbindings]

/-- A value fills what a hole meets exactly if it has the form of the part, and the part mentions
nothing that is bound above it. -/
theorem filledBy_iff {m : Meeting} {value : Expression}
    (hvalue : bindings.get? m.slot = some value) :
    m.FilledBy bindings.form? ↔
      value.nameless = m.part.nameless ∧ ∀ v ∈ m.above, m.part.occursFree v = false := by
  have habove : (∀ v, m.part.occursFree v = true → v.id ∉ m.above.map (·.id)) ↔
      ∀ v ∈ m.above, m.part.occursFree v = false := by
    constructor
    · intro h v hv
      exact Bool.eq_false_iff.2 fun hfree ↦ h v hfree (List.mem_map_of_mem hv)
    · intro h v hfree hv
      obtain ⟨w, hw, hid⟩ := List.mem_map.1 hv
      exact Bool.eq_false_iff.1 (h w hw) ((occursFree_congr hid).trans hfree)
  rw [Meeting.FilledBy, Bindings.form?_eq, hvalue, ← habove, eq_comm (a := value.nameless),
    ← namelessIn_eq_nameless_iff]
  exact eq_comm

/-- The values of a solution are what the holes meet. -/
theorem solves_iff (hpattern : pattern.Below n) (hbindings : bindings.Below n) :
    known.Solves pattern term n bindings ↔ ∃ ms, pattern.meetings [] term = some ms ∧
      ∀ m ∈ ms, (∃ value, bindings.get? m.slot = some value ∧ value.nameless = m.part.nameless ∧
          ∀ known', known.get? m.slot = some known' → known'.nameless = value.nameless) ∧
        ∀ v ∈ m.above, m.part.occursFree v = false := by
  have hlaid : pattern.nameless.fillHoles bindings.form? = term.nameless ↔
      ∃ ms, pattern.meetings [] term = some ms ∧ ∀ m ∈ ms, m.FilledBy bindings.form? :=
    @fillHoles_eq_iff bindings.form? [] pattern term
  have hfill := (fill_alphaEq_iff hpattern hbindings).trans hlaid
  constructor
  · rintro ⟨-, hcovers, hagrees, hfills⟩
    obtain ⟨ms, hms, hfilled⟩ := hfill.1 hfills
    refine ⟨ms, hms, fun m hm ↦ ?_⟩
    have hhole : pattern.hasHole m.slot = true := (hasHole_iff_of_meetings hms _).2 ⟨m, hm, rfl⟩
    obtain ⟨value, hvalue⟩ := hcovers m.slot hhole
    obtain ⟨hform, habove⟩ := (filledBy_iff hvalue).1 (hfilled m hm)
    exact ⟨⟨value, hvalue, hform,
      fun _ hknown ↦ alphaEq_iff.1 (hagrees _ _ _ hhole hknown hvalue)⟩, habove⟩
  · rintro ⟨ms, hms, h⟩
    refine ⟨hbindings, fun slot hslot ↦ ?_, fun slot value value' hslot hknown hvalue ↦ ?_,
      hfill.2 ⟨ms, hms, fun m hm ↦ ?_⟩⟩
    · obtain ⟨m, hm, hid⟩ := (hasHole_iff_of_meetings hms slot).1 hslot
      obtain ⟨⟨value, hvalue, -⟩, -⟩ := h m hm
      exact ⟨value, by rw [← bindings.get?_congr hid, hvalue]⟩
    · obtain ⟨m, hm, hid⟩ := (hasHole_iff_of_meetings hms slot).1 hslot
      obtain ⟨⟨value'', hvalue', -, hagrees⟩, -⟩ := h m hm
      rw [bindings.get?_congr hid, hvalue] at hvalue'
      cases hvalue'
      exact alphaEq_iff.2 (hagrees _ (by rw [known.get?_congr hid, hknown]))
    · obtain ⟨⟨value, hvalue, hform, -⟩, habove⟩ := h m hm
      exact (filledBy_iff hvalue).2 ⟨hform, habove⟩

/-- What is learned from the meetings of a pattern and a term is a solution. -/
theorem solves_of_learned {ms : List Meeting} (hpattern : pattern.Below n)
    (hbindings : bindings.Below n) (hms : pattern.meetings [] term = some ms)
    (h : known.Learned ms bindings) : known.Solves pattern term n bindings := by
  refine (solves_iff hpattern hbindings).2 ⟨ms, hms, fun m hm ↦ ?_⟩
  obtain ⟨⟨value, hvalue, hform⟩, habove⟩ := h.values m hm
  refine ⟨⟨value, hvalue, hform, fun known' hknown ↦ ?_⟩, habove⟩
  rw [h.keeps m.slot known' hknown] at hvalue
  cases hvalue
  rfl

end Expression

/-- Two solutions have the same values up to bound names. -/
theorem Bindings.Solves.unique {pattern term : Expression}
    {known known' bindings solution : Bindings} {n m : Nat} (hpattern : pattern.Below n)
    (hpattern' : pattern.Below m)
    (h : known.Solves pattern term n bindings) (h' : known'.Solves pattern term m solution)
    {slot : Variable} {value value' : Expression} (hslot : pattern.hasHole slot = true)
    (hvalue : bindings.get? slot = some value) (hvalue' : solution.get? slot = some value') :
    value.alphaEq value' = true := by
  obtain ⟨ms, hms, h⟩ := (Expression.solves_iff hpattern h.below).1 h
  obtain ⟨ms', hms', h'⟩ := (Expression.solves_iff hpattern' h'.below).1 h'
  obtain rfl : ms = ms' := Option.some.inj (hms.symm.trans hms')
  obtain ⟨m, hm, hid⟩ := (Expression.hasHole_iff_of_meetings hms slot).1 hslot
  obtain ⟨⟨u, hu, hform, -⟩, -⟩ := h m hm
  obtain ⟨⟨u', hu', hform', -⟩, -⟩ := h' m hm
  rw [bindings.get?_congr hid, hvalue] at hu
  rw [solution.get?_congr hid, hvalue'] at hu'
  cases hu
  cases hu'
  exact Expression.alphaEq_iff.2 (hform.trans hform'.symm)

namespace Expression

variable {pattern term : Expression} {known bindings : Bindings} {n : Nat}

/-- What matching finds is learned from the meetings. -/
theorem learned_of_matchWith (h : pattern.matchWith term known = some bindings) :
    ∃ ms, pattern.meetings [] term = some ms ∧ known.Learned ms bindings := by
  rw [matchWith, matchUnder_eq] at h
  obtain ⟨ms, hms, hlearn⟩ := Option.bind_eq_some_iff.1 h
  exact ⟨ms, hms, Bindings.learned_of_foldlM hlearn⟩

/-- What matching finds is a solution. -/
theorem solves_of_matchWith (hpattern : pattern.Below n) (hterm : term.Below n)
    (hknown : known.Below n) (h : pattern.matchWith term known = some bindings) :
    known.Solves pattern term n bindings := by
  obtain ⟨ms, hms, hlearned⟩ := learned_of_matchWith h
  exact solves_of_learned hpattern (matchUnder_below hknown hterm h) hms hlearned

/-- Matching finds values if there is a solution. -/
theorem exists_matchWith {solution : Bindings} (hpattern : pattern.Below n)
    (h : known.Solves pattern term n solution) :
    ∃ bindings, pattern.matchWith term known = some bindings := by
  obtain ⟨ms, hms, hmeetings⟩ := (solves_iff hpattern h.below).1 h
  have hvalues : ∀ m ∈ ms, solution.form? m.slot.id = some m.part.nameless ∧
      ∀ v ∈ m.above, m.part.occursFree v = false := by
    intro m hm
    obtain ⟨⟨value, hvalue, hform, -⟩, habove⟩ := hmeetings m hm
    exact ⟨by rw [Bindings.form?_eq, hvalue, Option.map_some, hform], habove⟩
  have hknown : ∀ m ∈ ms, ∀ value, known.get? m.slot = some value →
      solution.form? m.slot.id = some value.nameless := by
    intro m hm value hvalue
    obtain ⟨⟨value', hvalue', -, hagrees⟩, -⟩ := hmeetings m hm
    rw [Bindings.form?_eq, hvalue', Option.map_some, hagrees value hvalue]
  obtain ⟨bindings, hlearn⟩ := Bindings.exists_foldlM_learn hvalues hknown
  exact ⟨bindings, by rw [matchWith, matchUnder_eq, hms]; exact hlearn⟩

/-- Matching finds values for the holes of a pattern exactly if there are any. What it finds is a
solution, the only one up to bound names; it keeps what is known, and it gives values to the holes
of the pattern only. No value mentions a variable that the term binds above a place where the hole
is met. -/
theorem matching_isExact (hpattern : pattern.Below n) (hterm : term.Below n)
    (hknown : known.Below n) :
    ((∃ bindings, pattern.matchWith term known = some bindings) ↔
      ∃ m solution, n ≤ m ∧ known.Solves pattern term m solution) ∧
    ∀ bindings, pattern.matchWith term known = some bindings →
      (∀ slot value, known.get? slot = some value → bindings.get? slot = some value) ∧
      (∀ slot, (bindings.get? slot).isSome = true ↔
        (known.get? slot).isSome = true ∨ pattern.hasHole slot = true) ∧
      ((pattern.fill bindings).run n).1.alphaEq term = true ∧
      (∀ m solution, n ≤ m → known.Solves pattern term m solution → ∀ slot value value',
        pattern.hasHole slot = true → bindings.get? slot = some value →
          solution.get? slot = some value' → value.alphaEq value' = true) ∧
      ∃ ms, pattern.meetings [] term = some ms ∧ ∀ m ∈ ms, ∃ value,
        bindings.get? m.slot = some value ∧ value.alphaEq m.part = true ∧
          ∀ v ∈ m.above, value.occursFree v = false := by
  have hsolves : ∀ bindings, pattern.matchWith term known = some bindings →
      known.Solves pattern term n bindings := fun _ hmatch ↦
    solves_of_matchWith hpattern hterm hknown hmatch
  refine ⟨⟨fun ⟨bindings, hmatch⟩ ↦ ⟨n, bindings, Nat.le_refl n, hsolves bindings hmatch⟩,
    fun ⟨m, solution, hnm, hsolution⟩ ↦ exists_matchWith (hpattern.mono hnm) hsolution⟩,
    fun bindings hmatch ↦ ?_⟩
  obtain ⟨ms, hms, hlearned⟩ := learned_of_matchWith hmatch
  have hfound := hsolves bindings hmatch
  have hdomain : ∀ slot, (bindings.get? slot).isSome = true ↔
      (known.get? slot).isSome = true ∨ pattern.hasHole slot = true := by
    intro slot
    rw [hlearned.domain, hasHole_iff_of_meetings hms]
  refine ⟨hlearned.keeps, hdomain, hfound.fills,
    fun m solution hnm hsolution slot value value' hslot hvalue hvalue' ↦
      hfound.unique hpattern (hpattern.mono hnm) hsolution hslot hvalue hvalue',
    ms, hms, fun m hm ↦ ?_⟩
  obtain ⟨⟨value, hvalue, hform⟩, habove⟩ := hlearned.values m hm
  refine ⟨value, hvalue, alphaEq_iff.2 hform, fun v hv ↦ ?_⟩
  rw [← occurs_nameless, hform, occurs_nameless]
  exact habove v hv

/-- A hole below a binder whose known value is the very variable bound there: the value fills the
pattern, since filling renames the binder. -/
theorem matching_below_binder :
    (all ⟨"x", 0⟩ (equals (.application [symbol "f", var ⟨"x", 0⟩]) (hole ⟨"p", 2⟩))).matchWith
        (all ⟨"y", 1⟩ (equals (.application [symbol "f", var ⟨"y", 1⟩]) (var ⟨"x", 0⟩)))
        [(⟨"p", 2⟩, var ⟨"x", 0⟩)] = some [(⟨"p", 2⟩, var ⟨"x", 0⟩)] ∧
      (((all ⟨"x", 0⟩ (equals (.application [symbol "f", var ⟨"x", 0⟩]) (hole ⟨"p", 2⟩))).fill
          [(⟨"p", 2⟩, var ⟨"x", 0⟩)]).run 3).1.alphaEq
        (all ⟨"y", 1⟩ (equals (.application [symbol "f", var ⟨"y", 1⟩]) (var ⟨"x", 0⟩))) =
          true := by
  have hpattern : (all ⟨"x", 0⟩ (equals (.application [symbol "f", var ⟨"x", 0⟩])
      (hole ⟨"p", 2⟩))).Below 3 :=
    ⟨Nat.zero_lt_succ 2, ⟨trivial, Nat.zero_lt_succ 2, trivial⟩, trivial⟩
  have hterm : (all ⟨"y", 1⟩ (equals (.application [symbol "f", var ⟨"y", 1⟩])
      (var ⟨"x", 0⟩))).Below 3 :=
    ⟨Nat.one_lt_succ_succ 1, ⟨trivial, Nat.one_lt_succ_succ 1, trivial⟩, Nat.zero_lt_succ 2⟩
  have hknown : Bindings.Below 3 [(⟨"p", 2⟩, var ⟨"x", 0⟩)] := by
    intro b hb
    rw [List.mem_singleton.1 hb]
    exact Nat.zero_lt_succ 2
  obtain ⟨-, hfound⟩ := matching_isExact hpattern hterm hknown
  obtain ⟨-, -, hfills, -⟩ := hfound [(⟨"p", 2⟩, var ⟨"x", 0⟩)] rfl
  exact ⟨rfl, hfills⟩

end Expression

end NaturalDeduction
