import Mathlib.Logic.Function.Basic
import NaturalDeduction.Proofs.Calculus

/-!
# Interpretations

An interpretation says what the parts of an expression denote in some domain: each atom an object,
each way to put expressions together a function, and each sort of binder a functional, which is
given the function that the body is of the bound variable. Nothing else is asked of it. Statements
and objects are not told apart, and an equation need not be true if its sides denote the same.

With an assignment of objects to variables, every expression denotes an object
(`Interpretation.denote`). On nameless forms the bound variables have an assignment of their own, by
index (`Interpretation.denoteForm`), and the two agree if the assignment is looked up through the
scope (`denoteForm_namelessIn`). So expressions that are equal up to bound names denote the same.

Main statement: `denote_substitute`, that replacing equals by equals changes nothing. The equality
of keys and values is about one assignment, while below a binder there is another one for each
object. It survives because keys and values are forms of whole expressions, which no index of a form
can reach into (`denoteForm_nameless`).

Main definitions:

* `Interpretation`: one object for each atom, and a function for each way to put expressions
  together.
* `Interpretation.denote`, `Interpretation.denoteForm`: what expressions and forms denote.
* `truthValues`: an interpretation by two truth values, as an example.
-/

namespace NaturalDeduction

universe u

/-- What the parts of expressions denote in a domain. -/
structure Interpretation (D : Type u) where
  symbol : String → D
  text : String → D
  number : Rat → D
  /-- What the hole with a number denotes. -/
  hole : Nat → D
  /-- What a binder denotes, given the function that its body is of the bound variable. -/
  binder : BinderKind → (D → D) → D
  implies : D → D → D
  equals : D → D → D
  application : List D → D

namespace Interpretation

variable {D : Type u} (I : Interpretation D)

mutual

/-- What an expression denotes, given what the variables denote. -/
def denote (ρ : Nat → D) : Expression → D
  | .atom (.symbol name) => I.symbol name
  | .atom (.text contents) => I.text contents
  | .atom (.number value) => I.number value
  | .atom (.var v) => ρ v.id
  | .atom (.hole v) => I.hole v.id
  | .binder kind v body => I.binder kind fun d ↦ denote (Function.update ρ v.id d) body
  | .implies a b => I.implies (denote ρ a) (denote ρ b)
  | .equals a b => I.equals (denote ρ a) (denote ρ b)
  | .application items => I.application (denoteAll ρ items)

/-- What each of the expressions denotes. -/
def denoteAll (ρ : Nat → D) : List Expression → List D
  | [] => []
  | e :: rest => denote ρ e :: denoteAll ρ rest

end

/-- The mutual definition goes through operands one by one. -/
theorem denoteAll_eq_map (ρ : Nat → D) (es : List Expression) :
    I.denoteAll ρ es = es.map (I.denote ρ) := by
  induction es with
  | nil => rfl
  | cons e rest ih => rw [denoteAll, ih, List.map_cons]

end Interpretation

/-! ### Forms -/

/-- What the indices denote below one more binder. -/
def enter {D : Type u} (d : D) (bounds : Nat → D) : Nat → D
  | 0 => d
  | index + 1 => bounds index

/-- What variables denote below the binders of a scope: the ones in the scope by their index. -/
def throughScope {D : Type u} (scope : List Nat) (bounds ρ : Nat → D) (id : Nat) : D :=
  match scope.idxOf? id with
  | some index => bounds index
  | none => ρ id

/-- Only the indices that the scope has are looked up. -/
theorem throughScope_congr {D : Type u} {scope : List Nat} {bounds bounds' ρ : Nat → D}
    (h : ∀ index < scope.length, bounds index = bounds' index) :
    throughScope scope bounds ρ = throughScope scope bounds' ρ := by
  funext id
  rw [throughScope, throughScope]
  cases hid : scope.idxOf? id with
  | none => rfl
  | some index =>
    obtain ⟨hindex, -⟩ := List.idxOf?_eq_some_iff.1 hid
    exact h index hindex

/-- A variable may as well be bound, by a binder outside the scope, to what it denotes. -/
theorem throughScope_append_singleton {D : Type u} (scope : List Nat) (bounds ρ : Nat → D)
    (x : Nat) :
    throughScope (scope ++ [x]) bounds ρ =
      throughScope scope bounds (Function.update ρ x (bounds scope.length)) := by
  funext id
  have happend : (scope ++ [x]).idxOf? id =
      (scope.idxOf? id).or (([x].idxOf? id).map (· + scope.length)) := List.findIdx?_append
  rw [throughScope, throughScope, happend, List.idxOf?_singleton]
  cases scope.idxOf? id with
  | some index => rfl
  | none =>
    by_cases hx : id = x
    · simp [hx]
    · simp [hx, Ne.symm hx]

/-- Going below a binder gives its variable the object that the index zero has. -/
theorem throughScope_cons {D : Type u} (scope : List Nat) (bounds ρ : Nat → D) (id : Nat) (d : D) :
    throughScope (id :: scope) (enter d bounds) ρ =
      Function.update (throughScope scope bounds ρ) id d := by
  funext other
  by_cases h : other = id
  · simp [throughScope, List.idxOf?_cons, h, enter]
  · simp only [throughScope, List.idxOf?_cons, Function.update_of_ne h, beq_iff_eq, Ne.symm h,
      if_false]
    cases scope.idxOf? other <;> rfl

/-- An index that is given another object is one further out below a binder. -/
theorem enter_update {D : Type u} (d d' : D) (bounds : Nat → D) (depth : Nat) :
    enter d (Function.update bounds depth d') =
      Function.update (enter d bounds) (depth + 1) d' := by
  funext index
  cases index with
  | zero => rfl
  | succ index => simp [enter, Function.update_apply]

namespace Interpretation

variable {D : Type u} (I : Interpretation D)

mutual

/-- What a form denotes, given what the free variables and the indices denote. -/
def denoteForm (ρ : Nat → D) : Nameless → (bounds : Nat → D) → D
  | .symbol name, _ => I.symbol name
  | .text contents, _ => I.text contents
  | .number value, _ => I.number value
  | .hole id, _ => I.hole id
  | .free id, _ => ρ id
  | .bound index, bounds => bounds index
  | .binder kind body, bounds => I.binder kind fun d ↦ denoteForm ρ body (enter d bounds)
  | .implies a b, bounds => I.implies (denoteForm ρ a bounds) (denoteForm ρ b bounds)
  | .equals a b, bounds => I.equals (denoteForm ρ a bounds) (denoteForm ρ b bounds)
  | .application items, bounds => I.application (denoteForms ρ items bounds)

/-- What each of the forms denotes. -/
def denoteForms (ρ : Nat → D) : List Nameless → (bounds : Nat → D) → List D
  | [], _ => []
  | t :: rest, bounds => denoteForm ρ t bounds :: denoteForms ρ rest bounds

end

/-- The mutual definition on forms goes through operands one by one as well. -/
theorem denoteForms_eq_map (ρ : Nat → D) (ts : List Nameless) (bounds : Nat → D) :
    I.denoteForms ρ ts bounds = ts.map (I.denoteForm ρ · bounds) := by
  induction ts with
  | nil => rfl
  | cons t rest ih => rw [denoteForms, ih, List.map_cons]

variable {I} {ρ σ bounds bounds' : Nat → D}

/-- Two binders denote the same if their bodies do for every object. -/
theorem denoteForm_binder_congr {kind : BinderKind} {a b : Nameless}
    (h : ∀ d, I.denoteForm ρ a (enter d bounds) = I.denoteForm σ b (enter d bounds')) :
    I.denoteForm ρ (.binder kind a) bounds = I.denoteForm σ (.binder kind b) bounds' := by
  rw [denoteForm, denoteForm, funext h]

/-- Two applications denote the same if their operands do, one by one. -/
theorem denoteForm_application_congr {as bs : List Nameless}
    (h : as.map (I.denoteForm ρ · bounds) = bs.map (I.denoteForm σ · bounds')) :
    I.denoteForm ρ (.application as) bounds = I.denoteForm σ (.application bs) bounds' := by
  rw [denoteForm, denoteForm, denoteForms_eq_map, denoteForms_eq_map, h]

/-- What a variable denotes makes no difference where it is not free. -/
theorem denoteForm_congr {t : Nameless} (h : ∀ i, t.occurs i = true → ρ i = σ i) :
    I.denoteForm ρ t bounds = I.denoteForm σ t bounds := by
  induction t generalizing bounds with
  | free id => exact h id (beq_self_eq_true id)
  | binder kind body ih => exact denoteForm_binder_congr fun d ↦ ih h
  | implies a b iha ihb | equals a b iha ihb =>
    have ha : ∀ i, a.occurs i = true → ρ i = σ i := fun i hi ↦ h i (by simp [Nameless.occurs, hi])
    have hb : ∀ i, b.occurs i = true → ρ i = σ i := fun i hi ↦ h i (by simp [Nameless.occurs, hi])
    simp only [denoteForm, iha ha, ihb hb]
  | application items ih =>
    refine denoteForm_application_congr (List.map_congr_left fun t ht ↦ ih t ht fun i hi ↦ h i ?_)
    rw [Nameless.occurs, Nameless.occursIn_eq_any]
    exact List.any_eq_true.2 ⟨t, ht, hi⟩
  | _ => rfl

/-- The form of an expression under a scope denotes what the expression denotes. -/
theorem denoteForm_namelessIn (e : Expression) (scope : List Nat) (bounds : Nat → D) :
    I.denoteForm ρ (e.namelessIn scope) bounds = I.denote (throughScope scope bounds ρ) e := by
  induction e generalizing scope bounds with
  | atom a =>
    cases a with
    | var v =>
      rw [Expression.namelessIn, Expression.resolve, denote, throughScope]
      cases scope.idxOf? v.id <;> rfl
    | _ => rfl
  | binder kind v body ih =>
    rw [Expression.namelessIn, denoteForm, denote]
    refine congrArg (I.binder kind) (funext fun d ↦ ?_)
    rw [ih, throughScope_cons]
  | implies a b iha ihb => rw [Expression.namelessIn, denoteForm, denote, iha, ihb]
  | equals a b iha ihb => rw [Expression.namelessIn, denoteForm, denote, iha, ihb]
  | application items ih =>
    rw [Expression.namelessIn, denoteForm, denote, denoteForms_eq_map, denoteAll_eq_map,
      Expression.namelessAllIn_eq_map, List.map_map]
    exact congrArg I.application (List.map_congr_left fun e he ↦ ih e he scope bounds)

/-- Whatever the indices denote, the form of a whole expression denotes what the expression does. -/
theorem denoteForm_nameless (e : Expression) (bounds : Nat → D) :
    I.denoteForm ρ e.nameless bounds = I.denote ρ e :=
  denoteForm_namelessIn e [] bounds

/-- Expressions that are equal up to bound names denote the same. -/
theorem denote_eq_of_alphaEq {a b : Expression} (h : a.alphaEq b = true) (ρ : Nat → D) :
    I.denote ρ a = I.denote ρ b := by
  rw [← denoteForm_nameless a ρ, ← denoteForm_nameless b ρ, Expression.alphaEq_iff.1 h]

/-- Opening a binder with a form that has no index pointing outside is letting the index denote what
the form denotes. -/
theorem denoteForm_instantiateAt {u : Nameless} {d : D} (h : ∀ bounds, I.denoteForm ρ u bounds = d)
    (t : Nameless) (depth : Nat) :
    I.denoteForm ρ (t.instantiateAt u depth) bounds =
      I.denoteForm ρ t (Function.update bounds depth d) := by
  induction t generalizing depth bounds with
  | bound index =>
    by_cases hindex : index = depth
    · simp [Nameless.instantiateAt, denoteForm, hindex, h]
    · simp [Nameless.instantiateAt, denoteForm, hindex]
  | binder kind body ih =>
    exact denoteForm_binder_congr fun d' ↦ by rw [ih, enter_update]
  | implies a b iha ihb | equals a b iha ihb =>
    simp only [Nameless.instantiateAt, denoteForm, iha, ihb]
  | application items ih =>
    rw [Nameless.instantiateAt, Nameless.instantiateAllAt_eq_map]
    refine denoteForm_application_congr ?_
    rw [List.map_map]
    exact List.map_congr_left fun t ht ↦ ih t ht depth
  | _ => rfl

/-! ### Replacing equals -/

section

variable {chosen : Occurrences} {pairs : List (Nameless × Nameless)}

/-- A part that is found among the keys denotes what its value denotes, whether or not this
occurrence was chosen. -/
theorem denoteForm_replace_match
    (h : ∀ p ∈ pairs, ∀ bounds, I.denoteForm ρ p.1 bounds = I.denoteForm ρ p.2 bounds)
    {t : Nameless} {p : Nameless × Nameless} (hp : pairs.find? (fun p ↦ p.1 = t) = some p)
    (i : Nat) :
    I.denoteForm ρ (t.replace chosen pairs i).1 bounds = I.denoteForm ρ t bounds := by
  have hkey : p.1 = t := by simpa using List.find?_some hp
  rw [Nameless.replace_match hp]
  split
  · rw [← hkey, h p (List.mem_of_find?_eq_some hp)]
  · rfl

/-- If each key denotes what its value denotes, a form denotes what it denotes after the walk,
whichever matches are selected. -/
theorem denoteForm_replace
    (h : ∀ p ∈ pairs, ∀ bounds, I.denoteForm ρ p.1 bounds = I.denoteForm ρ p.2 bounds)
    (t : Nameless) (i : Nat) :
    I.denoteForm ρ (t.replace chosen pairs i).1 bounds = I.denoteForm ρ t bounds := by
  induction t generalizing i bounds with
  | binder kind body ih =>
    cases hfind : pairs.find? fun p ↦ p.1 = Nameless.binder kind body with
    | some p => exact denoteForm_replace_match h hfind i
    | none =>
      rw [Nameless.replace_binder hfind rfl]
      exact denoteForm_binder_congr fun d ↦ ih i
  | implies a b iha ihb =>
    cases hfind : pairs.find? fun p ↦ p.1 = Nameless.implies a b with
    | some p => exact denoteForm_replace_match h hfind i
    | none =>
      rw [Nameless.replace_implies hfind rfl rfl]
      simp only [denoteForm, iha, ihb]
  | equals a b iha ihb =>
    cases hfind : pairs.find? fun p ↦ p.1 = Nameless.equals a b with
    | some p => exact denoteForm_replace_match h hfind i
    | none =>
      rw [Nameless.replace_equals hfind rfl rfl]
      simp only [denoteForm, iha, ihb]
  | application items ih =>
    cases hfind : pairs.find? fun p ↦ p.1 = Nameless.application items with
    | some p => exact denoteForm_replace_match h hfind i
    | none =>
      rw [Nameless.replace_application hfind rfl]
      refine denoteForm_application_congr ?_
      clear hfind
      induction items generalizing i with
      | nil => rfl
      | cons t rest ih' =>
        refine congrArg₂ List.cons (ih t List.mem_cons_self i) ?_
        exact ih' (fun u hu ↦ ih u (List.mem_cons_of_mem _ hu)) _
  | _ =>
    rw [Nameless.replace_node]
    split
    next p hp =>
      rw [← Nameless.replace_match hp]
      exact denoteForm_replace_match h hp i
    next => rfl

end

/-- **Replacing equals by equals changes nothing.** Whatever the parts of expressions denote, if
each key denotes what its value denotes, then every expression denotes after the replacement what it
denoted before, at any depth and whichever occurrences are chosen. -/
theorem denote_substitute {target : Expression} {replacements : List Replacement} {n : Nat}
    (htarget : target.Below n) (hbelow : ∀ r ∈ replacements, r.Below n) (chosen : Occurrences)
    (hequal : ∀ r ∈ replacements, I.denote ρ r.key = I.denote ρ r.value) :
    I.denote ρ ((target.substitute replacements chosen).run n).1 = I.denote ρ target := by
  obtain ⟨result, m, hrun, -, -, hform⟩ := Expression.substitute_run htarget hbelow chosen
  have hpairs : ∀ p ∈ replacements.map Replacement.forms, ∀ bounds,
      I.denoteForm ρ p.1 bounds = I.denoteForm ρ p.2 bounds := by
    intro p hp bounds
    obtain ⟨r, hr, rfl⟩ := List.mem_map.1 hp
    show I.denoteForm ρ r.key.nameless bounds = I.denoteForm ρ r.value.nameless bounds
    rw [denoteForm_nameless, denoteForm_nameless, hequal r hr]
  calc I.denote ρ ((target.substitute replacements chosen).run n).1
    _ = I.denoteForm ρ result.nameless ρ := by rw [hrun, denoteForm_nameless]
    _ = I.denoteForm ρ target.nameless ρ := by rw [hform, denoteForm_replace hpairs]
    _ = I.denote ρ target := denoteForm_nameless target ρ

/-- Two truth values, with quantifiers that range over both. Every symbol is true, and an
application is the conjunction of its items. -/
def truthValues : Interpretation Bool where
  symbol _ := true
  text _ := true
  number _ := true
  hole _ := true
  binder
    | .universal, f => f true && f false
    | .existential, f => f true || f false
    | .lambda, f => f true
  implies a b := !a || b
  equals a b := a == b
  application items := items.all id

/-- The value is the variable that the binder binds, and only the second occurrence is replaced. If
the value were captured, the statement would become true. -/
theorem denote_substitute_under_binder :
    let x : Variable := ⟨"x", 0⟩
    let y : Variable := ⟨"y", 1⟩
    let target : Expression := .implies (.var x) (.all y (.equals (.var x) (.var y)))
    truthValues.denote (fun _ ↦ true)
      ((target.substitute [⟨.var x, .var y⟩] ⟨[1], by decide⟩).run 2).1 = false := by
  intro x y target
  have htarget : target.Below 2 := ⟨Nat.two_pos, Nat.one_lt_two, Nat.two_pos, Nat.one_lt_two⟩
  have hbelow : ∀ r ∈ [Replacement.mk (.var x) (.var y)], r.Below 2 := by
    simpa using ⟨Nat.two_pos, Nat.one_lt_two⟩
  have hequal : ∀ r ∈ [Replacement.mk (.var x) (.var y)],
      truthValues.denote (fun _ ↦ true) r.key = truthValues.denote (fun _ ↦ true) r.value := by
    simp [Expression.var, denote]
  rw [denote_substitute htarget hbelow _ hequal]
  decide

end Interpretation

end NaturalDeduction
