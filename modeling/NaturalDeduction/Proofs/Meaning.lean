import NaturalDeduction.Expression.Evaluation
import NaturalDeduction.Proofs.Denotation

/-!
# What expressions mean

An interpretation in which the primitive inferences are sound. Statements and objects are not told
apart, so there is one domain: the values of the evaluator, the symbols, what is needed of
functions, and one object for everything else. A statement *holds* if it denotes the truth value
true.

Quantifiers range over the whole domain, and equations are about identity of objects. What a record
of a replacement denotes is what its target denotes, whatever the keys and values are. So the
equation between the record and the result is true if keys and values denote the same
(`denote_replace`), and it need not be true otherwise.

A function can only be used by the bounded quantifier, which asks for each of the number domains
whether the function holds for all members. Just that is kept of a function, which is why the domain
is a type at all.

An application of an operator denotes what the evaluator makes of the meanings of its arguments.

Main statements: `denote_replace` says that replacing equals changes nothing, and
`denote_instantiateAt` that a body with a value in it denotes what the body denotes with the meaning
of the value.

That one domain is enough is what makes the calculus untyped: a rule whose condition is a number has
a meaning like any other, and it holds, since its condition does not.
-/

namespace NaturalDeduction

/-- What an expression can denote. -/
inductive Meaning where
  | number (q : Rat)
  | text (s : String)
  | truth (b : Bool)
  | symbol (name : String)
  /-- A function, by the number domains for whose members it holds. -/
  | function (holdsOn : String → Prop)
  | other
  deriving Inhabited

namespace Meaning

/-- The value of the evaluator as a meaning. -/
def ofValue : Value → Meaning
  | .number q => number q
  | .text s => text s
  | .truth b => truth b

/-- Different values mean different things. -/
theorem ofValue_inj {v w : Value} : ofValue v = ofValue w ↔ v = w := by
  cases v <;> cases w <;> simp [ofValue]

/-- What a symbol denotes. The two truth values have names. -/
def ofSymbol (name : String) : Meaning :=
  if name = "true" then truth true else if name = "false" then truth false else symbol name

open Classical in
/-- The truth value of a proposition. -/
noncomputable def ofProp (p : Prop) : Meaning := truth (decide p)

/-- What is said holds if it means the truth value true. -/
theorem ofProp_eq_true {p : Prop} : ofProp p = truth true ↔ p := by simp [ofProp]

/-- A meaning as an argument of an operator. Only values are values; only symbols are names of
number domains. -/
def argument (d : Meaning) : Expression.Argument where
  source :=
    match d with
    | symbol name => .symbol name
    | _ => .application []
  value _ :=
    match d with
    | number q => .ok (.number q)
    | text s => .ok (.text s)
    | truth b => .ok (.truth b)
    | _ => .error (.unrecognized (.application []))

/-- What an application denotes, given what its items denote. -/
noncomputable def apply : List Meaning → Meaning
  | symbol "subst" :: args =>
    match args with
    | [target, _, _] => target
    | _ => other
  | symbol "forall-in" :: args =>
    match args with
    | [symbol domain, function holdsOn] => ofProp (holdsOn domain)
    | [_, function _] => truth true
    | _ => other
  | symbol name :: args =>
    match Operator.ofName? name with
    | none => other
    | some op =>
      match Expression.operate (.application []) op (args.map argument) with
      | .ok v => ofValue v
      | .error _ => other
  | _ => other

end Meaning

namespace Nameless

open Meaning

mutual

/-- What a form denotes, given what free variables denote and what the binders above it bind. -/
noncomputable def denote (ρ : Nat → Meaning) : Nameless → List Meaning → Meaning
  | .symbol name, _ => ofSymbol name
  | .text contents, _ => .text contents
  | .number value, _ => .number value
  | hole _, _ => other
  | free id, _ => ρ id
  | bound index, bounds => bounds.getD index other
  | binder .universal body, bounds => ofProp (∀ d, denote ρ body (d :: bounds) = truth true)
  | binder .lambda body, bounds =>
    function fun domain ↦
      ∀ q, inDomain? domain q = some true → denote ρ body (.number q :: bounds) = truth true
  | binder .existential _, _ => other
  | implies a b, bounds =>
    ofProp (denote ρ a bounds = truth true → denote ρ b bounds = truth true)
  | equals a b, bounds => ofProp (denote ρ a bounds = denote ρ b bounds)
  | application items, bounds => Meaning.apply (denoteAll ρ items bounds)

/-- The same for a list of forms. -/
noncomputable def denoteAll (ρ : Nat → Meaning) : List Nameless → List Meaning → List Meaning
  | [], _ => []
  | t :: rest, bounds => denote ρ t bounds :: denoteAll ρ rest bounds

end

/-- The mutual definition goes through operands one by one. -/
theorem denoteAll_eq_map (ρ : Nat → Meaning) (ts : List Nameless) (bounds : List Meaning) :
    denoteAll ρ ts bounds = ts.map (denote ρ · bounds) := by
  induction ts with
  | nil => rfl
  | cons t rest ih => rw [denoteAll, ih, List.map_cons]

end Nameless

namespace Meaning

/-- The interpretation as one among others. -/
noncomputable def standard : Interpretation Meaning where
  symbol := ofSymbol
  text := text
  number := number
  hole _ := other
  binder
    | .universal, f => ofProp (∀ d, f d = truth true)
    | .existential, _ => other
    | .lambda, f => function fun domain ↦
        ∀ q, inDomain? domain q = some true → f (number q) = truth true
  implies a b := ofProp (a = truth true → b = truth true)
  equals a b := ofProp (a = b)
  application := apply

/-- An index that is not bound means the object for everything else, below a binder as above it. -/
theorem enter_getD (d : Meaning) (bounds : List Meaning) :
    enter d (bounds.getD · other) = ((d :: bounds).getD · other) := by
  funext index
  cases index <;> rfl

end Meaning

namespace Nameless

open Meaning

variable {ρ σ : Nat → Meaning} {bounds : List Meaning}

/-- This is one of the interpretations in general, so what is known of those can be used. -/
theorem denote_eq_denoteForm (t : Nameless) (bounds : List Meaning) :
    denote ρ t bounds = standard.denoteForm ρ t (bounds.getD · other) := by
  induction t generalizing bounds with
  | binder kind body ih =>
    cases kind <;> simp only [denote, Interpretation.denoteForm, standard, enter_getD, ih]
  | implies a b iha ihb | equals a b iha ihb =>
    simp only [denote, Interpretation.denoteForm, standard, iha, ihb]
  | application items ih =>
    rw [denote, Interpretation.denoteForm, denoteAll_eq_map, Interpretation.denoteForms_eq_map]
    exact congrArg Meaning.apply (List.map_congr_left fun t ht ↦ ih t ht bounds)
  | _ => rfl

/-- What a variable denotes makes no difference where it is not free. -/
theorem denote_congr {t : Nameless} (h : ∀ i, t.occurs i = true → ρ i = σ i) :
    denote ρ t bounds = denote σ t bounds := by
  rw [denote_eq_denoteForm, denote_eq_denoteForm, Interpretation.denoteForm_congr h]

/-- **Replacing equals changes nothing.** If each key denotes what its value denotes, a form denotes
what it denotes after the walk, whichever matches are selected. -/
theorem denote_replace {chosen : Occurrences} {replacements : List Replacement}
    (h : ∀ r ∈ replacements, denote ρ r.key.nameless [] = denote ρ r.value.nameless [])
    (t : Nameless) (i : Nat) :
    denote ρ (t.replace chosen (replacements.map Replacement.forms) i).1 bounds =
      denote ρ t bounds := by
  rw [denote_eq_denoteForm, denote_eq_denoteForm, Interpretation.denoteForm_replace]
  intro p hp bounds
  obtain ⟨r, hr, rfl⟩ := List.mem_map.1 hp
  have hequal := h r hr
  rw [denote_eq_denoteForm, denote_eq_denoteForm] at hequal
  simpa only [Replacement.forms, Interpretation.denoteForm_nameless] using hequal

end Nameless

namespace Expression

open Nameless Meaning

variable {ρ : Nat → Meaning}

/-! ### Opening and closing binders -/

/-- The form under a scope means what the expression means, with its variables looked up through the
scope. -/
theorem denote_namelessIn (e : Expression) (scope : List Nat) (bounds : List Meaning) :
    denote ρ (e.namelessIn scope) bounds =
      standard.denote (throughScope scope (bounds.getD · other) ρ) e := by
  rw [denote_eq_denoteForm, Interpretation.denoteForm_namelessIn]

/-- The form of a whole expression has no index that could reach an object. -/
theorem denote_nameless_append (e : Expression) (bounds : List Meaning) :
    denote ρ e.nameless bounds = denote ρ e.nameless [] := by
  rw [nameless, denote_namelessIn, denote_namelessIn]
  rfl

/-- A variable may as well be bound, by a binder outside the scope, to what it denotes. -/
theorem denote_update_namelessIn (e : Expression) (scope : List Nat) (bounds : List Meaning)
    (x : Nat) (d : Meaning) (h : bounds.length = scope.length) :
    denote (Function.update ρ x d) (e.namelessIn scope) bounds =
      denote ρ (e.namelessIn (scope ++ [x])) (bounds ++ [d]) := by
  rw [denote_namelessIn, denote_namelessIn, throughScope_append_singleton]
  have hd : (bounds ++ [d]).getD scope.length other = d := by simp [← h]
  rw [hd, throughScope_congr fun index hindex ↦ ?_]
  simp [List.getD_eq_getElem?_getD, List.getElem?_append_left (h ▸ hindex)]

/-- Opening a binder with an expression is letting the variable denote what the expression
denotes. -/
theorem denote_instantiateAt (e u : Expression) (scope : List Nat) (bounds : List Meaning)
    (x : Nat) :
    denote ρ ((e.namelessIn (scope ++ [x])).instantiateAt u.nameless scope.length) bounds =
      denote (Function.update ρ x (denote ρ u.nameless [])) (e.namelessIn scope) bounds := by
  have hu : ∀ bounds, standard.denoteForm ρ u.nameless bounds = denote ρ u.nameless [] := by
    intro bounds
    rw [denote_eq_denoteForm, Interpretation.denoteForm_nameless,
      Interpretation.denoteForm_nameless]
  rw [denote_eq_denoteForm, Interpretation.denoteForm_instantiateAt hu, denote_namelessIn,
    Interpretation.denoteForm_namelessIn, throughScope_append_singleton, Function.update_self,
    throughScope_congr fun index hindex ↦ Function.update_of_ne (Nat.ne_of_lt hindex) ..]

end Expression

end NaturalDeduction
