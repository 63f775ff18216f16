import NaturalDeduction.Proofs.Meaning

/-!
# The evaluator and the interpretation agree

Where the evaluator has an answer, it is what the expression denotes. The converse is not to be
expected: a statement without a value may hold, and the evaluator stops at variables.

An application denotes what its operator makes of meanings, and evaluates to what the operator makes
of values. So what is needed is that operators are monotone. If each argument of a second list
has the answers of the argument of the first one that it stands for, and the name if a number domain
is named, then the operation on the second list has the answer of that on the first
(`operate_answers`). This is said by `Answers`, which composes along a computation, so a proof about
an operator has the shape of its definition.

Main statement: `denote_of_value`.

The two directions of reading differ in laziness. The evaluator may stop before it has looked at all
arguments, so an argument that it never reached has no answer to compare, and `Answers` asks for
none.
-/

namespace NaturalDeduction.Expression

open Nameless

/-- Whether the second computation has the answer of the first one, if that has one. -/
def Answers {α : Type} (x y : Evaluated α) : Prop := ∀ a, x = .ok a → y = .ok a

namespace Answers

variable {α β : Type} {x y : Evaluated α}

/-- Every result has its own answers. -/
theorem refl (x : Evaluated α) : Answers x x := fun _ h ↦ h

/-- An error has no answers, so nothing is asked of what it is compared with. -/
theorem of_error (e : EvaluationError) : Answers (.error e) y := fun _ h ↦ nomatch h

/-- Answers compose: the second computation goes on from the answer that the first one gave as well.
-/
theorem bind {f g : α → Evaluated β} (h : Answers x y) (hrest : ∀ a, Answers (f a) (g a)) :
    Answers (x >>= f) (y >>= g) := by
  intro b hb
  cases x with
  | error e => exact nomatch hb
  | ok a =>
    rw [h a rfl]
    exact hrest a b hb

/-- They are kept under a function of the answer. -/
theorem map (f : α → β) (h : Answers x y) : Answers (f <$> x) (f <$> y) := by
  intro b hb
  cases x with
  | error e => exact nomatch hb
  | ok a =>
    rw [h a rfl]
    exact hb

end Answers

/-! ### Arguments -/

/-- Whether an argument has the value of another one, and names the number domain that it names. -/
structure Argument.Answers (a b : Argument) : Prop where
  value : Expression.Answers (a.value ()) (b.value ())
  domain : ∀ name q holds, a.source = symbol name → inDomain? name q = some holds →
    b.source = symbol name

namespace Argument.Answers

variable {a b : Argument} {as bs : List Argument}

theorem truth (h : a.Answers b) : Expression.Answers a.truth b.truth := by
  refine h.value.bind fun v ↦ ?_
  cases v with
  | truth t => exact .refl _
  | _ => exact .of_error _

theorem number (h : a.Answers b) : Expression.Answers a.number b.number := by
  refine h.value.bind fun v ↦ ?_
  cases v with
  | number q => exact .refl _
  | _ => exact .of_error _

theorem text (h : a.Answers b) : Expression.Answers a.text b.text := by
  refine h.value.bind fun v ↦ ?_
  cases v with
  | text s => exact .refl _
  | _ => exact .of_error _

/-- A conjunction is decided in the order of its arguments, and stops at the first one that is
false. -/
theorem allTrue (h : List.Forall₂ Argument.Answers as bs) :
    Expression.Answers (allTrue as) (allTrue bs) := by
  induction h with
  | nil => exact .refl _
  | cons hab _ ih =>
    refine hab.truth.bind fun t ↦ ?_
    cases t with
    | true => exact ih
    | false => exact .refl _

/-- A disjunction stops at the first one that is true. -/
theorem anyTrue (h : List.Forall₂ Argument.Answers as bs) :
    Expression.Answers (anyTrue as) (anyTrue bs) := by
  induction h with
  | nil => exact .refl _
  | cons hab _ ih =>
    refine hab.truth.bind fun t ↦ ?_
    cases t with
    | true => exact .refl _
    | false => exact ih

/-- Answers along a list, if each item has them. -/
theorem mapM {α : Type} {f : Argument → Evaluated α}
    (hf : ∀ {a b : Argument}, a.Answers b → Expression.Answers (f a) (f b))
    (h : List.Forall₂ Argument.Answers as bs) : Expression.Answers (as.mapM f) (bs.mapM f) := by
  induction h with
  | nil => exact .refl _
  | cons hab _ ih =>
    rw [List.mapM_cons, List.mapM_cons]
    exact (hf hab).bind fun _ ↦ ih.bind fun _ ↦ .refl _

variable {c d : Argument}

theorem compare (holds : Rat → Rat → Bool) (hab : a.Answers b) (hcd : c.Answers d) :
    Expression.Answers (a.compare holds c) (b.compare holds d) :=
  hab.number.bind fun _ ↦ hcd.number.bind fun _ ↦ .refl _

theorem compute (result : Rat → Rat → Rat) (hab : a.Answers b) (hcd : c.Answers d) :
    Expression.Answers (a.compute result c) (b.compute result d) :=
  hab.number.bind fun _ ↦ hcd.number.bind fun _ ↦ .refl _

end Argument.Answers

/-! ### Operators -/

/-- Membership is the one operator that looks at an argument itself: the second one has to be the
symbol of a number domain. -/
theorem operate_membership_eq_ok {whole : Expression} {a c : Argument} {v : Value} :
    operate whole .membership [a, c] = .ok v ↔
      ∃ domain q holds, c.source = symbol domain ∧ a.number = .ok q ∧
        inDomain? domain q = some holds ∧ v = .truth holds := by
  obtain ⟨source, value⟩ := c
  constructor
  · intro h
    cases source with
    | atom s =>
      cases s with
      | symbol domain =>
        simp only [operate] at h
        cases hq : a.number with
        | error e => rw [hq] at h; exact nomatch h
        | ok q =>
          cases hdomain : inDomain? domain q with
          | none => simp [hq, hdomain, bind, Except.bind] at h
          | some holds =>
            refine ⟨domain, q, holds, rfl, rfl, hdomain, ?_⟩
            simpa [hq, hdomain, bind, Except.bind, pure, Except.pure, eq_comm] using h
      | _ => simp [operate] at h
    | _ => simp [operate] at h
  · rintro ⟨domain, q, holds, rfl, hq, hdomain, rfl⟩
    simp [operate, symbol, hq, hdomain, bind, Except.bind, pure, Except.pure]

/-- **Operators are monotone.** An operation has the answer that it has for arguments with fewer
answers. The two operations may be parts of different expressions, which only errors mention. -/
theorem operate_answers {whole whole' : Expression} {op : Operator} {as bs : List Argument}
    (h : List.Forall₂ Argument.Answers as bs) :
    Answers (operate whole op as) (operate whole' op bs) := by
  -- each operator reads some values of its arguments, and a wrong number of them is an error
  cases op with
  | negation =>
    match h with
    | .cons hab .nil => exact hab.truth.bind fun _ ↦ .refl _
    | .nil | .cons _ (.cons _ _) => exact .of_error _
  | conjunction =>
    match h with
    | .cons hab h => exact (Argument.Answers.allTrue (.cons hab h)).map _
    | .nil => exact .of_error _
  | disjunction =>
    match h with
    | .cons hab h => exact (Argument.Answers.anyTrue (.cons hab h)).map _
    | .nil => exact .of_error _
  | membership =>
    match h with
    | .cons hab (.cons hcd .nil) =>
      intro v hv
      obtain ⟨domain, q, holds, hsource, hq, hdomain, rfl⟩ := operate_membership_eq_ok.1 hv
      exact operate_membership_eq_ok.2 ⟨domain, q, holds, hcd.domain domain q holds hsource hdomain,
        hab.number q hq, hdomain, rfl⟩
    | .nil | .cons _ .nil => exact .of_error _
    | .cons _ (.cons _ (.cons _ _)) =>
      intro v hv
      simp [operate] at hv
  | unequal =>
    match h with
    | .cons hab (.cons hcd .nil) =>
      exact hab.value.bind fun _ ↦ hcd.value.bind fun _ ↦ .refl _
    | .nil | .cons _ .nil | .cons _ (.cons _ (.cons _ _)) => exact .of_error _
  | less | lessEqual | greater | greaterEqual =>
    match h with
    | .cons hab (.cons hcd .nil) => exact hab.compare _ hcd
    | .nil | .cons _ .nil | .cons _ (.cons _ (.cons _ _)) => exact .of_error _
  | sum | product =>
    match h with
    | .cons hab h =>
      exact (Argument.Answers.mapM Argument.Answers.number (.cons hab h)).bind fun _ ↦ .refl _
    | .nil => exact .of_error _
  | minus =>
    match h with
    | .cons hab .nil => exact hab.number.bind fun _ ↦ .refl _
    | .cons hab (.cons hcd .nil) => exact hab.compute _ hcd
    | .nil | .cons _ (.cons _ (.cons _ _)) => exact .of_error _
  | quotient | remainder =>
    match h with
    | .cons hab (.cons hcd .nil) =>
      refine hcd.number.bind fun divisor ↦ ?_
      split
      · exact .of_error _
      · exact hab.number.bind fun _ ↦ .refl _
    | .nil | .cons _ .nil | .cons _ (.cons _ (.cons _ _)) => exact .of_error _
  | power =>
    match h with
    | .cons hab (.cons hcd .nil) =>
      refine hab.number.bind fun base ↦ hcd.number.bind fun exponent ↦ ?_
      cases power? base exponent with
      | ok q => exact .refl _
      | error why => exact .of_error _
    | .nil | .cons _ .nil | .cons _ (.cons _ (.cons _ _)) => exact .of_error _
  | absolute =>
    match h with
    | .cons hab .nil => exact hab.number.bind fun _ ↦ .refl _
    | .nil | .cons _ (.cons _ _) => exact .of_error _
  | minimum | maximum =>
    match h with
    | .cons hab (.cons hcd .nil) => exact hab.compute _ hcd
    | .nil | .cons _ .nil | .cons _ (.cons _ (.cons _ _)) => exact .of_error _
  | concatenation =>
    exact (Argument.Answers.mapM Argument.Answers.text h).bind fun _ ↦ .refl _
  | length =>
    match h with
    | .cons hab .nil => exact hab.text.bind fun _ ↦ .refl _
    | .nil | .cons _ (.cons _ _) => exact .of_error _

/-! ### Agreement -/

variable {ρ : Nat → Meaning}

/-- The name of a number domain is none of the two truth values, so it denotes itself. -/
theorem ne_truth_of_inDomain? {name : String} {q : Rat} {holds : Bool}
    (h : inDomain? name q = some holds) : name ≠ "true" ∧ name ≠ "false" := by
  constructor <;> rintro rfl <;> simp [inDomain?] at h

theorem ne_truth_of_ofName? {name : String} {op : Operator} (h : Operator.ofName? name = some op) :
    name ≠ "true" ∧ name ≠ "false" := by
  constructor <;> rintro rfl <;> simp [Operator.ofName?] at h

theorem ofSymbol_of_ne_truth {name : String} (h : name ≠ "true" ∧ name ≠ "false") :
    Meaning.ofSymbol name = .symbol name := by
  rw [Meaning.ofSymbol, if_neg h.1, if_neg h.2]

/-- An application of an operator denotes the answer of the operator for meanings, if there is
one, and no value otherwise. -/
theorem apply_eq_ofValue {name : String} {op : Operator} {ds : List Meaning} {v : Value}
    (hname : Operator.ofName? name = some op) :
    Meaning.apply (.symbol name :: ds) = .ofValue v ↔
      operate (.application []) op (ds.map Meaning.argument) = .ok v := by
  -- the symbols with a meaning of their own come first in the definition
  have hsubst : name ≠ "subst" := by rintro rfl; simp [Operator.ofName?] at hname
  have hforall : name ≠ "forall-in" := by rintro rfl; simp [Operator.ofName?] at hname
  rw [Meaning.apply.eq_def]
  simp only [hname]
  cases operate (.application []) op (ds.map Meaning.argument) with
  | ok w => rw [Meaning.ofValue_inj, Except.ok.injEq]
  | error e => cases v <;> simp [Meaning.ofValue]

/-- A meaning names something only if it is a symbol. -/
theorem source_argument {d : Meaning} {name : String} :
    d.argument.source = symbol name ↔ d = .symbol name := by
  cases d <;> simp [Meaning.argument, symbol]

theorem number_argument {d : Meaning} {q : Rat} :
    d.argument.number = .ok q ↔ d = .number q := by
  cases d <;> simp [Meaning.argument, Argument.number, bind, Except.bind, pure, Except.pure]

/-- An answer of a sequence comes from an answer of its first part. -/
theorem bind_eq_ok {α β : Type} {x : Evaluated α} {f : α → Evaluated β} {b : β} :
    (x >>= f) = .ok b ↔ ∃ a, x = .ok a ∧ f a = .ok b := by
  cases x with
  | error e => exact ⟨fun h ↦ (nomatch h), fun ⟨_, h, _⟩ ↦ (nomatch h)⟩
  | ok a =>
    refine ⟨fun h ↦ ⟨a, rfl, h⟩, fun ⟨_, h, hf⟩ ↦ ?_⟩
    obtain rfl := Except.ok.inj h
    exact hf

/-- A value that is read as a meaning has itself as its value. -/
theorem value_argument (v : Value) : (Meaning.ofValue v).argument.value () = .ok v := by
  cases v <;> rfl

/-- An application with a head is headed by a symbol. -/
theorem symbol_of_head? {f : Expression} {args : List Expression} {name : String}
    (h : (application (f :: args)).head? = some name) : f = symbol name := by
  unfold head? at h
  split at h
  next g args' heq =>
    obtain ⟨rfl, -⟩ := List.cons.inj (application.inj heq)
    exact congrArg symbol (Option.some.inj h)
  next => exact nomatch h

/-- An application has a value only if it begins with the name of an operator. -/
theorem value_application_eq_ok {items : List Expression} {v : Value} :
    (application items).value = .ok v ↔ ∃ name op args, items = symbol name :: args ∧
      Operator.ofName? name = some op ∧ operate (application items) op (arguments args) =
        .ok v := by
  rw [value]
  constructor
  · intro h
    split at h
    next op a as hop hitems =>
      cases items with
      | nil => cases hitems
      | cons f args =>
        obtain ⟨-, rfl⟩ : _ = a ∧ arguments args = as := List.cons.inj hitems
        obtain ⟨name, hhead, hname⟩ := Option.bind_eq_some_iff.1 hop
        obtain rfl : f = symbol name := symbol_of_head? hhead
        exact ⟨name, op, args, rfl, hname, h⟩
    next => cases h
  · rintro ⟨name, op, args, rfl, hname, h⟩
    simp only [symbol, head?, Option.bind_some, hname, arguments]
    exact h

/-- A truth value is a value. -/
theorem truth_eq_ok {a : Argument} {t : Bool} (h : a.truth = .ok t) :
    a.value () = .ok (.truth t) := by
  obtain ⟨v, hv, h⟩ := bind_eq_ok.1 h
  cases v with
  | truth s => rw [hv, Except.ok.inj h]
  | _ => exact nomatch h

/-- What an expression denotes, as an argument, has the answers that the expression has. -/
theorem answers_argument {e : Expression} {d : Meaning}
    (h : ∀ v, e.value = .ok v → d = .ofValue v)
    (hname : ∀ name, e = symbol name → d = Meaning.ofSymbol name) :
    Argument.Answers ⟨e, fun _ ↦ e.value⟩ d.argument where
  value v hv := h v hv ▸ value_argument v
  domain name q holds hsource hdomain := by
    rw [hname name hsource, ofSymbol_of_ne_truth (ne_truth_of_inDomain? hdomain)]
    rfl

/-- **The evaluator and the interpretation agree.** An expression with a value denotes it, under any
binders. -/
theorem denote_of_value {e : Expression} {v : Value} (h : e.value = .ok v) (scope : List Nat)
    (bounds : List Meaning) : denote ρ (e.namelessIn scope) bounds = .ofValue v := by
  induction e generalizing v scope bounds with
  | atom a =>
    cases a with
    | symbol name =>
      show Meaning.ofSymbol name = _
      rw [value] at h
      rw [Meaning.ofSymbol]
      split at h
      · obtain rfl := Except.ok.inj h
        rw [if_pos ‹_›]
        rfl
      · rw [if_neg ‹_›]
        split at h
        · obtain rfl := Except.ok.inj h
          rw [if_pos ‹_›]
          rfl
        · cases h
    | text contents | number q => obtain rfl := Except.ok.inj h; rfl
    | var w | hole w => cases h
  | binder kind w body ih => cases h
  | equals a b iha ihb =>
    obtain ⟨x, hx, h⟩ := bind_eq_ok.1 h
    obtain ⟨y, hy, h⟩ := bind_eq_ok.1 h
    obtain rfl := Except.ok.inj h
    rw [namelessIn, denote, iha hx, ihb hy, Meaning.ofValue_inj]
    exact congrArg Meaning.truth (by simp [Bool.beq_eq_decide_eq])
  | implies a b iha ihb =>
    obtain ⟨t, ht, h⟩ := bind_eq_ok.1 h
    rw [namelessIn, denote, iha (truth_eq_ok ht)]
    cases t with
    | true =>
      obtain ⟨t, ht, h⟩ := bind_eq_ok.1 h
      obtain rfl := Except.ok.inj h
      rw [ihb (truth_eq_ok ht)]
      cases t <;> simp [Meaning.ofProp, Meaning.ofValue]
    | false =>
      obtain rfl := Except.ok.inj h
      simp [Meaning.ofProp, Meaning.ofValue]
  | application items ih =>
    obtain ⟨name, op, args, rfl, hname, h⟩ := value_application_eq_ok.1 h
    -- the name of an operator is no truth value, so it denotes itself
    show Meaning.apply (Meaning.ofSymbol name :: _) = _
    rw [ofSymbol_of_ne_truth (ne_truth_of_ofName? hname), denoteAll_eq_map, namelessAllIn_eq_map]
    refine (apply_eq_ofValue hname).2 (operate_answers ?_ v h)
    rw [arguments_eq_map, List.map_map, List.map_map, List.forall₂_map_left_iff,
      List.forall₂_map_right_iff]
    refine List.forall₂_same.2 fun e he ↦ answers_argument (fun w hw ↦ ?_) ?_
    · exact ih e (List.mem_cons_of_mem _ he) hw scope bounds
    · rintro name rfl
      rfl

end NaturalDeduction.Expression
