import NaturalDeduction.Expression.Evaluation
import NaturalDeduction.Proofs.Shifting.Expressions

/-!
# Shifting and evaluation

A ground expression mentions bound variables at most, and none of them has a value. So a shifted
expression has the value that the expression has, and if there is none, the error names the shifted
part that is at fault.

The arguments of an operator are evaluated when they are asked for. They are shifted by shifting
the errors that they end in.

An `Argument` is an expression together with a computation of its value, which runs only if the
operator asks. So the lemma about operators (`operate_shift`) is about arbitrary arguments, and the
induction over expressions (`value_shift`) enters only through the arguments of an application.
-/

namespace NaturalDeduction.Expression

variable {d : Nat}

instance : Shift Value := .constant Value
instance : Shift.Constant Value := ⟨fun _ _ ↦ rfl⟩

instance : Shift EvaluationError where
  shift d
    | .notGround e => .notGround (shift d e)
    | .unrecognized e => .unrecognized (shift d e)
    | .undefined e why => .undefined (shift d e) why

namespace Argument

/-- The source of an argument is shifted, and so is the error when its value is asked for. -/
instance : Shift Argument := ⟨fun d a ↦ ⟨shift d a.source, fun _ ↦ shift d (a.value ())⟩⟩

/-- An argument's truth value is read off its value, and values mention no variables. -/
@[simp] theorem truth_shift (a : Argument) : (shift d a).truth = shift d a.truth :=
  bind_shift_constant (a.value ()) fun v ↦ by cases v <;> rfl

@[simp] theorem number_shift (a : Argument) : (shift d a).number = shift d a.number :=
  bind_shift_constant (a.value ()) fun v ↦ by cases v <;> rfl

@[simp] theorem text_shift (a : Argument) : (shift d a).text = shift d a.text :=
  bind_shift_constant (a.value ()) fun v ↦ by cases v <;> rfl

/-- Conjunctions stop at the same argument, and with the shifted error if it is one. -/
theorem allTrue_shift (args : List Argument) : allTrue (shift d args) = shift d (allTrue args) := by
  induction args with
  | nil => rfl
  | cons a rest ih =>
    refine bind_shift_of_eq a.truth_shift fun b ↦ ?_
    cases b with
    | true => exact ih
    | false => rfl

/-- Disjunctions stop at the same argument, and with the shifted error if it is one. -/
theorem anyTrue_shift (args : List Argument) : anyTrue (shift d args) = shift d (anyTrue args) := by
  induction args with
  | nil => rfl
  | cons a rest ih =>
    refine bind_shift_of_eq a.truth_shift fun b ↦ ?_
    cases b with
    | true => rfl
    | false => exact ih

/-- Arguments are asked from left to right, up to the same one that has no answer. -/
theorem mapM_shift {α : Type} [Shift α] [Shift.Constant α] {f : Argument → Evaluated α}
    (h : ∀ a, f (shift d a) = shift d (f a)) (args : List Argument) :
    (shift d args).mapM f = shift d (args.mapM f) := by
  induction args with
  | nil => rfl
  | cons a rest ih =>
    rw [shift_cons, List.mapM_cons, List.mapM_cons, h, ih]
    refine bind_shift_constant (f a) fun x ↦ ?_
    refine bind_shift_constant (rest.mapM f) fun xs ↦ ?_
    exact congrArg Except.ok (shift_constant d (x :: xs)).symm

/-- Comparing looks at two numbers, or ends in the shifted error of the one that is none. -/
theorem compare_shift (holds : Rat → Rat → Bool) (a b : Argument) :
    (shift d a).compare holds (shift d b) = shift d (a.compare holds b) :=
  bind_shift_of_eq a.number_shift fun _ ↦ bind_shift_of_eq b.number_shift fun _ ↦ rfl

/-- Computing looks at two numbers, or ends in the shifted error of the one that is none. -/
theorem compute_shift (result : Rat → Rat → Rat) (a b : Argument) :
    (shift d a).compute result (shift d b) = shift d (a.compute result b) :=
  bind_shift_of_eq a.number_shift fun _ ↦ bind_shift_of_eq b.number_shift fun _ ↦ rfl

end Argument

/-- **Operators do not see the numbers of variables.** There is one case for each operator; an error
names the shifted whole or a shifted argument. -/
theorem operate_shift (whole : Expression) (op : Operator) (args : List Argument) :
    operate (shift d whole) op (shift d args) = shift d (operate whole op args) := by
  cases op with
  | negation =>
    match args with
    | [a] => exact bind_shift_of_eq a.truth_shift fun _ ↦ rfl
    | [] | _ :: _ :: _ => rfl
  | conjunction =>
    match args with
    | a :: rest =>
      have h := Argument.allTrue_shift (d := d) (a :: rest)
      show Value.truth <$> Argument.allTrue (shift d (a :: rest)) = _
      rw [h, operate]
      cases Argument.allTrue (a :: rest) <;> rfl
    | [] => rfl
  | disjunction =>
    match args with
    | a :: rest =>
      have h := Argument.anyTrue_shift (d := d) (a :: rest)
      show Value.truth <$> Argument.anyTrue (shift d (a :: rest)) = _
      rw [h, operate]
      cases Argument.anyTrue (a :: rest) <;> rfl
    | [] => rfl
  | membership =>
    match args with
    | [a, ⟨source, value⟩] =>
      cases source with
      | atom s =>
        cases s with
        | symbol domain =>
          refine bind_shift_of_eq a.number_shift fun q ↦ ?_
          cases inDomain? domain q <;> rfl
        | _ => rfl
      | application items =>
        have h : (shift d ⟨application items, value⟩ : Argument) =
            ⟨application (shift d items), fun _ ↦ shift d (value ())⟩ :=
          congrArg (Argument.mk · _) (shift_application items)
        rw [shift_cons, shift_cons, h]
        rfl
      | _ => rfl
    | [] | [_] => rfl
    | _ :: ⟨source, _⟩ :: _ :: _ =>
      cases source with
      | atom s => cases s <;> rfl
      | _ => rfl
  | unequal =>
    match args with
    | [a, b] =>
      refine bind_shift_constant (a.value ()) fun x ↦ ?_
      exact bind_shift_constant (b.value ()) fun y ↦ rfl
    | [] | [_] | _ :: _ :: _ :: _ => rfl
  | less | lessEqual | greater | greaterEqual =>
    match args with
    | [a, b] => exact Argument.compare_shift _ a b
    | [] | [_] | _ :: _ :: _ :: _ => rfl
  | sum | product =>
    match args with
    | a :: rest =>
      exact bind_shift_of_eq (Argument.mapM_shift Argument.number_shift (a :: rest)) fun _ ↦ rfl
    | [] => rfl
  | minus =>
    match args with
    | [a] => exact bind_shift_of_eq a.number_shift fun _ ↦ rfl
    | [a, b] => exact Argument.compute_shift _ a b
    | [] | _ :: _ :: _ :: _ => rfl
  | quotient | remainder =>
    match args with
    | [a, b] =>
      refine bind_shift_of_eq b.number_shift fun divisor ↦ ?_
      split
      · rfl
      · exact bind_shift_of_eq a.number_shift fun _ ↦ rfl
    | [] | [_] | _ :: _ :: _ :: _ => rfl
  | power =>
    match args with
    | [a, b] =>
      refine bind_shift_of_eq a.number_shift fun base ↦ ?_
      refine bind_shift_of_eq b.number_shift fun exponent ↦ ?_
      cases power? base exponent <;> rfl
    | [] | [_] | _ :: _ :: _ :: _ => rfl
  | absolute =>
    match args with
    | [a] => exact bind_shift_of_eq a.number_shift fun _ ↦ rfl
    | [] | _ :: _ :: _ => rfl
  | minimum | maximum =>
    match args with
    | [a, b] => exact Argument.compute_shift _ a b
    | [] | [_] | _ :: _ :: _ :: _ => rfl
  | concatenation =>
    exact bind_shift_of_eq (Argument.mapM_shift Argument.text_shift args) fun _ ↦ rfl
  | length =>
    match args with
    | [a] => exact bind_shift_of_eq a.text_shift fun _ ↦ rfl
    | [] | _ :: _ :: _ => rfl

/-- An argument is its expression and its value, so it is shifted by shifting both. -/
theorem argument_shift {e : Expression} (h : (shift d e).value = shift d e.value) :
    (⟨shift d e, fun _ ↦ (shift d e).value⟩ : Argument) = shift d ⟨e, fun _ ↦ e.value⟩ := by
  rw [h]
  rfl

/-- The arguments of a shifted application are the shifted arguments. -/
theorem arguments_shift {es : List Expression}
    (h : ∀ e ∈ es, (shift d e).value = shift d e.value) :
    arguments (shift d es) = shift d (arguments es) := by
  induction es with
  | nil => rfl
  | cons e rest ih =>
    obtain ⟨he, hrest⟩ := List.forall_mem_cons.1 h
    rw [shift_cons, arguments, arguments, ih hrest, argument_shift he]
    rfl

/-- **A shifted expression has the value of the expression,** or its error, shifted. -/
@[simp] theorem value_shift (e : Expression) : (shift d e).value = shift d e.value := by
  induction e with
  | atom a =>
    cases a with
    | symbol s =>
      show value (atom (.symbol s)) = _
      rw [value]
      split
      · rfl
      · split <;> rfl
    | _ => rfl
  | binder kind v body ih => rfl
  | equals a b iha ihb =>
    rw [shift_equals, value, value, iha, ihb]
    refine bind_shift_constant a.value fun x ↦ ?_
    exact bind_shift_constant b.value fun y ↦ rfl
  | implies a b iha ihb =>
    rw [shift_implies, value, value, argument_shift iha, argument_shift ihb,
      Argument.truth_shift, Argument.truth_shift]
    refine bind_shift_constant (Argument.truth ⟨a, fun _ ↦ a.value⟩) fun c ↦ ?_
    cases c with
    | true => exact bind_shift_constant (Argument.truth ⟨b, fun _ ↦ b.value⟩) fun t ↦ rfl
    | false => rfl
  | application items ih =>
    have hhead := head?_shift (d := d) (application items)
    rw [shift_application] at hhead ⊢
    rw [value, value, arguments_shift ih, hhead]
    cases (application items).head?.bind Operator.ofName? with
    | none => rw [← shift_application]; rfl
    | some op =>
      cases arguments items with
      | nil => rw [← shift_application]; rfl
      | cons a args =>
        rw [shift_cons]
        dsimp only
        rw [← shift_application, operate_shift]

/-- So a statement is decided alike. -/
@[simp] theorem evaluate_shift (e : Expression) : (shift d e).evaluate = shift d e.evaluate := by
  rw [evaluate, evaluate, isGround_shift, argument_shift (value_shift e), Argument.truth_shift]
  split <;> rfl

end NaturalDeduction.Expression
