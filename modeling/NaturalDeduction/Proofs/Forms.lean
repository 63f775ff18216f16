import NaturalDeduction.Expression.Reader

/-!
# The forms of a list

A list is read by its first item: as a binder, a rule or an equation if that is a keyword, and as an
application otherwise. There is one equation of `SExpr.read` for each of these forms, and
`SExpr.formInduction` has a case for each, so that what is shown about reading does not have to tell
the forms apart again.

Main statement: `SExpr.formInduction`. Its cases are words, strings, the empty list, binders, lists
that begin like a binder but have the wrong number of parts, rules, equations and applications. The
equations of `SExpr.read` stand beside it, so a proof by this induction rewrites with one equation
in each case.
-/

namespace NaturalDeduction

namespace SExpr

open Reading

/-- Induction with a hypothesis for every item of a list. -/
@[elab_as_elim, induction_eliminator]
theorem induction {P : SExpr → Prop} (word : ∀ text position, P (word text position))
    (quotation : ∀ contents position, P (quotation contents position))
    (list : ∀ position items, (∀ e ∈ items, P e) → P (list position items)) (e : SExpr) : P e :=
  SExpr.rec (motive_1 := P) (motive_2 := fun es ↦ ∀ e ∈ es, P e) word quotation list (by simp)
    (fun _ _ he hes ↦ by simpa using ⟨he, hes⟩) e

/-- The words that decide how a list is read when they come first. -/
def keywords : List String := ["forall", "exists", "lambda", "->", "="]

/-- What kind of binder a list is if it begins with an item. -/
abbrev binderKind? (head : SExpr) : Option BinderKind := head.word?.bind BinderKind.ofKeyword?

variable {scope : Scope} {position : Position} {head : SExpr} {args : List SExpr}

/-- A head that is no keyword is none of the three binders. -/
theorem binderKind?_eq_none (hhead : ∀ name ∈ keywords, head.word? ≠ some name) :
    head.binderKind? = none := by
  cases hword : head.word? with
  | none => rw [binderKind?, hword]; rfl
  | some name =>
    rw [binderKind?, hword, Option.bind_some, BinderKind.ofKeyword?.eq_def]
    split
    · exact absurd hword (hhead _ (by decide))
    · exact absurd hword (hhead _ (by decide))
    · exact absurd hword (hhead _ (by decide))
    · rfl

/-- A list without items is the application of nothing. -/
theorem read_unit : (list position []).read scope = pure (.application []) := by
  rw [read.eq_def]

/-- A binder reads its variables first and its body in the scope that has them. -/
theorem read_binder {kind : BinderKind} (hkind : head.binderKind? = some kind)
    (vars body : SExpr) :
    (list position [head, vars, body]).read scope = (do
      if (binderNames vars).isEmpty then throw ⟨.binderWithoutVariables, vars.position⟩
      let (inner, vs) ← bindNames scope (binderNames vars)
      return .binders kind vs (← body.read inner)) := by
  rw [read.eq_def]
  simp only [hkind]

/-- A binder with any other number of parts is refused where the list begins. -/
theorem read_misshapen {kind : BinderKind} (hkind : head.binderKind? = some kind)
    (hargs : args.length ≠ 2) :
    (list position (head :: args)).read scope = throw ⟨.binderShape, position⟩ := by
  rw [read.eq_def]
  simp only [hkind]
  split
  · exact absurd rfl hargs
  · rfl

/-- A rule has one condition at least, and its last part is the conclusion. -/
theorem read_arrow (hhead : head.word? = some "->") :
    (list position (head :: args)).read scope = (do
      if args.length < 2 then throw ⟨.ruleShape, position⟩
      let parts ← readAll scope args
      return .rules parts.dropLast (parts.getLastD default)) := by
  have hkind : head.binderKind? = none := by rw [binderKind?, hhead]; rfl
  rw [read.eq_def]
  simp only [hkind, if_pos hhead]

/-- An equation has exactly two sides. -/
theorem read_equation (hhead : head.word? = some "=") :
    (list position (head :: args)).read scope =
      match args with
      | [left, right] => do return .equals (← left.read scope) (← right.read scope)
      | _ => throw ⟨.equationShape, position⟩ := by
  have hkind : head.binderKind? = none := by rw [binderKind?, hhead]; rfl
  have harrow : head.word? ≠ some "->" := by rw [hhead]; decide
  rw [read.eq_def]
  rcases args with _ | ⟨left, _ | ⟨right, _ | ⟨third, rest⟩⟩⟩ <;>
    simp only [hkind, if_neg harrow, if_pos hhead]

/-- Everything else is an application, and its head is read like the rest. -/
theorem read_application (hhead : ∀ name ∈ keywords, head.word? ≠ some name) :
    (list position (head :: args)).read scope = (do
      return .application (← readAll scope (head :: args))) := by
  have harrow : head.word? ≠ some "->" := hhead "->" (by decide)
  have hequal : head.word? ≠ some "=" := hhead "=" (by decide)
  rw [read.eq_def]
  simp only [binderKind?_eq_none hhead, harrow, hequal, if_false]

/-- A word that opens no binder and is neither the arrow nor the equality sign is no keyword. -/
theorem notMem_keywords (hkind : head.binderKind? = none) (harrow : head.word? ≠ some "->")
    (hequal : head.word? ≠ some "=") :
    ∀ name ∈ keywords, head.word? ≠ some name := by
  intro name hname hword
  rw [binderKind?, hword] at hkind
  rw [hword] at harrow hequal
  simp only [keywords, List.mem_cons, List.not_mem_nil, or_false] at hname
  rcases hname with rfl | rfl | rfl | rfl | rfl
  · cases hkind
  · cases hkind
  · cases hkind
  · exact harrow rfl
  · exact hequal rfl

/-- The first item of a list is the word of a binder, an arrow, an equality sign or no keyword. -/
theorem keyword_cases (head : SExpr) : (∃ kind, head.binderKind? = some kind) ∨
    head.word? = some "->" ∨ head.word? = some "=" ∨ ∀ name ∈ keywords, head.word? ≠ some name := by
  cases hkind : head.binderKind? with
  | some kind => exact .inl ⟨kind, rfl⟩
  | none =>
    by_cases harrow : head.word? = some "->"
    · exact .inr (.inl harrow)
    by_cases hequal : head.word? = some "="
    · exact .inr (.inr (.inl hequal))
    exact .inr (.inr (.inr (notMem_keywords hkind harrow hequal)))

/-- Induction over s-expressions as they are read, with a case for each form of a list. -/
@[elab_as_elim]
theorem formInduction {P : SExpr → Prop} (word : ∀ text position, P (word text position))
    (quotation : ∀ contents position, P (quotation contents position))
    (unit : ∀ position, P (list position []))
    (binder : ∀ position head vars body kind, head.binderKind? = some kind → P body →
      P (list position [head, vars, body]))
    (misshapen : ∀ position head args kind, head.binderKind? = some kind → args.length ≠ 2 →
      P (list position (head :: args)))
    (arrow : ∀ position head args, head.word? = some "->" → (∀ x ∈ args, P x) →
      P (list position (head :: args)))
    (equation : ∀ position head args, head.word? = some "=" → (∀ x ∈ args, P x) →
      P (list position (head :: args)))
    (application : ∀ position head args, (∀ name ∈ keywords, head.word? ≠ some name) →
      (∀ x ∈ head :: args, P x) → P (list position (head :: args)))
    (x : SExpr) : P x := by
  induction x with
  | word text position => exact word text position
  | quotation contents position => exact quotation contents position
  | list position items ih =>
    rcases items with _ | ⟨head, args⟩
    · exact unit position
    obtain ⟨-, ihargs⟩ := List.forall_mem_cons.1 ih
    have hbinder : ∀ kind, head.binderKind? = some kind → P (list position (head :: args)) := by
      intro kind hkind
      match args with
      | [vars, body] => exact binder position head vars body kind hkind (ihargs body (by simp))
      | [] | [_] | _ :: _ :: _ :: _ => exact misshapen position head _ kind hkind (by simp)
    rcases keyword_cases head with ⟨kind, hkind⟩ | hhead | hhead | hhead
    · exact hbinder kind hkind
    · exact arrow position head args hhead ihargs
    · exact equation position head args hhead ihargs
    · exact application position head args hhead ih

end SExpr

end NaturalDeduction
