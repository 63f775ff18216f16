import NaturalDeduction.Prelude
import NaturalDeduction.Proofs.Agreement
import NaturalDeduction.Proofs.Established

/-!
# Statements that hold

A statement holds if it denotes the truth value true, and it is valid if it holds whatever its free
variables denote. Here is what makes a quantification, an implication or an equation hold, and from
that: every inference has a conclusion that holds if the statements it is made from do
(`Infers.holds`), the statements of the prelude are valid (`valid_statements`), and so is the
definition of a bounded quantifier, provided that the set does not mention the variable of the
function (`valid_boundedDefinition`).

One inference is different. The equation between the record of a replacement and its result need
not hold, since the record denotes what its target denotes. It does if the replacement is
`Licensed`: if it changes nothing, or if the keys are known to be equal to the values.

Main definitions:

* `Expression.Holds`, `Expression.Valid`: under one assignment, and under all of them.
* `KnownEqual`: equal up to bound names, or by an equation that is known, in either direction.
* `Justification.Licensed`: the replacements whose equation holds.
-/

namespace NaturalDeduction

namespace Expression

open Nameless

variable {ρ : Nat → Meaning} {a b e : Expression}

/-- Whether a statement holds, if free variables denote what `ρ` says. -/
def Holds (ρ : Nat → Meaning) (e : Expression) : Prop := denote ρ e.nameless [] = .truth true

/-- Whether a statement holds whatever free variables denote. -/
def Valid (e : Expression) : Prop := ∀ ρ, Holds ρ e

/-- What holds is a matter of the form. -/
theorem holds_congr (h : a.nameless = b.nameless) : Holds ρ a ↔ Holds ρ b := by
  rw [Holds, Holds, h]

/-- Rules hold as implications. -/
theorem holds_implies : Holds ρ (implies a b) ↔ (Holds ρ a → Holds ρ b) := by
  rw [Holds, nameless_implies, denote, Meaning.ofProp_eq_true]
  rfl

theorem holds_equals :
    Holds ρ (equals a b) ↔ denote ρ a.nameless [] = denote ρ b.nameless [] := by
  rw [Holds, nameless_equals, denote, Meaning.ofProp_eq_true]

/-- A quantification means whether its body holds for every object. -/
theorem denote_all (v : Variable) (e : Expression) :
    denote ρ (all v e).nameless [] = .ofProp (∀ d, Holds (Function.update ρ v.id d) e) := by
  show Meaning.ofProp (∀ d, denote ρ (e.namelessIn ([] ++ [v.id])) ([] ++ [d]) = _) = _
  simp only [← denote_update_namelessIn e [] [] v.id _ rfl]
  rfl

/-- A function is as good as the number domains for whose members its body holds. -/
theorem denote_lambda (v : Variable) (e : Expression) :
    denote ρ (binder .lambda v e).nameless [] = .function fun domain ↦ ∀ q,
      inDomain? domain q = some true → Holds (Function.update ρ v.id (.number q)) e := by
  show Meaning.function (fun domain ↦ ∀ q, inDomain? domain q = some true →
    denote ρ (e.namelessIn ([] ++ [v.id])) ([] ++ [.number q]) = _) = _
  simp only [← denote_update_namelessIn e [] [] v.id _ rfl]
  rfl

/-- A quantification holds if its body holds for every object. -/
theorem holds_all {v : Variable} :
    Holds ρ (all v e) ↔ ∀ d, Holds (Function.update ρ v.id d) e := by
  rw [Holds, denote_all, Meaning.ofProp_eq_true]

/-- Several conditions are one after the other. -/
theorem holds_rules {conditions : List Expression} :
    Holds ρ (rules conditions e) ↔ ((∀ c ∈ conditions, Holds ρ c) → Holds ρ e) := by
  induction conditions with
  | nil => simp [rules]
  | cons c rest ih =>
    show Holds ρ (implies c (rules rest e)) ↔ _
    rw [holds_implies, ih, List.forall_mem_cons, and_imp]

/-- Whether two assignments are the same except at some variables. -/
def SameBut (vs : List Variable) (σ ρ : Nat → Meaning) : Prop :=
  ∀ i, (∀ v ∈ vs, v.id ≠ i) → σ i = ρ i

/-- A quantification over some variables holds if its body holds, whatever these denote. -/
theorem holds_alls_of {vs : List Variable} (h : ∀ σ, SameBut vs σ ρ → Holds σ e) :
    Holds ρ (alls vs e) := by
  induction vs generalizing ρ with
  | nil => exact h ρ fun i _ ↦ rfl
  | cons v rest ih =>
    refine holds_all.2 fun d ↦ ih fun σ hσ ↦ h σ fun i hi ↦ ?_
    obtain ⟨hv, hrest⟩ := List.forall_mem_cons.1 hi
    rw [hσ i hrest, Function.update_of_ne hv.symm]

/-- What an expression denotes does not depend on variables that are not free in it. -/
theorem denote_of_sameBut {σ : Nat → Meaning} {vs : List Variable} (h : SameBut vs σ ρ)
    (hfree : ∀ v ∈ vs, e.occursFree v = false) :
    denote σ e.nameless [] = denote ρ e.nameless [] := by
  refine denote_congr fun i hi ↦ h i fun v hv hid ↦ ?_
  rw [← hid, occurs_nameless, hfree v hv] at hi
  exact nomatch hi

/-! ### Answers of the evaluator -/

/-- An answer of the evaluator is what the statement denotes. -/
theorem denote_of_evaluate {holds : Bool} (h : e.evaluate = .ok holds) :
    denote ρ e.nameless [] = .truth holds := by
  rw [evaluate] at h
  split at h
  · exact denote_of_value (truth_eq_ok h) [] []
  · exact nomatch h

/-- The negation of a truth value denotes the other one. -/
theorem denote_negation {holds : Bool} (h : denote ρ e.nameless [] = .truth holds) :
    denote ρ e.negation.nameless [] = .truth !holds := by
  show Meaning.apply [Meaning.ofSymbol "not", denote ρ e.nameless []] = _
  rw [h]
  exact (apply_eq_ofValue (v := .truth !holds) rfl).2 rfl

/-- A statement that holds is not answered with false. -/
theorem Holds.evaluate {holds : Bool} (h : Holds ρ e) (he : e.evaluate = .ok holds) :
    holds = true :=
  Meaning.truth.inj ((denote_of_evaluate he).symm.trans h)

/-- A statement does not hold together with its negation. -/
theorem Holds.not_negation (h : Holds ρ e) : ¬Holds ρ e.negation := by
  intro hnot
  exact nomatch (denote_negation h).symm.trans hnot

/-- What is concluded from an evaluation holds, whichever way it came out. -/
theorem holds_verdict {holds : Bool} (h : e.evaluate = .ok holds) :
    Holds ρ (Inference.verdict e holds) := by
  cases holds with
  | true => exact denote_of_evaluate h
  | false => exact denote_negation (denote_of_evaluate h)

/-! ### Inferences -/

/-- The record of a replacement denotes what its target denotes. -/
theorem denote_recorded (target : Expression) (replacements : List Replacement)
    (chosen : Occurrences) :
    denote ρ (recorded target replacements chosen).nameless [] = denote ρ target.nameless [] := rfl

/-- Whether two expressions are known to be equal. -/
def KnownEqual (known : List Expression) (a b : Expression) : Prop :=
  a.alphaEq b = true ∨ ∃ c d, equals c d ∈ known ∧
    (a.alphaEq c = true ∧ b.alphaEq d = true ∨ a.alphaEq d = true ∧ b.alphaEq c = true)

instance (known : List Expression) (a b : Expression) : Decidable (KnownEqual known a b) :=
  decidable_of_iff (a.alphaEq b = true ∨ ∃ e ∈ known, (match e with
      | equals c d => a.alphaEq c && b.alphaEq d || a.alphaEq d && b.alphaEq c
      | _ => false) = true) <| or_congr_right <| by
    constructor
    · rintro ⟨e, he, h⟩
      cases e with
      | equals c d => exact ⟨c, d, he, by simpa using h⟩
      | _ => cases h
    · rintro ⟨c, d, hmem, h⟩
      exact ⟨_, hmem, by simpa using h⟩

/-- What is known to be equal denotes the same in every form. -/
theorem KnownEqual.denote {known : List Expression} (h : KnownEqual known a b)
    (hknown : ∀ e ∈ known, Holds ρ e) (bounds : List Meaning) :
    Nameless.denote ρ a.nameless bounds = Nameless.denote ρ b.nameless bounds := by
  rw [denote_nameless_append a, denote_nameless_append b]
  rcases h with h | ⟨c, d, hmem, ⟨hac, hbd⟩ | ⟨had, hbc⟩⟩
  · rw [alphaEq_iff.1 h]
  · rw [alphaEq_iff.1 hac, alphaEq_iff.1 hbd]
    exact holds_equals.1 (hknown _ hmem)
  · rw [alphaEq_iff.1 had, alphaEq_iff.1 hbc]
    exact (holds_equals.1 (hknown _ hmem)).symm

end Expression

open Expression Nameless

/-- Whether a justification, for an entry with a statement, is no replacement, or is one that
changes nothing, or one of expressions by others that are known to equal them. -/
def Justification.Licensed (known : List Expression) (statement : Expression) :
    Justification → Prop
  | replacement target replacements _ =>
    (∃ record result, statement = .equals record result ∧ result.alphaEq target = true) ∨
      ∀ r ∈ replacements, KnownEqual known r.key r.value
  | _ => True

/-- An inference from statements that hold has a conclusion that holds. -/
theorem Infers.holds {known : List Expression} {e : Expression} {j : Justification}
    {ρ : Nat → Meaning} (h : Infers known e j) (hlicensed : j.Licensed known e)
    (hknown : ∀ a ∈ known, Holds ρ a) : Holds ρ e := by
  cases h with
  | @detachment a b _ rule condition hrule hcondition h =>
    refine holds_implies.1 (hknown _ hrule) ?_
    exact (holds_congr (alphaEq_iff.1 h)).2 (hknown b hcondition)
  | @specialization v body _ target value htarget h =>
    have hopened := denote_instantiateAt (ρ := ρ) body value [] [] v.id
    rw [Holds, h]
    exact hopened.trans (holds_all.1 (hknown _ htarget) _)
  | @replacement target result replacements chosen h =>
    -- the record denotes what the target denotes, so the result has to do so, too
    rw [holds_equals, denote_recorded, h]
    rcases hlicensed with ⟨record, result', heq, hresult⟩ | hequal
    · obtain ⟨-, rfl⟩ := equals.inj heq
      rw [← h, alphaEq_iff.1 hresult]
    · exact (denote_replace (fun r hr ↦ (hequal r hr).denote hknown []) _ 0).symm
  | verification h => exact holds_verdict h

/-! ### The prelude -/

namespace Prelude

/-- Identity of objects is transitive. -/
theorem valid_transitivity (a b c : Variable) :
    Valid (alls [a, b, c]
      (Expression.rules [equals (var a) (var b), equals (var b) (var c)]
        (equals (var a) (var c)))) := by
  refine fun ρ ↦ holds_alls_of fun σ _ ↦ holds_rules.2 fun h ↦ ?_
  obtain ⟨hab, hbc⟩ : _ ∧ _ := by simpa using h
  exact holds_equals.2 ((holds_equals.1 hab).trans (holds_equals.1 hbc))

/-- An equation of statements is an identity of truth values, so one side may be concluded from the
other. -/
theorem valid_elimination (a b : Variable) :
    Valid (alls [a, b] (Expression.rules [equals (var a) (var b), var a] (var b))) := by
  refine fun ρ ↦ holds_alls_of fun σ _ ↦ holds_rules.2 fun h ↦ ?_
  obtain ⟨hab, ha⟩ : _ ∧ _ := by simpa using h
  exact (holds_equals.1 hab).symm.trans ha

/-- A conjunction is an operator, so what it denotes is what the evaluator makes of two truth
values. -/
theorem valid_conjunction (a b : Variable) :
    Valid (alls [a, b] (Expression.rules [var a, var b] (call "and" [var a, var b]))) := by
  refine fun ρ ↦ holds_alls_of fun σ _ ↦ holds_rules.2 fun h ↦ ?_
  obtain ⟨ha, hb⟩ : _ ∧ _ := by simpa using h
  show Meaning.apply [Meaning.ofSymbol "and", denote σ (var a).nameless [],
    denote σ (var b).nameless []] = _
  rw [ha, hb]
  exact (apply_eq_ofValue (v := .truth true) rfl).2 rfl

/-- The statements of the prelude hold, whatever numbers their variables are drawn with. -/
theorem valid_statements (n : Nat) : ∀ p ∈ (statements.run n).1, p.2.Valid := by
  refine List.forall_mem_cons.2 ⟨fun ρ ↦ holds_alls_of fun σ _ ↦ holds_equals.2 rfl, ?_⟩
  refine List.forall_mem_cons.2 ⟨fun ρ ↦ holds_alls_of fun σ _ ↦ holds_implies.2 fun h ↦ ?_, ?_⟩
  · exact holds_equals.2 (holds_equals.1 h).symm
  refine List.forall_mem_cons.2 ⟨valid_transitivity _ _ _, ?_⟩
  refine List.forall_mem_cons.2 ⟨valid_elimination _ _, ?_⟩
  refine List.forall_mem_cons.2 ⟨fun ρ ↦ holds_alls_of fun σ _ ↦ holds_implies.2 fun _ ↦ ?_, ?_⟩
  · exact holds_equals.2 rfl
  refine List.forall_mem_cons.2 ⟨valid_conjunction _ _, ?_⟩
  exact fun p hp ↦ absurd hp List.not_mem_nil

/-- The definition of a bounded quantifier: it equals the quantification that it stands for. -/
def boundedDefinition (set : Expression) (x : Variable) (body : Expression) : Expression :=
  equals (call "forall-in" [set, binder .lambda x body])
    (all x (implies (call "in" [var x, set]) body))

/-- A membership holds if the set is a number domain and the variable a number in it. -/
theorem holds_membership {ρ : Nat → Meaning} {x : Variable} {set : Expression} :
    Holds ρ (call "in" [var x, set]) ↔ ∃ domain q, denote ρ set.nameless [] = .symbol domain ∧
      ρ x.id = .number q ∧ inDomain? domain q = some true := by
  show Meaning.apply [.symbol "in", ρ x.id, denote ρ set.nameless []] = _ ↔ _
  rw [show Meaning.truth true = .ofValue (.truth true) from rfl, apply_eq_ofValue rfl]
  refine operate_membership_eq_ok.trans ⟨?_, ?_⟩
  · rintro ⟨domain, q, holds, hdomain, hq, hmem, htrue⟩
    obtain rfl := Value.truth.inj htrue
    exact ⟨domain, q, source_argument.1 hdomain, number_argument.1 hq, hmem⟩
  · rintro ⟨domain, q, hdomain, hq, hmem⟩
    exact ⟨domain, q, true, source_argument.2 hdomain, number_argument.2 hq, hmem, rfl⟩

/-- **Bounded quantifiers are well defined.** The definition is valid if the set does not mention
the variable of the function. -/
theorem valid_boundedDefinition {set : Expression} {x : Variable} {body : Expression}
    (h : set.occursFree x = false) : Valid (boundedDefinition set x body) := by
  intro ρ
  have hset :
      ∀ d, denote (Function.update ρ x.id d) set.nameless [] = denote ρ set.nameless [] := by
    intro d
    have hsame : SameBut [x] (Function.update ρ x.id d) ρ := fun i hi ↦
      Function.update_of_ne (hi x List.mem_cons_self).symm d ρ
    exact denote_of_sameBut hsame (by simpa using h)
  refine holds_equals.2 ?_
  rw [denote_all]
  show Meaning.apply [.symbol "forall-in", denote ρ set.nameless [],
    denote ρ (binder .lambda x body).nameless []] = _
  rw [denote_lambda]
  simp only [holds_implies, holds_membership, hset, Function.update_self]
  cases denote ρ set.nameless [] with
  | symbol domain =>
    refine congrArg Meaning.ofProp (propext ⟨?_, fun hall q hq ↦ ?_⟩)
    · rintro hall d ⟨domain', q, hdomain, rfl, hq⟩
      exact hall q (Meaning.symbol.inj hdomain ▸ hq)
    · exact hall (.number q) ⟨domain, q, rfl, rfl, hq⟩
  | _ =>
    -- nothing is a member of what is no domain, so both sides hold
    refine (Meaning.ofProp_eq_true.2 ?_).symm
    rintro d ⟨domain, q, hsymbol, -⟩
    exact nomatch hsymbol

end Prelude

end NaturalDeduction
