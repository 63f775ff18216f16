import NaturalDeduction.Proofs.BoundedQuantifier
import NaturalDeduction.Proofs.EqualValues
import NaturalDeduction.Proofs.Replacement

/-!
# Values of what comes of a replacement

If each key has the same value as what is put in its place, an expression has the value that it had
before the replacement, or still has none (`value_substitute`). A key may match where nothing is
evaluated: under a binder, or behind an operand that decides a connective. It may not match where a
symbol is read as one, since keys have values, and the name of an operator or of a number domain has
none.

A replacement walks through an expression, and what it comes to is put together along the way: a
part stays, or is exchanged for the value of a replacement, or is built from what its own parts come
to. A relation that allows each of these steps therefore relates an expression to what comes of it
(`ReplacingRelation.substitute`). Values are one such relation. Free variables and holes are another
one, if keys and values have neither: then no binder is renamed, and what can be decided stays so.

Main definitions and statements:

* `ReplacingRelation`: the relations that are kept along a walk, with one field for each step.
* `ReplacingRelation.substitute`: what they say of a whole replacement.
* `OpenAlike`: the same free variables, and holes in both or in neither.
* `value_substitute`: values and decisions, for every target, all pairs and every selection.
-/

namespace NaturalDeduction.Expression

/-! ### Relations along a walk -/

/-- Relations that allow every step of a walk, if the replacements have a property. -/
structure ReplacingRelation (P : Replacement → Prop) (R : Expression → Expression → Prop) :
    Prop where
  refl (e : Expression) : R e e
  replaced {r : Replacement} (hr : P r) {e : Expression} (h : r.key.alphaEq e = true) : R e r.value
  binder (kind : BinderKind) (v : Variable) {body body' : Expression} (h : R body body') :
    R (.binder kind v body) (.binder kind v body')
  /-- A binder is renamed because a value mentions its variable. Nothing is said of its body. -/
  renamed {r : Replacement} (hr : P r) {v : Variable} (hv : r.value.occursFree v = true)
    (kind : BinderKind) (w : Variable) (body body' : Expression) :
    R (.binder kind v body) (.binder kind w body')
  implies {a b a' b' : Expression} (ha : R a a') (hb : R b b') : R (.implies a b) (.implies a' b')
  equals {a b a' b' : Expression} (ha : R a a') (hb : R b b') : R (.equals a b) (.equals a' b')
  application {items items' : List Expression} (h : List.Forall₂ R items items') :
    R (.application items) (.application items')

namespace ReplacingRelation

variable {P : Replacement → Prop} {R : Expression → Expression → Prop}

mutual

/-- An expression is related to what a walk makes of it, whatever the walk begins with. -/
theorem walk (hR : ReplacingRelation P R) (chosen : Occurrences) {inForce : List Replacement}
    (hP : ∀ r ∈ inForce, P r) (e : Expression) (i n : Nat) :
    R e (((walk chosen inForce e).run i).run n).1.1 := by
  cases h : inForce.find? (·.key.alphaEq e) with
  | some r =>
    rw [walk_match h]
    have hkey : r.key.alphaEq e = true := by simpa using List.find?_some h
    show R e (if chosen.selects i then r.value else e)
    split
    · exact hR.replaced (hP r (List.mem_of_find?_eq_some h)) hkey
    · exact hR.refl e
  | none =>
    match e with
    | .atom a =>
      rw [walk_atom h]
      exact hR.refl _
    | .binder kind v body =>
      -- fewer replacements are in force below, and all of them have the property
      have hinner : ∀ r ∈ inForce.filter (fun r ↦ !r.key.occursFree v), P r := fun r hr ↦
        hP r (List.mem_filter.1 hr).1
      cases hfree : (inForce.filter fun r ↦ !r.key.occursFree v).any
          fun r ↦ r.value.occursFree v with
      | false =>
        have hbody := walk hR chosen hinner body i n
        rw [walk_binder h hfree rfl]
        exact hR.binder kind v hbody
      | true =>
        obtain ⟨r, hr, hv⟩ := List.any_eq_true.1 hfree
        rw [walk_binder_renamed h hfree rfl rfl]
        exact hR.renamed (hinner r hr) hv kind _ _ _
    | .implies a b =>
      have ha := walk hR chosen hP a i n
      have hb := walk hR chosen hP b
      rw [walk_implies h rfl rfl]
      exact hR.implies ha (hb _ _)
    | .equals a b =>
      have ha := walk hR chosen hP a i n
      have hb := walk hR chosen hP b
      rw [walk_equals h rfl rfl]
      exact hR.equals ha (hb _ _)
    | .application items =>
      have hitems := walkAll hR chosen hP items i n
      rw [walk_application h rfl]
      exact hR.application hitems
termination_by 2 * e.size
decreasing_by all_goals simp only [size] at *; omega

/-- The same for a list of expressions. -/
theorem walkAll (hR : ReplacingRelation P R) (chosen : Occurrences) {inForce : List Replacement}
    (hP : ∀ r ∈ inForce, P r) (es : List Expression) (i n : Nat) :
    List.Forall₂ R es (((walkAll chosen inForce es).run i).run n).1.1 := by
  match es with
  | [] =>
    rw [Expression.walkAll.eq_def]
    exact .nil
  | e :: rest =>
    have he := walk hR chosen hP e i n
    have hrest := walkAll hR chosen hP rest
    rw [walkAll_cons rfl rfl]
    exact .cons he (hrest _ _)
termination_by 2 * sizes es + 1
decreasing_by all_goals have := size_pos e; simp only [sizes]; omega

end

/-- **What a relation along a walk says of a replacement.** -/
theorem substitute (hR : ReplacingRelation P R) (target : Expression)
    {replacements : List Replacement}
    (hP : ∀ r ∈ replacements, P r) (chosen : Occurrences) (n : Nat) :
    R target ((target.substitute replacements chosen).run n).1 := by
  rw [Expression.substitute, StateT.run_map]
  exact hR.walk chosen hP target 0 n

end ReplacingRelation

/-! ### Values -/

/-- An expression and what comes of it have each other's values, if keys and what is put in their
places have the same. -/
theorem replacingRelation_answeredBy :
    ReplacingRelation (fun r ↦ ∃ u, r.key.value = .ok u ∧ r.value.value = .ok u)
      fun a b ↦ a.AnsweredBy b ∧ b.AnsweredBy a where
  refl e := ⟨.refl e, .refl e⟩
  replaced := by
    rintro r ⟨u, hkey, hvalue⟩ e h
    have he : e.value = .ok u := (answeredBy_of_equalUnder h).value u hkey
    exact ⟨.of_value he hvalue, .of_value hvalue he⟩
  binder kind v body body' _ := ⟨.binder .., .binder ..⟩
  renamed _ _ _ kind w body body' := ⟨.binder .., .binder ..⟩
  implies ha hb := ⟨ha.1.implies hb.1, ha.2.implies hb.2⟩
  equals ha hb := ⟨ha.1.equals hb.1, ha.2.equals hb.2⟩
  application h :=
    ⟨.application (h.imp fun _ _ h ↦ h.1), .application (h.imp fun _ _ h ↦ h.2).flip⟩

/-! ### Ground expressions -/

/-- Ground is what has neither free variables nor holes. -/
theorem isGround_iff {e : Expression} :
    e.isGround = true ↔ (∀ v, e.occursFree v = false) ∧ e.hasHoles = false := by
  rw [isGround, Bool.and_eq_true, List.isEmpty_iff, Bool.not_eq_true']
  refine and_congr_left fun _ ↦ ⟨fun h v ↦ ?_, fun h ↦ ?_⟩
  · rw [Bool.eq_false_iff, Ne, ← mem_freeVariables_iff_occursFree, h]
    exact List.not_mem_nil
  · refine List.eq_nil_iff_forall_not_mem.2 fun v hv ↦ ?_
    have hfree := mem_freeVariables_iff_occursFree.1 (List.mem_map_of_mem hv)
    rw [h v] at hfree
    cases hfree

theorem haveHoles_congr {as bs : List Expression}
    (h : List.Forall₂ (fun a b ↦ a.hasHoles = b.hasHoles) as bs) : haveHoles as = haveHoles bs := by
  induction h with
  | nil => rfl
  | cons hab _ ih => rw [haveHoles, haveHoles, hab, ih]

theorem occursFreeIn_congr {v : Variable} {as bs : List Expression}
    (h : List.Forall₂ (fun a b ↦ a.occursFree v = b.occursFree v) as bs) :
    occursFreeIn v as = occursFreeIn v bs := by
  induction h with
  | nil => rfl
  | cons hab _ ih => rw [occursFreeIn, occursFreeIn, hab, ih]

/-- Equal expressions have holes both or neither, whatever the leeway. -/
theorem hasHoles_eq_of_equalUnder {leeway : Leeway} {p : Pairing} {a b : Expression}
    (h : equalUnder leeway p a b = true) : a.hasHoles = b.hasHoles := by
  induction h using equalUnder_induction with
  | var => rfl
  | @constant _ x y _ h => cases x <;> cases y <;> simp_all [Atom.same, hasHoles]
  | binder _ ih =>
    rw [hasHoles, hasHoles]
    exact ih
  | implies _ _ ih ih' | equals _ _ ih ih' => rw [hasHoles, hasHoles, ih, ih']
  | turned _ _ _ ih ih' => rw [hasHoles, hasHoles, ih, ih', Bool.or_comm]
  | application _ ih =>
    rw [hasHoles, hasHoles]
    exact haveHoles_congr (ih.imp fun _ _ hab ↦ hab.elim fun _ ih ↦ ih)
  | @crossed _ _ _ _ c d _ _ _ ih ih' =>
    simp only [hasHoles, haveHoles, Bool.or_false]
    rw [ih, ih', Bool.or_comm d.hasHoles]

/-- Whether the same variables are free in two expressions, and both have holes or neither has. -/
structure OpenAlike (a b : Expression) : Prop where
  occursFree (v : Variable) : a.occursFree v = b.occursFree v
  hasHoles : a.hasHoles = b.hasHoles

/-- Expressions that are open alike are ground both or neither. -/
theorem OpenAlike.isGround_eq {a b : Expression} (h : a.OpenAlike b) : a.isGround = b.isGround := by
  rw [Bool.eq_iff_iff, isGround_iff, isGround_iff, h.hasHoles]
  simp only [h.occursFree]

/-- Ground expressions are open alike. -/
theorem openAlike_of_isGround {a b : Expression} (ha : a.isGround = true) (hb : b.isGround = true) :
    a.OpenAlike b := by
  rw [isGround_iff] at ha hb
  exact ⟨fun v ↦ (ha.1 v).trans (hb.1 v).symm, ha.2.trans hb.2.symm⟩

theorem openAlike_of_alphaEq {a b : Expression} (h : a.alphaEq b = true) : a.OpenAlike b where
  occursFree v := by rw [← occurs_nameless, ← occurs_nameless, alphaEq_iff.1 h]
  hasHoles := hasHoles_eq_of_equalUnder h

/-- What is ground in place of something ground opens nothing and closes nothing, and it mentions no
variable that a binder had to be renamed for. -/
theorem replacingRelation_openAlike :
    ReplacingRelation (fun r ↦ r.key.isGround = true ∧ r.value.isGround = true) OpenAlike where
  refl e := ⟨fun _ ↦ rfl, rfl⟩
  replaced := by
    rintro r ⟨hkey, hvalue⟩ e h
    have he : e.isGround = true := (openAlike_of_alphaEq h).isGround_eq ▸ hkey
    exact openAlike_of_isGround he hvalue
  binder kind v body body' h :=
    ⟨fun w ↦ by rw [Expression.occursFree, Expression.occursFree, h.occursFree],
      by rw [Expression.hasHoles, Expression.hasHoles, h.hasHoles]⟩
  renamed := by
    rintro r ⟨-, hvalue⟩ v hv
    rw [(isGround_iff.1 hvalue).1 v] at hv
    cases hv
  implies ha hb :=
    ⟨fun v ↦ by rw [Expression.occursFree, Expression.occursFree, ha.occursFree, hb.occursFree],
      by rw [Expression.hasHoles, Expression.hasHoles, ha.hasHoles, hb.hasHoles]⟩
  equals ha hb :=
    ⟨fun v ↦ by rw [Expression.occursFree, Expression.occursFree, ha.occursFree, hb.occursFree],
      by rw [Expression.hasHoles, Expression.hasHoles, ha.hasHoles, hb.hasHoles]⟩
  application h :=
    ⟨fun v ↦ occursFreeIn_congr (h.imp fun _ _ h ↦ h.occursFree v),
      haveHoles_congr (h.imp fun _ _ h ↦ h.hasHoles)⟩

/-! ### The theorem -/

/-- A statement is decided if it is ground and its value is a truth value. -/
theorem evaluate_eq_ok_iff {e : Expression} {b : Bool} :
    e.evaluate = .ok b ↔ e.isGround = true ∧ e.value = .ok (.truth b) := by
  rw [evaluate]
  split
  next h => exact ⟨fun hb ↦ ⟨h, truth_eq_ok hb⟩, fun hb ↦ truth_of_value hb.2⟩
  next h => exact ⟨nofun, fun hb ↦ absurd hb.1 h⟩

/-- An equation that is decided to be true has ground sides with one value. -/
theorem exists_value_of_evaluate_equals {a b : Expression} (h : (equals a b).evaluate = .ok true) :
    a.isGround = true ∧ b.isGround = true ∧ ∃ u, a.value = .ok u ∧ b.value = .ok u := by
  obtain ⟨hground, hvalue⟩ := evaluate_eq_ok_iff.1 h
  obtain ⟨x, y, hx, hy, hxy⟩ := value_equals_eq_ok.1 hvalue
  obtain rfl : x = y := by simpa using (Value.truth.inj hxy).symm
  obtain ⟨hfree, hholes⟩ := isGround_iff.1 hground
  rw [hasHoles, Bool.or_eq_false_iff] at hholes
  simp only [occursFree, Bool.or_eq_false_iff, forall_and] at hfree
  exact ⟨isGround_iff.2 ⟨hfree.1, hholes.1⟩, isGround_iff.2 ⟨hfree.2, hholes.2⟩, x, hx, hy⟩

/-- **Replacing keeps values.** If every key has the same value as what is put in its place, then
whatever matches are selected, an expression has a value afterwards just if it had it before. If the
evaluator decides that each key equals what is put in its place, it decides afterwards what it
decided before. -/
theorem value_substitute (target : Expression) (replacements : List Replacement)
    (chosen : Occurrences) (n : Nat) :
    ((∀ r ∈ replacements, ∃ u, r.key.value = .ok u ∧ r.value.value = .ok u) →
      ∀ w, ((target.substitute replacements chosen).run n).1.value = .ok w ↔ target.value = .ok w) ∧
    ((∀ r ∈ replacements, (equals r.key r.value).evaluate = .ok true) →
      ∀ b, ((target.substitute replacements chosen).run n).1.evaluate = .ok b ↔
        target.evaluate = .ok b) := by
  have hvalues (h : ∀ r ∈ replacements, ∃ u, r.key.value = .ok u ∧ r.value.value = .ok u)
      (w : Value) :
      ((target.substitute replacements chosen).run n).1.value = .ok w ↔ target.value = .ok w := by
    obtain ⟨hto, hfrom⟩ := replacingRelation_answeredBy.substitute target h chosen n
    exact ⟨hfrom.value w, hto.value w⟩
  refine ⟨hvalues, fun h b ↦ ?_⟩
  have hground := (replacingRelation_openAlike.substitute target (fun r hr ↦
    have hr := exists_value_of_evaluate_equals (h r hr)
    ⟨hr.1, hr.2.1⟩) chosen n).isGround_eq
  rw [evaluate_eq_ok_iff, evaluate_eq_ok_iff, hground,
    hvalues fun r hr ↦ (exists_value_of_evaluate_equals (h r hr)).2.2]

/-- A length is replaced where it is evaluated, and under a binder behind the operand that decides.
-/
theorem value_substitute_everywhere :
    let length := call "len" [text "ab"]
    let target := call "or" [equals length (int 2), .all ⟨"x", 0⟩ (equals (var ⟨"x", 0⟩) length)]
    let result := ((target.substitute [⟨length, int 2⟩] .all).run 1).1
    length.value = .ok (.number 2) ∧ (equals length (int 2)).evaluate = .ok true ∧
      (∀ w, result.value = .ok w ↔ target.value = .ok w) ∧
      target.evaluate = .ok true ∧ result.evaluate = .ok true := by
  intro length target result
  have hlength : (equals length (int 2)).evaluate = .ok true :=
    evaluate_eq_ok_iff.2 ⟨by decide, rfl⟩
  have htarget : target.evaluate = .ok true := evaluate_eq_ok_iff.2 ⟨by decide, rfl⟩
  obtain ⟨hvalue, hevaluate⟩ := value_substitute target [⟨length, int 2⟩] .all 1
  refine ⟨rfl, hlength, hvalue ?_, htarget, (hevaluate ?_ true).2 htarget⟩
  · exact List.forall_mem_singleton.2 ⟨.number 2, rfl, rfl⟩
  · exact List.forall_mem_singleton.2 hlength

end NaturalDeduction.Expression
