import NaturalDeduction.Automation.Search

/-!
# The prelude

The theory of equality that replacing equals and writing abbreviations out rest on, with conjunction
introduction, three rules and the bounded quantifier. Its statements are supposed like any others,
in whatever deduction is current, under the names that the tactics look them up by.

The statements share their bound variables: one `a` serves in all of them.
-/

namespace NaturalDeduction.Prelude

open Expression

/-- The statements of the prelude with their names. -/
def statements : Fresh (List (String × Expression)) := do
  let a ← Variable.fresh "a"
  let b ← Variable.fresh "b"
  let c ← Variable.fresh "c"
  let t ← Variable.fresh "t"
  let x ← Variable.fresh "x"
  let y ← Variable.fresh "y"
  let i ← Variable.fresh "i"
  let replaced := call "subst" [var t, application [application [var x, var y]], var i]
  return [
    ("eq_refl", alls [a] (equals (var a) (var a))),
    ("eq_sym", alls [a, b] (implies (equals (var a) (var b)) (equals (var b) (var a)))),
    ("eq_trans", alls [a, b, c]
      (rules [equals (var a) (var b), equals (var b) (var c)] (equals (var a) (var c)))),
    ("eq_elim", alls [a, b] (rules [equals (var a) (var b), var a] (var b))),
    ("subst_congruence", alls [t, x, y, i]
      (implies (equals (var x) (var y)) (equals replaced (var t)))),
    ("and_intro", alls [a, b] (rules [var a, var b] (call "and" [var a, var b])))]

/-- The bounded quantifier over a set and a function: the body holds for all members of the set. -/
def boundedAll : List Expression → Fresh (Option Expression)
  | [set, binder .lambda x body] => return some (all x (implies (call "in" [var x, set]) body))
  | _ => return none

/-- `(forall-in S (lambda (x) P))` stands for `(forall (x) (-> (in x S) P))`. -/
def boundedQuantifier : Abbreviation := ⟨"forall-in", boundedAll⟩

/-- The rules of the prelude. The one for symmetry only turns equations around that are known, so it
never calls for itself. -/
def rules : Fresh (List Rule) := do
  let a ← Variable.fresh "a"
  let b ← Variable.fresh "b"
  return [
    ⟨"reflexivity", equals (hole a) (hole a), .specialize "eq_refl" [hole a]⟩,
    ⟨"symmetry", equals (hole a) (hole b), .turnAround a b⟩,
    ⟨"conjunction", call "and" [hole a, hole b], .specialize "and_intro" [hole a, hole b]⟩]

/-- Supposes the statements and registers the rules and the bounded quantifier. -/
def install : Building Unit := do
  (← Building.draw statements).forM fun (name, statement) ↦
    discard (Building.suppose (some name) statement)
  (← Building.draw rules).forM fun rule ↦ modify (·.addRule rule)
  modify (·.addAbbreviation boundedQuantifier)

end NaturalDeduction.Prelude
