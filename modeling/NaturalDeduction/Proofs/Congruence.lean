import NaturalDeduction.Proofs.Nameless
import NaturalDeduction.Proofs.Pointwise

/-!
# Equality up to a leeway is a congruence

A comparison up to a leeway goes through two expressions at once and decides at every conjunction,
disjunction and equation anew whether the parts are compared in their order or exchanged. What it
finds is what the leeway is meant to allow: the least equivalence that contains equality up to bound
names, is closed under every constructor, and relates what the leeway exchanges
(`equalUpTo_isLeastCongruence`).

What comparisons have in common is proved by induction on the comparison, with one case for each way
in which two expressions can be equal (`equalUnder_induction`). In this way comparisons compose
wherever the pairings of their bound variables do, so the relation is transitive although exchanges
nest (`equalUnder_trans`). That it is the least one needs no renaming. The expression that the first
one is related to is written with the bound variables of the first one, and is equal to the second
one up to bound names (`exists_of_equalUnder`).
-/

namespace NaturalDeduction

/-! ### More and less leeway -/

instance : LE Leeway where
  le l l' := (l.conjunction = true → l'.conjunction = true) ∧
    (l.disjunction = true → l'.disjunction = true) ∧ (l.equation = true → l'.equation = true)

instance (l l' : Leeway) : Decidable (l ≤ l') := inferInstanceAs (Decidable (_ ∧ _ ∧ _))

/-- Equality up to bound names is the comparison with the least leeway. -/
theorem Leeway.none_le (leeway : Leeway) : .none ≤ leeway :=
  ⟨(fun h ↦ nomatch h), (fun h ↦ nomatch h), (fun h ↦ nomatch h)⟩

/-- The two connectives that can be exchanged, each under its own part of the leeway. -/
theorem Leeway.commutes_iff {leeway : Leeway} {head : String} :
    leeway.commutes head = true ↔
      head = "and" ∧ leeway.conjunction = true ∨ head = "or" ∧ leeway.disjunction = true := by
  simp [commutes]

/-- What is exchanged under some leeway is exchanged under more. -/
theorem Leeway.commutes_mono {leeway leeway' : Leeway} {head : String} (hle : leeway ≤ leeway')
    (h : leeway.commutes head = true) : leeway'.commutes head = true :=
  commutes_iff.2 ((commutes_iff.1 h).imp (.imp_right hle.1) (.imp_right hle.2.1))

/-- Relations that are equivalences, respect every constructor, and make no difference between what
is equal up to bound names or what a leeway exchanges. -/
structure Leeway.IsCongruence (leeway : Leeway) (R : Expression → Expression → Prop) : Prop where
  equivalence : Equivalence R
  nameless {a b : Expression} (h : a.nameless = b.nameless) : R a b
  binder {a b : Expression} (kind : BinderKind) (v : Variable) (h : R a b) :
    R (.binder kind v a) (.binder kind v b)
  implies {a b c d : Expression} (h : R a c) (h' : R b d) : R (.implies a b) (.implies c d)
  equals {a b c d : Expression} (h : R a c) (h' : R b d) : R (.equals a b) (.equals c d)
  application {as bs : List Expression} (h : List.Forall₂ R as bs) :
    R (.application as) (.application bs)
  conjunction (h : leeway.conjunction = true) (a b : Expression) :
    R (.call "and" [a, b]) (.call "and" [b, a])
  disjunction (h : leeway.disjunction = true) (a b : Expression) :
    R (.call "or" [a, b]) (.call "or" [b, a])
  equation (h : leeway.equation = true) (a b : Expression) : R (.equals a b) (.equals b a)

namespace Atom

variable {x y z : Atom}

/-- Atoms that are no variables are compared by what they are, numbers by their value. -/
theorem same_symm (h : x.same y = true) : y.same x = true := by
  cases x <;> cases y <;> simp_all [same]

theorem same_trans (h : x.same y = true) (h' : y.same z = true) : x.same z = true := by
  cases x <;> cases y <;> simp [same] at h <;> cases z <;> simp_all [same]

end Atom

namespace Expression

variable {leeway leeway' : Leeway} {p q r : Pairing} {a b c : Expression}

/-! ### What a comparison compares -/

/-- Whether two expressions have one form, and their parts are equal as far as the comparison of the
two looks at them. -/
inductive EqualParts (leeway : Leeway) (p : Pairing) : Expression → Expression → Prop
  | var {v w : Variable} (h : p.relates v w = true) :
      EqualParts leeway p (.atom (.var v)) (.atom (.var w))
  | constant {x y : Atom} (hx : ∀ v, x ≠ .var v) (h : x.same y = true) :
      EqualParts leeway p (.atom x) (.atom y)
  | binder {kind : BinderKind} {v w : Variable} {a b : Expression}
      (h : equalUnder leeway ((v, w) :: p) a b = true) :
      EqualParts leeway p (.binder kind v a) (.binder kind w b)
  | implies {a b c d : Expression} (h : equalUnder leeway p a c = true)
      (h' : equalUnder leeway p b d = true) : EqualParts leeway p (.implies a b) (.implies c d)
  | equals {a b c d : Expression} (h : equalUnder leeway p a c = true)
      (h' : equalUnder leeway p b d = true) : EqualParts leeway p (.equals a b) (.equals c d)
  /-- The sides of an equation are exchanged. -/
  | turned {a b c d : Expression} (hleeway : leeway.equation = true)
      (h : equalUnder leeway p a d = true) (h' : equalUnder leeway p b c = true) :
      EqualParts leeway p (.equals a b) (.equals c d)
  | application {as bs : List Expression}
      (h : List.Forall₂ (fun a b ↦ equalUnder leeway p a b = true) as bs) :
      EqualParts leeway p (.application as) (.application bs)
  /-- The arguments of a connective are exchanged. -/
  | crossed {head : String} {a b c d : Expression} (hleeway : leeway.commutes head = true)
      (h : equalUnder leeway p a d = true) (h' : equalUnder leeway p b c = true) :
      EqualParts leeway p (.application [symbol head, a, b]) (.application [symbol head, c, d])

/-- Operands in their order are compared one by one, and their number has to agree. -/
theorem equalAllUnder_iff_forall₂ {as bs : List Expression} : equalAllUnder leeway p as bs = true ↔
    List.Forall₂ (fun a b ↦ equalUnder leeway p a b = true) as bs := by
  induction as generalizing bs with
  | nil => cases bs <;> simp [equalAllUnder]
  | cons a as ih => cases bs <;> simp [equalAllUnder, ih]

/-- Operands are crossed only behind a head that commutes, with exactly two of them. -/
theorem equalCrossedUnder_iff {as bs : List Expression} : equalCrossedUnder leeway p as bs = true ↔
    ∃ head a b c d, as = [symbol head, a, b] ∧ bs = [symbol head, c, d] ∧
      leeway.commutes head = true ∧ equalUnder leeway p a d = true ∧
        equalUnder leeway p b c = true := by
  unfold equalCrossedUnder
  split
  · rename_i f a b g c d
    simp only [Bool.and_eq_true, beq_iff_eq]
    constructor
    · rintro ⟨⟨⟨hleeway, rfl⟩, h⟩, h'⟩
      exact ⟨f, a, b, c, d, rfl, rfl, hleeway, h, h'⟩
    · rintro ⟨head, a', b', c', d', has, hbs, hleeway, h, h'⟩
      simp only [symbol, List.cons.injEq, Expression.atom.injEq, Atom.symbol.injEq, and_true]
        at has hbs
      obtain ⟨rfl, rfl, rfl⟩ := has
      obtain ⟨rfl, rfl, rfl⟩ := hbs
      exact ⟨⟨⟨hleeway, rfl⟩, h⟩, h'⟩
  · rename_i hshape
    refine ⟨(fun h ↦ nomatch h), ?_⟩
    rintro ⟨head, a, b, c, d, rfl, rfl, -⟩
    exact absurd rfl (hshape head a b head c d rfl)

/-- The comparison read as a relation, with one constructor for each way to be equal. -/
theorem equalUnder_iff : equalUnder leeway p a b = true ↔ EqualParts leeway p a b := by
  constructor
  · intro h
    cases a with
    | atom x =>
      cases b with
      | atom y =>
        -- variables are compared by the pairing, all other atoms by what they say
        by_cases hx : ∃ v, x = .var v
        · obtain ⟨v, rfl⟩ := hx
          cases y with
          | var w => exact .var h
          | _ => simp [equalUnder, Atom.same] at h
        · have hx : ∀ v, x ≠ .var v := fun v hv ↦ hx ⟨v, hv⟩
          refine .constant hx ?_
          cases x <;> simp_all [equalUnder]
      | _ => cases x <;> simp [equalUnder] at h
    | binder k v a =>
      cases b with
      | binder l w b =>
        rw [equalUnder, Bool.and_eq_true, beq_iff_eq] at h
        -- the bodies are compared with the two variables paired
        obtain ⟨rfl, h⟩ := h
        exact .binder h
      | _ => simp [equalUnder] at h
    | implies a c =>
      cases b with
      | implies b d =>
        rw [equalUnder, Bool.and_eq_true] at h
        exact .implies h.1 h.2
      | _ => simp [equalUnder] at h
    | equals a c =>
      cases b with
      | equals b d =>
        simp only [equalUnder, Bool.or_eq_true, Bool.and_eq_true] at h
        rcases h with ⟨h, h'⟩ | ⟨⟨hleeway, h⟩, h'⟩
        · exact .equals h h'
        · exact .turned hleeway h h'
      | _ => simp [equalUnder] at h
    | application as =>
      cases b with
      | application bs =>
        rw [equalUnder, Bool.or_eq_true, equalAllUnder_iff_forall₂, equalCrossedUnder_iff] at h
        rcases h with h | ⟨head, a, b, c, d, rfl, rfl, hleeway, h, h'⟩
        · exact .application h
        · exact .crossed hleeway h h'
      | _ => simp [equalUnder] at h
  · intro h
    cases h with
    | var h => exact h
    | @constant x y hx h => cases x <;> cases y <;> simp_all [equalUnder]
    | binder h => rw [equalUnder, beq_self_eq_true, Bool.true_and, h]
    | implies h h' => rw [equalUnder, h, h', Bool.and_self]
    | equals h h' => rw [equalUnder, h, h', Bool.and_self, Bool.true_or]
    | turned hleeway h h' =>
      rw [equalUnder, hleeway, h, h', Bool.and_self, Bool.and_self, Bool.or_true]
    | application h => rw [equalUnder, equalAllUnder_iff_forall₂.2 h, Bool.true_or]
    | @crossed head a b c d hleeway h h' =>
      rw [equalUnder, Bool.or_eq_true]
      exact .inr (equalCrossedUnder_iff.2 ⟨head, a, b, c, d, rfl, rfl, hleeway, h, h'⟩)

/-- Induction on a comparison: one case for each way in which two expressions can be equal. What is
proved of their parts is proved for the pairs that the parts are compared under. -/
@[elab_as_elim]
theorem equalUnder_induction {motive : ∀ p a b, equalUnder leeway p a b = true → Prop}
    (var : ∀ {p v w} (h : p.relates v w = true),
      motive p (.atom (.var v)) (.atom (.var w)) (equalUnder_iff.2 (.var h)))
    (constant : ∀ {p x y} (hx : ∀ v, x ≠ .var v) (h : x.same y = true),
      motive p (.atom x) (.atom y) (equalUnder_iff.2 (.constant hx h)))
    (binder : ∀ {p kind v w a b} (h : equalUnder leeway ((v, w) :: p) a b = true),
      motive _ a b h → motive p (.binder kind v a) (.binder kind w b)
        (equalUnder_iff.2 (.binder h)))
    (implies : ∀ {p a b c d} (h : equalUnder leeway p a c = true)
      (h' : equalUnder leeway p b d = true), motive p a c h → motive p b d h' →
        motive p (.implies a b) (.implies c d) (equalUnder_iff.2 (.implies h h')))
    (equals : ∀ {p a b c d} (h : equalUnder leeway p a c = true)
      (h' : equalUnder leeway p b d = true), motive p a c h → motive p b d h' →
        motive p (.equals a b) (.equals c d) (equalUnder_iff.2 (.equals h h')))
    (turned : ∀ {p a b c d} (hleeway : leeway.equation = true) (h : equalUnder leeway p a d = true)
      (h' : equalUnder leeway p b c = true), motive p a d h → motive p b c h' →
        motive p (.equals a b) (.equals c d) (equalUnder_iff.2 (.turned hleeway h h')))
    (application : ∀ {p as bs} (h : List.Forall₂ (fun a b ↦ equalUnder leeway p a b = true) as bs),
      List.Forall₂ (fun a b ↦ ∃ h, motive p a b h) as bs →
        motive p (.application as) (.application bs) (equalUnder_iff.2 (.application h)))
    (crossed : ∀ {p head a b c d} (hleeway : leeway.commutes head = true)
      (h : equalUnder leeway p a d = true) (h' : equalUnder leeway p b c = true),
      motive p a d h → motive p b c h' →
        motive p (.application [symbol head, a, b]) (.application [symbol head, c, d])
          (equalUnder_iff.2 (.crossed hleeway h h')))
    {p : Pairing} {a b : Expression} (hab : equalUnder leeway p a b = true) : motive p a b hab := by
  induction a generalizing p b with
  | atom x =>
    cases equalUnder_iff.1 hab with
    | var h => exact var h
    | constant hx h => exact constant hx h
  | binder kind v a ih =>
    cases equalUnder_iff.1 hab with
    | binder h => exact binder h (ih h)
  | implies a b iha ihb =>
    cases equalUnder_iff.1 hab with
    | implies h h' => exact implies h h' (iha h) (ihb h')
  | equals a b iha ihb =>
    cases equalUnder_iff.1 hab with
    | equals h h' => exact equals h h' (iha h) (ihb h')
    | turned hleeway h h' => exact turned hleeway h h' (iha h) (ihb h')
  | application as ih =>
    cases equalUnder_iff.1 hab with
    | application h =>
      exact application h (forall₂_imp_of_mem (fun a ha _ h ↦ ⟨h, ih a ha h⟩) h)
    | @crossed head a b c d hleeway h h' =>
      exact crossed hleeway h h' (ih a (by simp) h) (ih b (by simp) h')

/-- Nothing but a symbol is equal to it. -/
theorem equalUnder_symbol_left {head : String} :
    equalUnder leeway p (symbol head) b = true ↔ b = symbol head := by
  rcases b with x | _ | _ | _ | _ <;> try simp [equalUnder, symbol]
  cases x <;> simp [Atom.same, @eq_comm _ head]

/-- Only a symbol is equal to a symbol. -/
theorem equalUnder_symbol_right {head : String} :
    equalUnder leeway p a (symbol head) = true ↔ a = symbol head := by
  rcases a with x | _ | _ | _ | _ <;> try simp [equalUnder, symbol]
  cases x <;> simp [Atom.same]

/-! ### Comparisons compose

Each comparison has its own pairing of bound variables. So symmetry and transitivity are about
pairings that turn around or compose, and this is kept below binders, where all of them get one more
pair.
-/

/-- A pairing that relates more still does behind one more pair of binders. -/
theorem relates_cons_mono {x y v w : Variable} (h : p.relates v w = true → q.relates v w = true)
    (hvw : Pairing.relates ((x, y) :: p) v w = true) :
    Pairing.relates ((x, y) :: q) v w = true := by
  rw [Pairing.relates_cons_iff] at hvw ⊢
  exact hvw.imp_right (.imp_right (.imp_right h))

/-- A pairing that is turned around is turned around behind one more pair as well. -/
theorem relates_cons_symm {x y v w : Variable} (h : p.relates v w = true → q.relates w v = true)
    (hvw : Pairing.relates ((x, y) :: p) v w = true) :
    Pairing.relates ((y, x) :: q) w v = true := by
  rw [Pairing.relates_cons_iff] at hvw ⊢
  tauto

/-- Pairings that compose still do behind one more pair. The variable in the middle is the same one
on both sides, which is what shadowing could have broken. -/
theorem relates_cons_trans {x y z u v w : Variable}
    (h : p.relates u v = true → q.relates v w = true → r.relates u w = true)
    (huv : Pairing.relates ((x, y) :: p) u v = true)
    (hvw : Pairing.relates ((y, z) :: q) v w = true) :
    Pairing.relates ((x, z) :: r) u w = true := by
  rw [Pairing.relates_cons_iff] at huv hvw ⊢
  tauto

/-- With more leeway, and pairs that relate more variables, more is equal. -/
theorem equalUnder_mono (hle : leeway ≤ leeway')
    (hp : ∀ v w, p.relates v w = true → q.relates v w = true)
    (h : equalUnder leeway p a b = true) : equalUnder leeway' q a b = true := by
  induction h using equalUnder_induction generalizing q with
  | var h => exact equalUnder_iff.2 (.var (hp _ _ h))
  | constant hx h => exact equalUnder_iff.2 (.constant hx h)
  | binder _ ih => exact equalUnder_iff.2 (.binder (ih fun v w ↦ relates_cons_mono (hp v w)))
  | implies _ _ ih ih' => exact equalUnder_iff.2 (.implies (ih hp) (ih' hp))
  | equals _ _ ih ih' => exact equalUnder_iff.2 (.equals (ih hp) (ih' hp))
  | turned hleeway _ _ ih ih' =>
    exact equalUnder_iff.2 (.turned (hle.2.2 hleeway) (ih hp) (ih' hp))
  | application _ ih =>
    have hparts := ih.imp fun _ _ hab ↦ hab.elim fun _ ih ↦ ih hp
    exact equalUnder_iff.2 (.application hparts)
  | crossed hleeway _ _ ih ih' =>
    exact equalUnder_iff.2 (.crossed (Leeway.commutes_mono hle hleeway) (ih hp) (ih' hp))

/-- The pairing is turned around with the comparison, so the hypothesis is about both pairings. -/
theorem equalUnder_symm (hp : ∀ v w, p.relates v w = true → q.relates w v = true)
    (h : equalUnder leeway p a b = true) : equalUnder leeway q b a = true := by
  induction h using equalUnder_induction generalizing q with
  | var h => exact equalUnder_iff.2 (.var (hp _ _ h))
  | @constant _ x y hx h =>
    refine equalUnder_iff.2 (.constant ?_ (Atom.same_symm h))
    rintro v rfl
    cases x <;> simp_all [Atom.same]
  | binder _ ih => exact equalUnder_iff.2 (.binder (ih fun v w ↦ relates_cons_symm (hp v w)))
  | implies _ _ ih ih' => exact equalUnder_iff.2 (.implies (ih hp) (ih' hp))
  | equals _ _ ih ih' => exact equalUnder_iff.2 (.equals (ih hp) (ih' hp))
  | turned hleeway _ _ ih ih' => exact equalUnder_iff.2 (.turned hleeway (ih' hp) (ih hp))
  | application _ ih =>
    have hparts := ih.imp fun _ _ hab ↦ hab.elim fun _ ih ↦ ih hp
    exact equalUnder_iff.2 (.application hparts.flip)
  | crossed hleeway _ _ ih ih' => exact equalUnder_iff.2 (.crossed hleeway (ih' hp) (ih hp))

/-- Comparisons compose where their pairings do. An exchange on one side and one on the other
cancel, so each case has to look at both comparisons. -/
theorem equalUnder_trans
    (hp : ∀ u v w, p.relates u v = true → q.relates v w = true → r.relates u w = true)
    (hab : equalUnder leeway p a b = true) (hbc : equalUnder leeway q b c = true) :
    equalUnder leeway r a c = true := by
  induction hab using equalUnder_induction generalizing c q r with
  | var h =>
    refine equalUnder_iff.2 ?_
    cases equalUnder_iff.1 hbc with
    | var h' => exact .var (hp _ _ _ h h')
    | constant hx => exact absurd rfl (hx _)
  | @constant _ x y hx h =>
    refine equalUnder_iff.2 ?_
    cases equalUnder_iff.1 hbc with
    | var h' => cases x <;> simp_all [Atom.same]
    | constant _ h' => exact .constant hx (Atom.same_trans h h')
  | binder _ ih =>
    cases equalUnder_iff.1 hbc with
    | binder h' =>
      exact equalUnder_iff.2 (.binder (ih (fun u v w ↦ relates_cons_trans (hp u v w)) h'))
  | implies _ _ iha ihb =>
    cases equalUnder_iff.1 hbc with
    | implies ha hb => exact equalUnder_iff.2 (.implies (iha hp ha) (ihb hp hb))
  | equals _ _ iha ihb =>
    refine equalUnder_iff.2 ?_
    cases equalUnder_iff.1 hbc with
    | equals ha hb => exact .equals (iha hp ha) (ihb hp hb)
    | turned hleeway ha hb => exact .turned hleeway (iha hp ha) (ihb hp hb)
  | turned hleeway _ _ iha ihb =>
    refine equalUnder_iff.2 ?_
    cases equalUnder_iff.1 hbc with
    -- one exchange is left if only one of the comparisons has it, and none if both have
    | equals hb ha => exact .turned hleeway (iha hp ha) (ihb hp hb)
    | turned _ hb ha => exact .equals (iha hp ha) (ihb hp hb)
  | application h ih =>
    refine equalUnder_iff.2 ?_
    cases equalUnder_iff.1 hbc with
    | application h' =>
      refine .application (forall₂_trans_of_mem (fun _ _ _ _ hab hbc ↦ ?_) ih h')
      exact hab.elim fun _ ih ↦ ih hp hbc
    | crossed hleeway h₁ h₂ =>
      -- operands are exchanged behind a symbol only, and to that nothing else is equal
      obtain _ | ⟨hf, _⟩ := h
      obtain _ | ⟨-, _ | ⟨⟨_, ih₁⟩, _ | ⟨⟨_, ih₂⟩, ⟨⟩⟩⟩⟩ := ih
      obtain rfl := equalUnder_symbol_right.1 hf
      exact .crossed hleeway (ih₁ hp h₁) (ih₂ hp h₂)
  | crossed hleeway _ _ ih₁ ih₂ =>
    refine equalUnder_iff.2 ?_
    cases equalUnder_iff.1 hbc with
    | application h' =>
      obtain _ | ⟨hf, _ | ⟨h₁, _ | ⟨h₂, ⟨⟩⟩⟩⟩ := h'
      obtain rfl := equalUnder_symbol_left.1 hf
      exact .crossed hleeway (ih₁ hp h₂) (ih₂ hp h₁)
    | crossed _ h₁ h₂ =>
      exact .application (.cons (equalUnder_symbol_left.2 rfl)
        (.cons (ih₁ hp h₂) (.cons (ih₂ hp h₁) .nil)))

/-! ### The congruence -/

/-- Every expression is equal to itself, since the empty pairing relates equal variables. -/
theorem equalUpTo_refl (a : Expression) : equalUpTo leeway a a = true :=
  equalUnder_mono leeway.none_le (fun _ _ h ↦ h) (alphaEq_iff.2 rfl)

/-- The three properties with the empty pairing, for which the conditions on pairings are trivial.
-/
theorem equalUpTo_equivalence (leeway : Leeway) :
    Equivalence fun a b ↦ equalUpTo leeway a b = true where
  refl := equalUpTo_refl
  symm := equalUnder_symm fun v w h ↦ by
    rw [Pairing.relates_nil, beq_iff_eq] at h ⊢
    exact h.symm
  trans := equalUnder_trans (by simp +contextual)

/-- It is a congruence of the kind that `IsCongruence` describes, one field for each constructor and
each exchange. -/
theorem isCongruence_equalUpTo (leeway : Leeway) :
    leeway.IsCongruence fun a b ↦ equalUpTo leeway a b = true where
  equivalence := equalUpTo_equivalence leeway
  nameless h := equalUnder_mono leeway.none_le (fun _ _ h ↦ h) (alphaEq_iff.2 h)
  binder kind v h := by
    refine equalUnder_iff.2 (.binder (equalUnder_mono ⟨id, id, id⟩ (fun x y hxy ↦ ?_) h))
    rw [Pairing.relates_cons_iff]
    simp only [Pairing.relates_nil, beq_iff_eq] at hxy ⊢
    grind
  implies h h' := equalUnder_iff.2 (.implies h h')
  equals h h' := equalUnder_iff.2 (.equals h h')
  application h := equalUnder_iff.2 (.application h)
  conjunction h a b := equalUnder_iff.2
    (.crossed (Leeway.commutes_iff.2 (.inl ⟨rfl, h⟩)) (equalUpTo_refl a) (equalUpTo_refl b))
  disjunction h a b := equalUnder_iff.2
    (.crossed (Leeway.commutes_iff.2 (.inr ⟨rfl, h⟩)) (equalUpTo_refl a) (equalUpTo_refl b))
  equation h a b := equalUnder_iff.2 (.turned h (equalUpTo_refl a) (equalUpTo_refl b))

/-- What a comparison finds equal is reached in two steps: exchanges alone, under the names that the
first expression has for bound variables, and then other names. -/
theorem exists_of_equalUnder {R : Expression → Expression → Prop} (hR : leeway.IsCongruence R)
    (h : equalUnder leeway p a b = true) : ∃ c, R a c ∧ equalUnder .none p c b = true := by
  induction h using equalUnder_induction with
  | var h => exact ⟨_, hR.equivalence.refl _, equalUnder_iff.2 (.var h)⟩
  | constant hx h => exact ⟨_, hR.equivalence.refl _, equalUnder_iff.2 (.constant hx h)⟩
  | binder _ ih =>
    obtain ⟨c, hc, hcb⟩ := ih
    exact ⟨_, hR.binder _ _ hc, equalUnder_iff.2 (.binder hcb)⟩
  | implies _ _ ih₁ ih₂ =>
    obtain ⟨c₁, hc₁, h₁⟩ := ih₁
    obtain ⟨c₂, hc₂, h₂⟩ := ih₂
    exact ⟨_, hR.implies hc₁ hc₂, equalUnder_iff.2 (.implies h₁ h₂)⟩
  | equals _ _ ih₁ ih₂ =>
    obtain ⟨c₁, hc₁, h₁⟩ := ih₁
    obtain ⟨c₂, hc₂, h₂⟩ := ih₂
    exact ⟨_, hR.equals hc₁ hc₂, equalUnder_iff.2 (.equals h₁ h₂)⟩
  | turned hleeway _ _ ih₁ ih₂ =>
    obtain ⟨c₁, hc₁, h₁⟩ := ih₁
    obtain ⟨c₂, hc₂, h₂⟩ := ih₂
    exact ⟨.equals c₂ c₁, hR.equivalence.trans (hR.equation hleeway _ _) (hR.equals hc₂ hc₁),
      equalUnder_iff.2 (.equals h₂ h₁)⟩
  | application _ ih =>
    obtain ⟨cs, hcs, h⟩ := exists_forall₂_of_mem (fun _ _ _ hab ↦ hab.elim fun _ ih ↦ ih) ih
    exact ⟨_, hR.application hcs, equalUnder_iff.2 (.application h)⟩
  | @crossed _ head a₁ a₂ b₁ b₂ hleeway _ _ ih₁ ih₂ =>
    obtain ⟨c₁, hc₁, h₁⟩ := ih₁
    obtain ⟨c₂, hc₂, h₂⟩ := ih₂
    -- the operands are exchanged as they stand, before anything is done inside of them
    have hturn : R (call head [a₁, a₂]) (call head [a₂, a₁]) := by
      rcases Leeway.commutes_iff.1 hleeway with ⟨rfl, hand⟩ | ⟨rfl, hor⟩
      · exact hR.conjunction hand a₁ a₂
      · exact hR.disjunction hor a₁ a₂
    have hparts : R (call head [a₂, a₁]) (call head [c₂, c₁]) :=
      hR.application (.cons (hR.equivalence.refl _) (.cons hc₂ (.cons hc₁ .nil)))
    exact ⟨_, hR.equivalence.trans hturn hparts, equalUnder_iff.2
      (.application (.cons (equalUnder_symbol_left.2 rfl) (.cons h₂ (.cons h₁ .nil))))⟩

/-- **Equality up to a leeway is the least congruence that allows what the leeway allows.** The
comparison holds of two expressions exactly when every equivalence relates them that contains
equality up to bound names, is closed under each constructor, and makes no difference between two
conjunctions, disjunctions or equations with their parts exchanged, each where the leeway has it. So
it is an equivalence; more leeway makes more equal; and with none it is the equality of nameless
forms. -/
theorem equalUpTo_isLeastCongruence :
    (∀ (leeway : Leeway) (a b : Expression), equalUpTo leeway a b = true ↔
      ∀ R : Expression → Expression → Prop, leeway.IsCongruence R → R a b) ∧
    (∀ leeway : Leeway, Equivalence fun a b ↦ equalUpTo leeway a b = true) ∧
    (∀ leeway leeway' : Leeway, leeway ≤ leeway' → ∀ a b : Expression,
      equalUpTo leeway a b = true → equalUpTo leeway' a b = true) ∧
    (∀ a b : Expression, equalUpTo .none a b = a.alphaEq b ∧
      (equalUpTo .none a b = true ↔ a.nameless = b.nameless)) := by
  refine ⟨fun leeway a b ↦ ⟨fun h R hR ↦ ?_, fun h ↦ h _ (isCongruence_equalUpTo leeway)⟩,
    equalUpTo_equivalence, fun _ _ hle _ _ h ↦ equalUnder_mono hle (fun _ _ hp ↦ hp) h,
    fun a b ↦ ⟨rfl, alphaEq_iff⟩⟩
  obtain ⟨c, hac, hcb⟩ := exists_of_equalUnder hR h
  exact hR.equivalence.trans hac (hR.nameless (alphaEq_iff.1 hcb))

/-- Two conjunctions under binders of different variables, one with its parts exchanged. -/
theorem equalUpTo_conjunction_under_binder :
    let a := binder .universal ⟨"x", 0⟩ (call "and" [.var ⟨"x", 0⟩, symbol "q"])
    let b := binder .universal ⟨"y", 1⟩ (call "and" [symbol "q", .var ⟨"y", 1⟩])
    equalUpTo { conjunction := true } a b = true ∧ { conjunction := true } ≤ Leeway.all ∧
      equalUpTo .all a b = true ∧ a.alphaEq b = false ∧
      ∀ R : Expression → Expression → Prop,
        Leeway.IsCongruence { conjunction := true } R → R a b := by
  intro a b
  have h : equalUpTo { conjunction := true } a b = true := by decide +kernel
  obtain ⟨hleast, -, hmono, -⟩ := equalUpTo_isLeastCongruence
  exact ⟨h, by decide, hmono _ _ (by decide) a b h, by decide +kernel, (hleast _ a b).1 h⟩

end Expression

end NaturalDeduction
