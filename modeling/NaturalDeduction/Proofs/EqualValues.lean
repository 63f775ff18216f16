import NaturalDeduction.Proofs.Agreement
import NaturalDeduction.Proofs.Congruence

/-!
# Values of equal expressions

Expressions that are equal up to bound names have one value, or both have none. Not every part is
evaluated: the head of an application and the domain of a membership are read as symbols. So what is
carried through an expression says of a part that its value is kept, and of a symbol without a value
that the symbol is kept (`AnsweredBy`).

Up to a leeway, one of two expressions may have a value and the other one none, since connectives
stop as soon as the answer is known, and an exchange decides which part is looked at first. But if
both have values, they are the same (`values_of_equalUpTo`). The two evaluations may look at
different parts, so one cannot be followed along the other. What they have in common is an
evaluation above both: each argument is joined with the one that it is compared with, and has a
value if either has. Operators are monotone, so both evaluations have the answer of the joined one
(`operate_compatible`). Only the exchanged connectives need an argument of their own, and it is
about one pair of arguments in two orders (`operate_exchanged`).
-/

namespace NaturalDeduction.Expression

variable {a b c d : Expression} {as bs : List Expression} {v : Value}

/-! ### Expressions with a value -/

/-- An equation has a value if both sides have one, and it compares these. -/
theorem value_equals_eq_ok : (equals a b).value = .ok v ↔
    ∃ x y, a.value = .ok x ∧ b.value = .ok y ∧ v = .truth (x == y) := by
  constructor
  · intro h
    obtain ⟨x, hx, h⟩ := bind_eq_ok.1 h
    obtain ⟨y, hy, h⟩ := bind_eq_ok.1 h
    exact ⟨x, y, hx, hy, (Except.ok.inj h).symm⟩
  · rintro ⟨x, y, hx, hy, rfl⟩
    exact bind_eq_ok.2 ⟨x, hx, bind_eq_ok.2 ⟨y, hy, rfl⟩⟩

/-- An argument whose value is a truth value gives it. -/
theorem truth_of_value {a : Argument} {t : Bool} (h : a.value () = .ok (.truth t)) :
    a.truth = .ok t := bind_eq_ok.2 ⟨_, h, rfl⟩

/-- The conclusion is looked at only if the condition is true. -/
theorem value_implies_eq_ok : (implies a b).value = .ok v ↔
    a.value = .ok (.truth false) ∧ v = .truth true ∨
      a.value = .ok (.truth true) ∧ ∃ t, b.value = .ok (.truth t) ∧ v = .truth t := by
  constructor
  · intro h
    obtain ⟨t, ht, h⟩ := bind_eq_ok.1 h
    cases t with
    | false => exact .inl ⟨truth_eq_ok ht, (Except.ok.inj h).symm⟩
    | true =>
      obtain ⟨s, hs, h⟩ := bind_eq_ok.1 h
      exact .inr ⟨truth_eq_ok ht, s, truth_eq_ok hs, (Except.ok.inj h).symm⟩
  · rintro (⟨ht, rfl⟩ | ⟨ht, s, hs, rfl⟩)
    · exact bind_eq_ok.2 ⟨false, truth_of_value ht, rfl⟩
    · exact bind_eq_ok.2 ⟨true, truth_of_value ht, bind_eq_ok.2 ⟨s, truth_of_value hs, rfl⟩⟩

/-- A call of an operator has the value that the operator gives; any other head has none. -/
theorem value_call_eq_ok {name : String} {args : List Expression} :
    (application (symbol name :: args)).value = .ok v ↔ ∃ op, Operator.ofName? name = some op ∧
      operate (application (symbol name :: args)) op (arguments args) = .ok v := by
  rw [value_application_eq_ok]
  constructor
  · rintro ⟨name', op, args', heq, h⟩
    obtain ⟨hname, rfl⟩ := List.cons.inj heq
    obtain rfl : name = name' := Atom.symbol.inj (atom.inj hname)
    exact ⟨op, h⟩
  · rintro ⟨op, h⟩
    exact ⟨name, op, args, rfl, h⟩

/-- An answer under a function comes from an answer. -/
theorem map_eq_ok {α β : Type} {x : Evaluated α} {f : α → β} {b : β} :
    f <$> x = .ok b ↔ ∃ a, x = .ok a ∧ f a = b := by
  cases x <;> simp [Functor.map, Except.map]

/-- Of the symbols only the two truth values have a value. -/
theorem value_symbol_ne_ok {name : String} (h : name ≠ "true" ∧ name ≠ "false") (v : Value) :
    (symbol name).value ≠ .ok v := by
  intro hv
  change (if name = "true" then _ else if name = "false" then _ else _) = _ at hv
  rw [if_neg h.1, if_neg h.2] at hv
  cases hv

/-! ### One expression for another -/

/-- Whether an expression has the value of another one, and is the symbol that the other one is if
that has no value. -/
structure AnsweredBy (a b : Expression) : Prop where
  value : Answers a.value b.value
  symbol : ∀ name, a = .symbol name → (∀ v, a.value ≠ .ok v) → b = .symbol name

namespace AnsweredBy

/-- Every expression is answered by itself. -/
theorem refl (a : Expression) : a.AnsweredBy a := ⟨.refl _, fun _ h _ ↦ h⟩

/-- An expression with a value is answered by another one with that value. Nothing is asked of it as
a symbol, as those have none. -/
theorem of_value (ha : a.value = .ok v) (hb : b.value = .ok v) : a.AnsweredBy b where
  value _ hu := hb.trans (ha.symm.trans hu)
  symbol _ _ h := absurd ha (h v)

/-- What is said of expressions is what operators need of arguments. -/
theorem argument (h : a.AnsweredBy b) :
    Argument.Answers ⟨a, fun _ ↦ a.value⟩ ⟨b, fun _ ↦ b.value⟩ where
  value := h.value
  domain name _ _ hsource hdomain := by
    obtain rfl : a = .symbol name := hsource
    exact h.symbol name rfl (value_symbol_ne_ok (ne_truth_of_inDomain? hdomain))

/-- A quantification has no value, so nothing is asked. -/
theorem binder (kind kind' : BinderKind) (v w : Variable) (a b : Expression) :
    (Expression.binder kind v a).AnsweredBy (.binder kind' w b) where
  value _ h := nomatch h
  symbol _ h := nomatch h

/-- A rule is answered from its parts, with the condition decided first. -/
theorem implies (ha : a.AnsweredBy c) (hb : b.AnsweredBy d) :
    (Expression.implies a b).AnsweredBy (.implies c d) where
  value v hv := by
    refine value_implies_eq_ok.2 ((value_implies_eq_ok.1 hv).imp ?_ ?_)
    · rintro ⟨h, rfl⟩
      exact ⟨ha.value _ h, rfl⟩
    · rintro ⟨h, t, ht, rfl⟩
      exact ⟨ha.value _ h, t, hb.value _ ht, rfl⟩
  symbol _ h := nomatch h

/-- An equation is answered from its sides. -/
theorem equals (ha : a.AnsweredBy c) (hb : b.AnsweredBy d) :
    (Expression.equals a b).AnsweredBy (.equals c d) where
  value v hv := by
    obtain ⟨x, y, hx, hy, rfl⟩ := value_equals_eq_ok.1 hv
    exact value_equals_eq_ok.2 ⟨x, y, ha.value x hx, hb.value y hy, rfl⟩
  symbol _ h := nomatch h

/-- Operands become arguments one by one. -/
theorem forall₂_arguments (h : List.Forall₂ AnsweredBy as bs) :
    List.Forall₂ Argument.Answers (arguments as) (arguments bs) := by
  induction h with
  | nil => exact .nil
  | cons hab _ ih => exact .cons hab.argument ih

/-- An application is answered from its head and operands, since operators are monotone. -/
theorem application (h : List.Forall₂ AnsweredBy as bs) :
    (Expression.application as).AnsweredBy (.application bs) where
  value v hv := by
    obtain ⟨name, op, args, rfl, hname, hv⟩ := value_application_eq_ok.1 hv
    obtain _ | ⟨hhead, hargs⟩ := h
    -- the name of an operator has no value, so the head is kept
    obtain rfl := hhead.symbol name rfl (value_symbol_ne_ok (ne_truth_of_ofName? hname))
    exact value_application_eq_ok.2
      ⟨name, op, _, rfl, hname, operate_answers (forall₂_arguments hargs) v hv⟩
  symbol _ h := nomatch h

end AnsweredBy

variable {leeway : Leeway} {p : Pairing}

/-- Atoms that count as the same have the same value; numbers are compared by value already. -/
theorem value_atom_of_same {x y : Atom} (h : x.same y = true) {v : Value}
    (hv : (atom x).value = .ok v) : (atom y).value = .ok v := by
  cases x with
  | var | hole => cases hv
  | symbol | text | number => cases y <;> simp_all [Atom.same]

/-- An expression has the value of every expression that it is equal to up to bound names. -/
theorem answeredBy_of_equalUnder (h : equalUnder .none p a b = true) : a.AnsweredBy b := by
  induction h using equalUnder_induction with
  | var => exact ⟨(fun _ hv ↦ nomatch hv), (fun _ hname ↦ nomatch hname)⟩
  | @constant p x y _ h =>
    refine ⟨fun v hv ↦ value_atom_of_same h hv, fun name hname _ ↦ ?_⟩
    obtain rfl := Expression.atom.inj hname
    have hsymbol : equalUnder .none p (.symbol name) (atom y) = true := h
    exact equalUnder_symbol_left.1 hsymbol
  | binder => exact .binder _ _ _ _ _ _
  | implies _ _ ih ih' => exact .implies ih ih'
  | equals _ _ ih ih' => exact .equals ih ih'
  | turned hleeway => cases hleeway
  | application _ ih => exact .application (ih.imp fun _ _ hab ↦ hab.elim fun _ ih ↦ ih)
  | crossed hleeway => simp [Leeway.none, Leeway.commutes] at hleeway

/-! ### Two evaluations and one above both -/

/-- Whether two computations have the same answer, if both have one. -/
def Compatible {α : Type} (x y : Evaluated α) : Prop := ∀ u v, x = .ok u → y = .ok v → u = v

/-- Two evaluations with a common one above them are compatible. -/
theorem Compatible.of_answers {α : Type} {x y z : Evaluated α} (hx : Answers x z)
    (hy : Answers y z) : Compatible x y := fun u v hu hv ↦
  Except.ok.inj ((hx u hu).symm.trans (hy v hv))

namespace Argument

/-- Whether two arguments have the same value, if both have one, and the second one names a number
domain only if the first one does. -/
structure Compatible (a b : Argument) : Prop where
  value : Expression.Compatible (a.value ()) (b.value ())
  domain : ∀ name, b.source = symbol name → a.source = symbol name

/-- An argument with the value of another one where it has none itself. -/
def join (a b : Argument) : Argument where
  source := a.source
  value _ :=
    match a.value () with
    | .ok v => .ok v
    | .error _ => b.value ()

/-- The joined argument has the answers of the first one. -/
theorem answers_join_left (a b : Argument) : a.Answers (a.join b) where
  value v h := by simp only [join, h]
  domain _ _ _ h _ := h

/-- If the two are compatible, it has those of the second one as well. -/
theorem Compatible.answers_join {a b : Argument} (h : a.Compatible b) : b.Answers (a.join b) where
  value v hv := by
    simp only [join]
    split
    next u hu => rw [h.value u v hu hv]
    next => exact hv
  domain name _ _ hsource _ := h.domain name hsource

/-- Lists of compatible arguments are joined one by one. -/
theorem Compatible.exists_forall₂_join {as bs : List Argument} (h : List.Forall₂ Compatible as bs) :
    ∃ cs, List.Forall₂ Argument.Answers as cs ∧ List.Forall₂ Argument.Answers bs cs := by
  obtain ⟨cs, has, hbs⟩ := exists_forall₂_of_mem (T := fun c b ↦ Argument.Answers b c)
    (fun a _ b hab ↦ ⟨a.join b, answers_join_left a b, hab.answers_join⟩) h
  exact ⟨cs, has, hbs.flip⟩

end Argument

section

variable {whole whole' : Expression} {op : Operator} {a b c d : Argument} {as bs : List Argument}

/-- **Operators have one answer** for arguments that have the same values where both have any. -/
theorem operate_compatible (h : List.Forall₂ Argument.Compatible as bs) :
    Compatible (operate whole op as) (operate whole' op bs) := by
  obtain ⟨cs, has, hbs⟩ := Argument.Compatible.exists_forall₂_join h
  have hleft : Answers (operate whole op as) (operate whole op cs) := operate_answers has
  exact .of_answers hleft (operate_answers hbs)

/-- A conjunction of two is decided by the first if that is false, and by the second otherwise. -/
theorem allTrue_pair_eq_ok {t : Bool} (h : Argument.allTrue [a, b] = .ok t) :
    a.truth = .ok false ∧ t = false ∨ a.truth = .ok true ∧ b.truth = .ok t := by
  obtain ⟨s, hs, h⟩ := bind_eq_ok.1 h
  cases s with
  | false => exact .inl ⟨hs, (Except.ok.inj h).symm⟩
  | true =>
    obtain ⟨r, hr, h⟩ := bind_eq_ok.1 h
    cases r <;> exact .inr ⟨hs, hr.trans h⟩

/-- A disjunction of two is decided by the first if that is true. -/
theorem anyTrue_pair_eq_ok {t : Bool} (h : Argument.anyTrue [a, b] = .ok t) :
    a.truth = .ok true ∧ t = true ∨ a.truth = .ok false ∧ b.truth = .ok t := by
  obtain ⟨s, hs, h⟩ := bind_eq_ok.1 h
  cases s with
  | true => exact .inl ⟨hs, (Except.ok.inj h).symm⟩
  | false =>
    obtain ⟨r, hr, h⟩ := bind_eq_ok.1 h
    cases r <;> exact .inr ⟨hs, hr.trans h⟩

/-- A connective ends with the first argument that has the truth value that decides it. Either
argument is looked at first in one of the two orders. So if one order does not come to an argument,
what decides it there is the answer in the other order as well. -/
theorem eq_of_decided (decisive : Bool) {s t : Bool}
    (h : a.truth = .ok decisive ∧ s = decisive ∨ a.truth = .ok !decisive ∧ b.truth = .ok s)
    (h' : b.truth = .ok decisive ∧ t = decisive ∨ b.truth = .ok !decisive ∧ a.truth = .ok t) :
    s = t := by
  rcases h with ⟨ha, rfl⟩ | ⟨ha, hb⟩ <;> rcases h' with ⟨hb', rfl⟩ | ⟨hb', ha'⟩
  · rfl
  · exact Except.ok.inj (ha.symm.trans ha')
  · exact Except.ok.inj (hb.symm.trans hb')
  · exact (Except.ok.inj (hb.symm.trans hb')).trans (Except.ok.inj (ha.symm.trans ha'))

/-- A connective of two arguments has one answer in both orders. -/
theorem operate_exchanged (hop : op = .conjunction ∨ op = .disjunction) :
    Compatible (operate whole op [a, b]) (operate whole' op [b, a]) := by
  intro u v hu hv
  rcases hop with rfl | rfl
  · obtain ⟨s, hs, rfl⟩ := map_eq_ok.1 hu
    obtain ⟨t, ht, rfl⟩ := map_eq_ok.1 hv
    rw [eq_of_decided false (allTrue_pair_eq_ok hs) (allTrue_pair_eq_ok ht)]
  · obtain ⟨s, hs, rfl⟩ := map_eq_ok.1 hu
    obtain ⟨t, ht, rfl⟩ := map_eq_ok.1 hv
    rw [eq_of_decided true (anyTrue_pair_eq_ok hs) (anyTrue_pair_eq_ok ht)]

/-- The same, if arguments are exchanged for ones that they are compatible with. -/
theorem operate_crossed_compatible (hop : op = .conjunction ∨ op = .disjunction)
    (had : a.Compatible d) (hbc : b.Compatible c) :
    Compatible (operate whole op [a, b]) (operate whole' op [c, d]) := by
  have hleft : Answers (operate whole op [a, b]) (operate whole op [a.join d, b.join c]) :=
    operate_answers (.cons (a.answers_join_left d) (.cons (b.answers_join_left c) .nil))
  have hright : Answers (operate whole' op [c, d]) (operate whole' op [b.join c, a.join d]) :=
    operate_answers (.cons hbc.answers_join (.cons had.answers_join .nil))
  exact fun u v hu hv ↦ operate_exchanged hop u v (hleft u hu) (hright v hv)

end

/-! ### Equality up to a leeway -/

/-- As arguments, expressions that are equal are compatible if their values are. -/
theorem argument_compatible (h : equalUnder leeway p a b = true) (hv : Compatible a.value b.value) :
    Argument.Compatible ⟨a, fun _ ↦ a.value⟩ ⟨b, fun _ ↦ b.value⟩ := by
  refine ⟨hv, fun name hb ↦ ?_⟩
  obtain rfl : b = symbol name := hb
  exact equalUnder_symbol_right.1 h

/-- Whatever the leeway, values do not contradict each other. -/
theorem compatible_of_equalUnder (h : equalUnder leeway p a b = true) :
    Compatible a.value b.value := by
  induction h using equalUnder_induction with
  | var | binder => exact fun _ _ hu ↦ nomatch hu
  | constant _ h => exact fun u v hu hv ↦ Except.ok.inj ((value_atom_of_same h hu).symm.trans hv)
  | implies _ _ ih ih' =>
    intro u v hu hv
    -- a false condition settles an implication, and then the other one is not evaluated
    rcases value_implies_eq_ok.1 hu with ⟨ha, rfl⟩ | ⟨ha, s, hb, rfl⟩ <;>
      rcases value_implies_eq_ok.1 hv with ⟨hc, rfl⟩ | ⟨hc, t, hd, rfl⟩
    · rfl
    · cases ih _ _ ha hc
    · cases ih _ _ ha hc
    · exact ih' _ _ hb hd
  | equals _ _ ih ih' =>
    intro u v hu hv
    obtain ⟨x, y, hx, hy, rfl⟩ := value_equals_eq_ok.1 hu
    obtain ⟨x', y', hx', hy', rfl⟩ := value_equals_eq_ok.1 hv
    rw [ih x x' hx hx', ih' y y' hy hy']
  | turned _ _ _ ih ih' =>
    intro u v hu hv
    obtain ⟨x, y, hx, hy, rfl⟩ := value_equals_eq_ok.1 hu
    obtain ⟨y', x', hy', hx', rfl⟩ := value_equals_eq_ok.1 hv
    rw [ih x x' hx hx', ih' y y' hy hy', Bool.beq_comm]
  | application h ih =>
    intro u v hu hv
    obtain ⟨name, op, args, rfl, hname, hu⟩ := value_application_eq_ok.1 hu
    obtain _ | ⟨hhead, -⟩ := h
    obtain _ | ⟨-, hargs⟩ := ih
    obtain rfl := equalUnder_symbol_left.1 hhead
    obtain ⟨op', hname', hv⟩ := value_call_eq_ok.1 hv
    obtain rfl : op = op' := Option.some.inj (hname.symm.trans hname')
    refine operate_compatible ?_ u v hu hv
    rw [arguments_eq_map, arguments_eq_map, List.forall₂_map_left_iff, List.forall₂_map_right_iff]
    exact hargs.imp fun _ _ hab ↦ hab.elim argument_compatible
  | crossed hleeway h h' ih ih' =>
    intro u v hu hv
    obtain ⟨op, hname, hu⟩ := value_call_eq_ok.1 hu
    obtain ⟨op', hname', hv⟩ := value_call_eq_ok.1 hv
    obtain rfl : op = op' := Option.some.inj (hname.symm.trans hname')
    -- only these two are exchanged, and each stops at the first operand that settles it
    have hop : op = .conjunction ∨ op = .disjunction := by
      rcases Leeway.commutes_iff.1 hleeway with ⟨rfl, -⟩ | ⟨rfl, -⟩
      · exact .inl (Option.some.inj hname).symm
      · exact .inr (Option.some.inj hname).symm
    exact operate_crossed_compatible hop (argument_compatible h ih) (argument_compatible h' ih')
      u v hu hv

/-- **Equal expressions have equal values.** Two expressions that are equal up to any leeway have
the same value if both have one, whichever parts their evaluations look at. If they are equal up to
bound names, each has a value just if the other one does. -/
theorem values_of_equalUpTo (a b : Expression) :
    (∀ leeway u v, equalUpTo leeway a b = true → a.value = .ok u → b.value = .ok v → u = v) ∧
      (a.alphaEq b = true → ∀ u, a.value = .ok u ↔ b.value = .ok u) := by
  refine ⟨fun leeway u v h ↦ compatible_of_equalUnder h u v, fun h u ↦ ⟨?_, ?_⟩⟩
  · exact (answeredBy_of_equalUnder h).value u
  · exact (answeredBy_of_equalUnder ((equalUpTo_equivalence .none).symm h)).value u

/-- The quotient has no value, and neither evaluation comes to it. The first one goes past it behind
`(= 1 1)`, and the second one ends with `(= 2 1)`, before the disjunction that it stands in front
of. -/
theorem values_of_equalUpTo_exchanged :
    let undefined := equals (call "/" [int 1, int 0]) (int 1)
    let a := call "and" [call "or" [equals (int 1) (int 1), undefined], equals (int 1) (int 2)]
    let b := call "and" [equals (int 2) (int 1), call "or" [undefined, equals (int 1) (int 1)]]
    equalUpTo .all a b = true ∧ a.value = .ok (.truth false) ∧ b.value = .ok (.truth false) ∧
      ∀ u v, a.value = .ok u → b.value = .ok v → u = v := by
  intro undefined a b
  have h : equalUpTo .all a b = true := by decide +kernel
  exact ⟨h, rfl, rfl, fun u v ↦ (values_of_equalUpTo a b).1 .all u v h⟩

end NaturalDeduction.Expression
