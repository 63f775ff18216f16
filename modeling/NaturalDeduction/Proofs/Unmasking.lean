import NaturalDeduction.Proofs.Deciphering
import NaturalDeduction.Proofs.LineBreaks
import NaturalDeduction.Proofs.Nameless
import NaturalDeduction.Proofs.Requoting
import NaturalDeduction.Proofs.RoundTrip

/-!
# What printing tells

The printed form of an expression that was read tells almost everything about it: how it is built,
its strings, its numbers and the variables of its binders, with hints and numbers. The one thing
that it does not tell is whether a word in it is a variable or a symbol. A variable is printed as
its text, and a symbol can be spelled like that.

*Unmasking* an expression replaces every symbol that has the text of a variable bound around it by
that variable. Two expressions that were read, and have no holes, are printed the same just if they
are the same when they are unmasked, so without such symbols no two propositions are printed the
same (`Expression.print_eq_iff`).

What is printed is taken apart step by step: without its line breaks it is the text of an
s-expression (`writes_layout`), an s-expression is known from its text, and the expression that
it spells is known but for its symbols (`unmasked_eq_of_spells`).

Main definitions and statements:

* `Expression.unmasked`: every symbol that looks like a variable around it taken for that
  variable.
* `Expression.Whole`: what can have been read, and has no holes.
* `Expression.Writes`: what is printed on one line is an s-expression that spells the expression.
* `Expression.print_eq_iff`: printed the same just if the same when unmasked.
* `Expression.exists_print_eq_not_alphaEq`: two expressions that printing does not tell apart.
-/

namespace NaturalDeduction

/-! ### Unmasking -/

/-- Variables with one text have one hint as well. -/
theorem Variable.eq_of_text_eq {v w : Variable} (h : v.text = w.text) : v = w := by
  have hid : v.id = w.id := id_eq_of_text_eq h
  have hchars : v.hint.toList ++ '_' :: Nat.toDigits 10 v.id =
      w.hint.toList ++ '_' :: Nat.toDigits 10 w.id := by
    rw [← toList_text, ← toList_text, h]
  rw [hid] at hchars
  have hhint : v.hint = w.hint := String.toList_inj.1 (List.append_cancel_right hchars)
  obtain ⟨hint, id⟩ := v
  cases hid
  cases hhint
  rfl

namespace Expression

/-- The bound variable that a word is the text of. -/
def boundAs? (bound : List Variable) (text : String) : Option Expression :=
  (bound.find? (·.text == text)).map var

mutual

/-- The expression with every symbol that has the text of a variable bound around it replaced by
that variable. `bound` are the variables bound around the expression, innermost first. -/
def unmasked (bound : List Variable) : Expression → Expression
  | atom (.symbol name) => (boundAs? bound name).getD (symbol name)
  | atom a => atom a
  | binder kind v body => binder kind v (body.unmasked (v :: bound))
  | implies a b => implies (a.unmasked bound) (b.unmasked bound)
  | equals a b => equals (a.unmasked bound) (b.unmasked bound)
  | application items => application (unmaskedAll bound items)

/-- Every expression of a list unmasked. -/
def unmaskedAll (bound : List Variable) : List Expression → List Expression
  | [] => []
  | e :: rest => e.unmasked bound :: unmaskedAll bound rest

end

mutual

/-- Whether a symbol has the text of a variable bound around it. -/
def hasMasked (bound : List Variable) : Expression → Bool
  | atom (.symbol name) => (boundAs? bound name).isSome
  | atom _ => false
  | binder _ v body => body.hasMasked (v :: bound)
  | implies a b => a.hasMasked bound || b.hasMasked bound
  | equals a b => a.hasMasked bound || b.hasMasked bound
  | application items => haveMasked bound items

/-- Whether there is such a symbol in one of the expressions. -/
def haveMasked (bound : List Variable) : List Expression → Bool
  | [] => false
  | e :: rest => e.hasMasked bound || haveMasked bound rest

end

variable {bound : List Variable} {e e' : Expression}

theorem haveMasked_eq_any (es : List Expression) :
    haveMasked bound es = es.any (hasMasked bound) := by
  induction es with
  | nil => rfl
  | cons e rest ih => rw [haveMasked, ih, List.any_cons]

theorem unmaskedAll_eq_map (es : List Expression) :
    unmaskedAll bound es = es.map (unmasked bound) := by
  induction es with
  | nil => rfl
  | cons e rest ih => rw [unmaskedAll, ih, List.map_cons]

/-- Where there is nothing to unmask, nothing changes. -/
theorem unmasked_eq_self (h : e.hasMasked bound = false) : e.unmasked bound = e := by
  induction e generalizing bound with
  | atom a =>
    cases a with
    | symbol name =>
      rw [hasMasked, Option.isSome_eq_false_iff, Option.isNone_iff_eq_none] at h
      rw [unmasked, h]
      rfl
    | text | number | var | hole => rfl
  | binder kind v body ih => rw [unmasked, ih h]
  | implies a b iha ihb | equals a b iha ihb =>
    rw [hasMasked, Bool.or_eq_false_iff] at h
    rw [unmasked, iha h.1, ihb h.2]
  | application items ih =>
    rw [hasMasked, haveMasked_eq_any, List.any_eq_false] at h
    rw [unmasked, unmaskedAll_eq_map, List.map_congr_left fun e he ↦
      ih e he (Bool.eq_false_iff.2 (h e he)), List.map_id']

/-- Below a row of binders all of their variables may be masked. -/
theorem unmasked_binders (kind : BinderKind) (vs : List Variable) :
    (binders kind vs e).unmasked bound = binders kind vs (e.unmasked (vs.reverse ++ bound)) := by
  induction vs generalizing bound with
  | nil => rfl
  | cons v rest ih =>
    rw [List.reverse_cons, List.append_assoc]
    exact congrArg (binder kind v) ih

/-- Rules with several conditions are unmasked part by part. -/
theorem unmasked_rules {parts : List Expression} (hne : parts ≠ []) :
    (rules parts.dropLast (parts.getLastD default)).unmasked bound =
      rules (parts.map (unmasked bound)).dropLast
        ((parts.map (unmasked bound)).getLastD default) := by
  induction parts with
  | nil => exact absurd rfl hne
  | cons c rest ih =>
    rcases eq_or_ne rest [] with rfl | hrest
    · rfl
    · have hmap : rest.map (unmasked bound) ≠ [] := fun h ↦ hrest (List.map_eq_nil_iff.1 h)
      rw [List.map_cons, rules_cons_parts c hrest, rules_cons_parts _ hmap, unmasked, ih hrest]

/-- What a text is taken for is a variable of that text. -/
theorem exists_of_boundAs? {text : String} (h : boundAs? bound text = some e) :
    ∃ v, e = var v ∧ v.text = text := by
  obtain ⟨v, hfind, rfl⟩ := Option.map_eq_some_iff.1 h
  have htext : (v.text == text) = true :=
    List.find?_some (p := fun w : Variable ↦ w.text == text) hfind
  exact ⟨v, rfl, beq_iff_eq.1 htext⟩

/-- Every variable around is found by its text. -/
theorem boundAs?_eq_some {v : Variable} (h : v ∈ bound) : boundAs? bound v.text = some (var v) := by
  have hsome : (bound.find? (·.text == v.text)).isSome :=
    List.find?_isSome.2 ⟨v, h, beq_self_eq_true v.text⟩
  obtain ⟨w, hfind⟩ := Option.isSome_iff_exists.1 hsome
  have hbound : boundAs? bound v.text = some (var w) := by rw [boundAs?, hfind, Option.map_some]
  obtain ⟨x, hx, htext⟩ := exists_of_boundAs? hbound
  cases hx
  rw [hbound, Variable.eq_of_text_eq htext]

/-- No number is the text of a variable. -/
theorem boundAs?_canonical (q : Rat) : boundAs? bound (Number.canonical q) = none := by
  rw [boundAs?, Option.map_eq_none_iff, List.find?_eq_none]
  intro v _ htext
  have hmem := v.underscore_mem_text
  rw [beq_iff_eq.1 htext, Number.canonical, String.toList_ofList] at hmem
  have hnumeral := Number.isNumeral_of_mem_canonicalChars hmem
  simp [Number.IsNumeral] at hnumeral

/-! ### Expressions without holes -/

/-- Whether an expression can have been read where some variables are bound, and has no holes. -/
structure Whole (bound : List Variable) (e : Expression) : Prop where
  orderly : e.Orderly bound
  filled : e.MadeOf (fun a ↦ ∀ v, a ≠ .hole v) fun _ ↦ True

/-- What is orderly and has no holes is whole. -/
theorem Orderly.whole (h : e.Orderly bound) (hholes : e.hasHoles = false) : e.Whole bound where
  orderly := h
  filled := ⟨fun _ ha v hv ↦ hole_notMem_atoms hholes v (hv ▸ ha), fun _ _ ↦ trivial⟩

/-- The parts of what is whole are whole. -/
theorem whole_implies {a b : Expression} :
    (implies a b).Whole bound ↔ a.Whole bound ∧ b.Whole bound := by
  constructor
  · intro h
    obtain ⟨ha, hb⟩ := orderly_implies.1 h.orderly
    obtain ⟨ha', hb'⟩ := madeOf_implies.1 h.filled
    exact ⟨⟨ha, ha'⟩, hb, hb'⟩
  · exact fun ⟨ha, hb⟩ ↦ ⟨.implies ha.orderly hb.orderly, madeOf_implies.2 ⟨ha.filled, hb.filled⟩⟩

theorem Whole.equals {a b : Expression} (h : (equals a b).Whole bound) :
    a.Whole bound ∧ b.Whole bound := by
  obtain ⟨ha, hb⟩ := madeOf_equals.1 h.filled
  cases h.orderly with
  | equals ha' hb' => exact ⟨⟨ha', ha⟩, hb', hb⟩

theorem Whole.application {items : List Expression} (h : (application items).Whole bound) :
    ∀ e ∈ items, e.Whole bound := by
  cases h.orderly with
  | application hhead hitems =>
    exact fun e he ↦ ⟨hitems e he, madeOf_application.1 h.filled e he⟩

theorem Whole.binders {kind : BinderKind} {vs : List Variable}
    (h : (binders kind vs e).Whole bound) : e.Whole (vs.reverse ++ bound) := by
  induction vs generalizing bound with
  | nil => exact h
  | cons v rest ih =>
    rw [List.reverse_cons, List.append_assoc]
    cases h.orderly with
    | binder kind hword hnew horderly => exact ih ⟨horderly, (madeOf_binder.1 h.filled).2⟩

/-- The word that an application begins with, if it does, is not a keyword. -/
theorem Whole.word?_ne_keyword {items : List Expression}
    (h : (Expression.application (e :: items)).Whole bound) {x : SExpr} (hx : x.Spells e) :
    ∀ name ∈ SExpr.keywords, x.word? ≠ some name := by
  have hfilled := (h.application e List.mem_cons_self).filled
  have hhole : ∀ v, e ≠ .atom (.hole v) := by
    rintro v rfl
    exact madeOf_atom.1 hfilled v rfl
  cases h.orderly with
  | application hhead _ =>
    exact Expression.word?_ne_keyword hx hhole fun name hname heq ↦
      hhead name hname (congrArg some heq)

/-- **A word tells what it stands for**, whether it was a symbol, a number or a variable. -/
theorem Whole.unmasked_atom {a : Atom} (h : (atom a).Whole bound)
    (ha : ∀ contents, a ≠ .text contents) :
    (atom a).unmasked bound = (boundAs? bound a.print).getD (atom (Atom.ofWord a.print)) := by
  have hfilled := madeOf_atom.1 h.filled
  cases h.orderly with
  | symbol hword hname hhole =>
    rw [unmasked, Atom.print, hname]
    rfl
  | text bound contents => exact absurd rfl (ha contents)
  | number bound q =>
    rw [unmasked, Atom.print, boundAs?_canonical, Atom.ofWord_canonical]
    · rfl
    · simp
  | hole bound v => exact absurd rfl (hfilled v)
  | var hv =>
    rw [unmasked, Atom.print, boundAs?_eq_some hv]
    · rfl
    · simp

end Expression

/-! ### What an s-expression spells

An s-expression can spell several expressions, since a word in it may be a symbol or a variable of
that text. When they are unmasked, these expressions are all the same.
-/

namespace SExpr

open Expression

variable {bound : List Variable} {e : Expression}

/-- A form is known by its word and its items. -/
theorem form_inj {head head' : String} {args args' : List SExpr}
    (h : form head args = form head' args') : head = head' ∧ args = args' := by
  simpa [form] using h

/-- A list of names is known by its texts, which tell hint and number. -/
theorem names_inj {vs ws : List Variable} (h : names vs = names ws) : vs = ws := by
  have hmap : vs.map (fun v ↦ word v.text .start) = ws.map fun v ↦ word v.text .start := by
    simpa only [names, SExpr.list.injEq, true_and] using h
  refine List.map_injective_iff.2 (fun v w hvw ↦ ?_) hmap
  exact Variable.eq_of_text_eq (SExpr.word.inj hvw).1

/-- What a list that begins with a keyword can spell. -/
theorem Spells.of_form {head : String} {args : List SExpr} (h : (form head args).Spells e)
    (hhead : head ∈ keywords) (he : e.Whole bound) :
    (∃ kind vs x b, head = kind.keyword ∧ args = [names vs, x] ∧ x.Spells b ∧
      e = .binders kind vs b) ∨
    (head = "->" ∧ ∃ parts, 2 ≤ parts.length ∧ List.Forall₂ Spells args parts ∧
      e = .rules parts.dropLast (parts.getLastD default)) ∨
    (head = "=" ∧ ∃ x y a b, args = [x, y] ∧ x.Spells a ∧ y.Spells b ∧ e = .equals a b) := by
  generalize hx : form head args = x at h
  cases h with
  | atom a => cases a <;> simp [form, Atom.spelling] at hx
  | binders kind hne hy =>
    obtain ⟨hhead, hargs⟩ := form_inj hx
    exact .inl ⟨kind, _, _, _, hhead, hargs, hy, rfl⟩
  | rules hlength hparts =>
    obtain ⟨hhead, rfl⟩ := form_inj hx
    exact .inr (.inl ⟨hhead, _, hlength, hparts, rfl⟩)
  | equals ha hb =>
    obtain ⟨hhead, hargs⟩ := form_inj hx
    exact .inr (.inr ⟨hhead, _, _, _, _, hargs, ha, hb, rfl⟩)
  | application hitems =>
    obtain ⟨-, rfl⟩ := SExpr.list.inj hx
    cases hitems with
    | cons hfirst _ => exact absurd rfl (he.word?_ne_keyword hfirst head hhead)

/-- What a list spells that does not begin with a keyword. -/
theorem Spells.of_list {xs : List SExpr} (h : (list .start xs).Spells e)
    (hhead : ∀ x ∈ xs.head?, ∀ name ∈ keywords, x.word? ≠ some name) :
    ∃ es, e = .application es ∧ List.Forall₂ Spells xs es := by
  have hne : ∀ {head : String} {args : List SExpr}, head ∈ keywords →
      list .start xs ≠ form head args := by
    intro head args hkeyword hxs
    obtain ⟨-, rfl⟩ := SExpr.list.inj hxs
    exact hhead _ rfl head hkeyword rfl
  generalize hx : list .start xs = x at h
  cases h with
  | atom a => cases a <;> simp [Atom.spelling] at hx
  | binders kind => exact absurd hx (hne (by cases kind <;> decide))
  | rules | equals => exact absurd hx (hne (by decide))
  | application hitems =>
    obtain ⟨-, rfl⟩ := SExpr.list.inj hx
    exact ⟨_, rfl, hitems⟩

end SExpr

namespace Expression

open Layout SExpr

/-- Whether every expression that an s-expression spells is a given one when both are unmasked. -/
def SpeltBy (x : SExpr) (e : Expression) : Prop :=
  ∀ {bound : List Variable} {e' : Expression}, e.Whole bound → e'.Whole bound → x.Spells e' →
    e.unmasked bound = e'.unmasked bound

variable {bound : List Variable} {e e' : Expression}

/-- An atom spells itself. -/
theorem speltBy_atom (a : Atom) : SpeltBy a.spelling (atom a) := by
  intro bound e' he he' h
  cases a with
  | text contents =>
    generalize hx : (Atom.text contents).spelling = x at h
    cases h with
    | atom b =>
      cases b with
      | text => rw [(SExpr.quotation.inj hx).1]
      | symbol | number | var | hole => cases hx
    | binders | rules | equals | application => cases hx
  | symbol | number | var | hole =>
    generalize hx : Atom.spelling _ = x at h
    cases h with
    | atom b =>
      cases b with
      | text => cases hx
      | symbol | number | var | hole =>
        rw [he.unmasked_atom (by simp), he'.unmasked_atom (by simp)]
        have hprint := (SExpr.word.inj hx).1
        rw [hprint]
    | binders | rules | equals | application => cases hx

/-- What items spell is the same one by one. -/
theorem map_unmasked_eq {xs : List SExpr} {es es' : List Expression}
    (h : List.Forall₂ SpeltBy xs es) (h' : List.Forall₂ Spells xs es')
    (hes : ∀ e ∈ es, e.Whole bound) (hes' : ∀ e ∈ es', e.Whole bound) :
    es.map (unmasked bound) = es'.map (unmasked bound) := by
  induction h generalizing es' with
  | nil =>
    cases h'
    rfl
  | cons hx _ ih =>
    cases h' with
    | cons hx' hrest' =>
      obtain ⟨he, hrest⟩ := List.forall_mem_cons.1 hes
      obtain ⟨he', hother⟩ := List.forall_mem_cons.1 hes'
      rw [List.map_cons, List.map_cons, hx he he' hx', ih hrest' hrest hother]

/-- **An s-expression tells what it spells**, but for masked symbols. -/
theorem unmasked_eq_of_spells {x : SExpr} (h : x.Spells e) (h' : x.Spells e') (he : e.Whole bound)
    (he' : e'.Whole bound) : e.unmasked bound = e'.unmasked bound := by
  have hspelt : SpeltBy x e := by
    refine Spells.induction (P := SpeltBy) ?atom ?binders ?rules ?equals ?application h
    case atom => exact speltBy_atom
    case binders =>
      intro kind vs x e hne ih bound e' he he' h'
      -- the head is a keyword, so the other expression has a form with that keyword
      rcases h'.of_form (by cases kind <;> decide) he' with
        ⟨kind', ws, y, b, hkind, hargs, hy, rfl⟩ | ⟨hhead, -⟩ | ⟨hhead, -⟩
      · obtain rfl : kind = kind' := by
          have hof := BinderKind.ofKeyword?_keyword kind
          rw [hkind, BinderKind.ofKeyword?_keyword] at hof
          exact (Option.some_inj.1 hof).symm
        simp only [List.cons.injEq, and_true] at hargs
        obtain ⟨hnames, rfl⟩ := hargs
        obtain rfl := names_inj hnames
        rw [unmasked_binders, unmasked_binders, ih he.binders he'.binders hy]
      · exact absurd hhead (by cases kind <;> decide)
      · exact absurd hhead (by cases kind <;> decide)
    case rules =>
      intro xs parts hlength ih bound e' he he' h'
      have hne : parts ≠ [] := List.length_pos_iff.1 (by omega)
      rcases h'.of_form (by decide) he' with ⟨kind, _, _, _, hkind, -⟩ |
        ⟨-, parts', hlength', hparts, rfl⟩ | ⟨hhead, -⟩
      · exact absurd hkind (by cases kind <;> decide)
      · have hne' : parts' ≠ [] := List.length_pos_iff.1 (by omega)
        rw [unmasked_rules hne, unmasked_rules hne', map_unmasked_eq ih hparts
          ((forall_parts_iff (fun _ _ ↦ whole_implies) hne).1 he)
          ((forall_parts_iff (fun _ _ ↦ whole_implies) hne').1 he')]
      · exact absurd hhead (by decide)
    case equals =>
      intro x y a b ihx ihy bound e' he he' h'
      rcases h'.of_form (by decide) he' with ⟨kind, _, _, _, hkind, -⟩ | ⟨hhead, -⟩ |
        ⟨-, x', y', c, d, hargs, hc, hd, rfl⟩
      · exact absurd hkind (by cases kind <;> decide)
      · exact absurd hhead (by decide)
      · simp only [List.cons.injEq, and_true] at hargs
        obtain ⟨rfl, rfl⟩ := hargs
        rw [unmasked, unmasked, ihx he.equals.1 he'.equals.1 hc, ihy he.equals.2 he'.equals.2 hd]
    case application =>
      intro xs es ih bound e' he he' h'
      -- the first item is spelt by an expression, and none of those is spelt like a keyword
      have hhead : ∀ x ∈ xs.head?, ∀ name ∈ keywords, x.word? ≠ some name := by
        cases ih with
        | nil => nofun
        | cons hx _ =>
          rintro _ ⟨⟩
          exact he.word?_ne_keyword hx.1
      obtain ⟨es', rfl, hes'⟩ := h'.of_list hhead
      rw [unmasked, unmasked, unmaskedAll_eq_map, unmaskedAll_eq_map,
        map_unmasked_eq (ih.imp fun _ _ h ↦ h.2) hes' he.application he'.application]
  exact hspelt he he' h'

/-! ### The text on one line -/

/-- A list of names is printed as in the head of a binder. -/
theorem toList_printItems_names (vs : List Variable) :
    (printItems (vs.map fun v ↦ word v.text .start)).toList =
      (" ".intercalate (vs.map Variable.text)).toList := by
  rw [String.toList_intercalate]
  induction vs with
  | nil => rfl
  | cons v rest ih =>
    cases rest with
    | nil => simp [printItems, SExpr.print]
    | cons w rest =>
      rw [List.map_cons, printItems_cons _ (by simp), ih]
      simp only [List.map_cons, List.intercalate_cons_cons, List.append_assoc]
      rfl

/-- A form is printed as its word and its items in brackets. -/
theorem toList_print_form (head : String) (args : List SExpr) :
    (form head args).print.toList = '(' :: (head.toList ++ (spaced args ++ [')'])) := by
  rw [form, toList_print_list, toList_printItems_cons, SExpr.print, List.append_assoc]

/-- Whether what is printed on one line is an s-expression that spells an expression. -/
def Writes (l : Layout) (e : Expression) : Prop :=
  ∃ x : SExpr, x.Spells e ∧ inkChars (flat l) = x.print.toList

/-- Items of a layout are written with spaces in front. -/
theorem exists_spaced {items : List Layout} {es : List Expression}
    (h : List.Forall₂ Writes items es) :
    ∃ xs, List.Forall₂ Spells xs es ∧ inkChars (flatItems items) = spaced xs := by
  induction h with
  | nil => exact ⟨[], .nil, rfl⟩
  | cons hx _ ih =>
    obtain ⟨x, hspells, hchars⟩ := hx
    obtain ⟨xs, hall, hrest⟩ := ih
    refine ⟨x :: xs, .cons hspells hall, ?_⟩
    rw [inkChars_flatItems_cons, hchars, hrest, spaced_cons]

/-- **On one line, an expression is printed as an s-expression that spells it.** -/
theorem writes_layout (e : Expression) : Writes e.layout e := by
  refine layoutInduction (P := Writes) ?atom ?binders ?rules ?equals ?unit ?application e
  case atom =>
    intro a
    refine ⟨a.spelling, .atom a, ?_⟩
    rw [flat, inkChars_piece]
    cases a <;> rfl
  case binders =>
    rintro kind vs l e hne ⟨x, hspells, hchars⟩
    refine ⟨form kind.keyword [names vs, x], .binders kind hne hspells, ?_⟩
    rw [inkChars_flat_list, binderHead, flat, inkChars_piece, toList_binderHead,
      inkChars_flatItems_cons, hchars, toList_print_form, spaced_cons, spaced_cons, names,
      toList_print_list, toList_printItems_names]
    simp [flatItems, inkChars, spaced]
  case rules =>
    intro items parts hlength ih
    obtain ⟨xs, hspells, hchars⟩ := exists_spaced ih
    refine ⟨form "->" xs, .rules hlength hspells, ?_⟩
    rw [inkChars_flat_list, flat, inkChars_piece, hchars, toList_print_form]
  case equals =>
    rintro l l' a b ⟨x, hx, hl⟩ ⟨y, hy, hl'⟩
    refine ⟨form "=" [x, y], .equals hx hy, ?_⟩
    rw [inkChars_flat_list, flat, inkChars_piece, inkChars_flatItems_cons, inkChars_flatItems_cons,
      hl, hl', toList_print_form, spaced_cons, spaced_cons]
    rfl
  case unit => exact ⟨.list .start [], .application .nil, rfl⟩
  case application =>
    rintro head rest e es ⟨x, hx, hl⟩ ih
    obtain ⟨xs, hxs, hrest⟩ := exists_spaced ih
    refine ⟨.list .start (x :: xs), .application (.cons hx hxs), ?_⟩
    rw [inkChars_flat_list, hl, hrest, toList_print_list, toList_printItems_cons, List.append_assoc]

/-- What is spelled has no places. -/
theorem unplaced_of_spells {x : SExpr} (h : x.Spells e) : x.unplaced = x := by
  have hall : ∀ {xs : List SExpr} {es : List Expression},
      List.Forall₂ (fun x _ ↦ True → x.unplaced = x) xs es → unplacedAll xs = xs := by
    intro xs es h
    have hself := forall_of_forall₂ h fun _ _ ↦ trivial
    rw [unplacedAll_eq_map, List.map_congr_left hself, List.map_id']
  have hnames : ∀ vs : List Variable, (names vs).unplaced = names vs := by
    intro vs
    rw [names, unplaced, unplacedAll_eq_map, List.map_map]
    rfl
  refine Spells.induction (P := fun x _ ↦ x.unplaced = x)
    ?atom ?binders ?rules ?equals ?application h
  case atom => exact fun a ↦ by cases a <;> rfl
  case binders =>
    intro kind vs x e hne ih
    simp only [form, unplaced, unplacedAll, hnames, ih]
  case rules =>
    intro xs parts hlength ih
    rw [form, unplaced, unplacedAll, hall (ih.imp fun _ _ h _ ↦ h), unplaced]
  case equals =>
    intro x y a b ihx ihy
    simp only [form, unplaced, unplacedAll, ihx, ihy]
  case application =>
    intro xs es ih
    rw [unplaced, hall (ih.imp fun _ _ h _ ↦ h.2)]

/-- What spells an expression is made of words if its atoms and its variables are. -/
theorem worded_of_spells {x : SExpr} (h : x.Spells e)
    (he : e.MadeOf (·.spelling.Worded) fun v ↦ IsWord v.text) : x.Worded := by
  have hform : ∀ {head : String} {args : List SExpr}, IsWord head → (∀ x ∈ args, x.Worded) →
      (form head args).Worded := fun hhead hargs ↦
    .list .start (List.forall_mem_cons.2 ⟨.word .start hhead, hargs⟩)
  refine Spells.induction
    (P := fun x e ↦ e.MadeOf (·.spelling.Worded) (fun v ↦ IsWord v.text) → x.Worded)
    ?atom ?binders ?rules ?equals ?application h he
  case atom => exact fun a ha ↦ madeOf_atom.1 ha
  case binders =>
    intro kind vs x e hne ih he
    obtain ⟨hvs, hbody⟩ := madeOf_binders.1 he
    refine hform (isWord_keyword kind) (List.forall_mem_cons.2
      ⟨.list .start fun y hy ↦ ?_, List.forall_mem_singleton.2 (ih hbody)⟩)
    obtain ⟨v, hv, rfl⟩ := List.mem_map.1 hy
    exact .word .start (hvs v hv)
  case rules =>
    intro xs parts hlength ih he
    have hne : parts ≠ [] := List.length_pos_iff.1 (by omega)
    exact hform (by decide)
      (forall_of_forall₂ ih ((forall_parts_iff (fun _ _ ↦ madeOf_implies) hne).1 he))
  case equals =>
    intro x y a b ihx ihy he
    obtain ⟨ha, hb⟩ := madeOf_equals.1 he
    exact hform (by decide)
      (List.forall_mem_cons.2 ⟨ihx ha, List.forall_mem_singleton.2 (ihy hb)⟩)
  case application =>
    intro xs es ih he
    exact .list .start (forall_of_forall₂ (ih.imp fun _ _ h ↦ h.2) (madeOf_application.1 he))

/-! ### Unmasking does not show -/

/-- A symbol and the variable that it masks are printed alike. -/
theorem exists_unmasked_atom (bound : List Variable) (a : Atom) :
    ∃ b : Atom, (atom a).unmasked bound = atom b ∧ b.print = a.print := by
  cases a with
  | symbol name =>
    cases hbound : boundAs? bound name with
    | none => exact ⟨.symbol name, by rw [unmasked, hbound]; rfl, rfl⟩
    | some e =>
      obtain ⟨v, rfl, htext⟩ := exists_of_boundAs? hbound
      exact ⟨.var v, by rw [unmasked, hbound]; rfl, htext⟩
  | text contents => exact ⟨.text contents, rfl, rfl⟩
  | number q => exact ⟨.number q, rfl, rfl⟩
  | var v => exact ⟨.var v, rfl, rfl⟩
  | hole v => exact ⟨.hole v, rfl, rfl⟩

/-- **An unmasked expression is printed as it was.** -/
theorem layout_unmasked (e : Expression) (bound : List Variable) :
    (e.unmasked bound).layout = e.layout := by
  refine layout.induct (fun e ↦ ∀ bound, (e.unmasked bound).layout = e.layout)
    (fun es ↦ ∀ bound, layoutItems (unmaskedAll bound es) = layoutItems es)
    (fun e ↦ ∀ bound, layoutRules (e.unmasked bound) = layoutRules e)
    (fun vs e ↦ ∀ bound, layoutAlls vs (e.unmasked bound) = layoutAlls vs e)
    ?atom ?all ?binder ?implies ?equals ?unit ?application ?nil ?cons ?condition ?conclusion
    ?moreAlls ?lastAll e bound
  case atom =>
    intro a bound
    obtain ⟨b, hb, hprint⟩ := exists_unmasked_atom bound a
    rw [hb, layout, layout, hprint]
  case all =>
    intro v body ih bound
    rw [unmasked, layout, layout, ih]
  case binder =>
    intro kind v body hkind ih bound
    rw [unmasked, layout.eq_3 _ _ _ hkind, layout.eq_3 _ _ _ hkind, ih]
  case implies =>
    intro c d ihc ihd bound
    rw [unmasked, layout, layout, ihc, ihd]
  case equals =>
    intro a b iha ihb bound
    rw [unmasked, layout, layout, iha, ihb]
  case unit => exact fun bound ↦ rfl
  case application =>
    intro head rest ihhead ihrest bound
    rw [unmasked, unmaskedAll, layout, layout, ihhead, ihrest]
  case nil => exact fun bound ↦ rfl
  case cons =>
    intro e rest ihe ihrest bound
    rw [unmaskedAll, layoutItems, layoutItems, ihe, ihrest]
  case condition =>
    intro c d ihc ihd bound
    rw [unmasked, layoutRules, layoutRules, ihc, ihd]
  case conclusion =>
    intro e hrule ih bound
    -- unmasking makes variables of symbols, so it makes no rule of what is none
    have hrule' : ∀ c d, e.unmasked bound = implies c d → False := by
      intro c d h
      cases e with
      | atom a =>
        obtain ⟨b, hb, -⟩ := exists_unmasked_atom bound a
        rw [hb] at h
        cases h
      | implies c d => exact hrule c d rfl
      | binder | equals | application => cases h
    rw [layoutRules.eq_2 _ hrule', layoutRules.eq_2 _ hrule, ih]
  case moreAlls =>
    intro vs v body ih bound
    rw [unmasked, layoutAlls, layoutAlls, ih]
  case lastAll =>
    intro vs e hall ih bound
    -- nor does it make a quantifier
    have hall' : ∀ v body, e.unmasked bound = binder .universal v body → False := by
      intro v body h
      cases e with
      | atom a =>
        obtain ⟨b, hb, -⟩ := exists_unmasked_atom bound a
        rw [hb] at h
        cases h
      | binder kind w body =>
        cases h
        exact hall _ _ rfl
      | implies | equals | application => cases h
    rw [layoutAlls.eq_2 _ _ hall', layoutAlls.eq_2 _ _ hall, ih]

/-! ### The theorem -/

/-- What was read and has no holes is made of words. -/
theorem Whole.madeOf_worded (h : e.Whole []) :
    e.MadeOf (·.spelling.Worded) fun v ↦ IsWord v.text := by
  obtain ⟨hspellings, hvariables⟩ := h.orderly.spellings nofun
  refine ⟨fun a ha ↦ (hspellings a ha).resolve_left ?_, hvariables⟩
  rintro ⟨v, rfl⟩
  exact h.filled.atoms _ ha v rfl

/-- If the text of a variable is a word, its hint has no white space. -/
theorem hint_not_blank {v : Variable} (h : IsWord v.text) :
    ∀ c ∈ v.hint.toList, isBlank c = false := by
  intro c hc
  refine h.not_blank c ?_
  rw [Variable.toList_text]
  exact List.mem_append_left _ hc

/-- No white space can be read as part of a name. -/
theorem Whole.unspaced (h : e.Whole []) : e.Unspaced := by
  obtain ⟨hatoms, hvariables⟩ := h.madeOf_worded
  refine ⟨fun a ha ↦ ?_, fun v hv ↦ hint_not_blank (hvariables v hv)⟩
  cases a with
  | symbol name => exact (isWord_of_worded (hatoms _ ha) (by simp)).not_blank
  | var v => exact hint_not_blank (isWord_of_worded (hatoms _ ha) (by simp))
  | hole v => exact absurd rfl (h.filled.atoms _ ha v)
  | text | number => trivial

/-- Two expressions that are printed the same are spelled by one s-expression. -/
theorem Whole.unmasked_eq_of_print_eq (he : e.Whole []) (he' : e'.Whole [])
    (h : e.print = e'.print) : e.unmasked [] = e'.unmasked [] := by
  obtain ⟨x, hx, hchars⟩ := writes_layout e
  obtain ⟨y, hy, hchars'⟩ := writes_layout e'
  have hflat : Layout.print e.layout.flat = Layout.print e'.layout.flat := by
    rw [← unbroken_print he.unspaced, h, unbroken_print he'.unspaced]
  have hprint : x.print = y.print := by
    rw [← String.toList_inj, ← hchars, ← hchars', ← toList_print, ← toList_print, hflat]
  have hxy := SExpr.unplaced_eq_of_print_eq (worded_of_spells hx he.madeOf_worded)
    (worded_of_spells hy he'.madeOf_worded) hprint
  rw [unplaced_of_spells hx, unplaced_of_spells hy] at hxy
  exact unmasked_eq_of_spells hx (hxy ▸ hy) he he'

/-- **Printing conflates nothing but words.** Two expressions that were read, and have no holes, are
printed the same just if they are the same with every symbol that has the text of a variable bound
around it replaced by that variable. If they are printed the same and neither has such a symbol,
they are equal. -/
theorem print_eq_iff {text text' : String} {n n' m m' : Nat} {e e' : Expression}
    (hread : (ofText text).run n = (.ok e, m)) (hread' : (ofText text').run n' = (.ok e', m'))
    (hholes : e.hasHoles = false) (hholes' : e'.hasHoles = false) :
    (e.print = e'.print ↔ e.unmasked [] = e'.unmasked []) ∧
      (e.print = e'.print → e.hasMasked [] = false → e'.hasMasked [] = false →
        e.alphaEq e' = true) := by
  have he : e.Whole [] := (orderly_of_ofText hread).whole hholes
  have he' : e'.Whole [] := (orderly_of_ofText hread').whole hholes'
  refine ⟨⟨he.unmasked_eq_of_print_eq he', fun h ↦ ?_⟩, fun h hself hself' ↦ ?_⟩
  · rw [print, print, ← layout_unmasked e [], h, layout_unmasked]
  · have heq := he.unmasked_eq_of_print_eq he' h
    rw [unmasked_eq_self hself, unmasked_eq_self hself'] at heq
    exact alphaEq_iff.2 (congrArg nameless heq)

/-- Two ways to write a quantifier and a number, printed with a carriage return in a string. -/
theorem print_eq_iff_quantifiers :
    let text := "(forall (x y) (-> (P x \"\r\") (= y 0.5)))"
    let text' := "(forall (x) (forall (y) (-> (P x \"\r\") (= y 2/4))))"
    let e := ((ofText text).run 3).1.toOption.getD default
    let e' := ((ofText text').run 3).1.toOption.getD default
    e.print = "(forall (x_3 y_4) (-> (P x_3 \"\\r\") (= y_4 0.5)))" ∧ e.print = e'.print ∧
      e.unmasked [] = e'.unmasked [] ∧ e.alphaEq e' = true := by
  intro text text' e e'
  have hread := eq_ok_of_isSome (r := (ofText text).run 3) (by decide +kernel)
  have hread' := eq_ok_of_isSome (r := (ofText text').run 3) (by decide +kernel)
  have hprint : e.print = e'.print := by decide +kernel
  obtain ⟨hiff, halpha⟩ := print_eq_iff hread hread' (by decide +kernel) (by decide +kernel)
  exact ⟨by decide +kernel, hprint, hiff.1 hprint,
    halpha hprint (by decide +kernel) (by decide +kernel)⟩

/-- A symbol can be spelled like the variable that is bound around it. What is printed does not say
which of the two it is, and the two are not equal. -/
theorem exists_print_eq_not_alphaEq :
    ∃ (text text' : String) (n n' m m' : Nat) (e e' : Expression),
      (ofText text).run n = (.ok e, m) ∧ (ofText text').run n' = (.ok e', m') ∧
        e.hasHoles = false ∧ e'.hasHoles = false ∧ e.print = e'.print ∧ e.alphaEq e' = false := by
  let text := "(lambda (x) x)"
  let text' := "(lambda (x) x_1)"
  refine ⟨text, text', 1, 1, _, _, _, _,
    eq_ok_of_isSome (r := (ofText text).run 1) (by decide +kernel),
    eq_ok_of_isSome (r := (ofText text').run 1) (by decide +kernel), ?_, ?_, ?_, ?_⟩
  all_goals decide +kernel

end Expression

end NaturalDeduction
