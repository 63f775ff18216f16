import NaturalDeduction.Proofs.ScopeStack

/-!
# Bound names do not matter

Two s-expressions are *alike* under pairs of names if they are the same up to the names that their
binders bind: a word on the left and a word on the right are paired by the innermost pair that
mentions either of them, or are one word that no pair mentions, and the words that make a list a
binder, a rule or an equation are the same on both sides (`SExpr.Alike`). What is alike is read
alike: with the same fault in the same place, or as expressions that are the same up to the names of
bound variables, whatever numbers the variables are drawn with (`SExpr.Alike.read`).

To give one variable of one binder another name is to write that name for it in the list of the
binder, and in the body for every word that stands for the variable (`SExpr.RenamesBinder`). If no
word has the new name yet, what comes of this is alike (`SExpr.RenamesBinder.alike`), so it is read
alike (`SExpr.read_hygienic`).

Two readings are followed in parallel, since a fault has to come up in both of them at once. Their
counters may differ; what they have in common is the pairing of the variables that were drawn, of
which `Matched` is the invariant.

Main definitions and statements:

* `SExpr.Alike`: the same up to bound names, defined on s-expressions and before anything is read.
* `Matched`: the invariant of two readings side by side.
* `SExpr.Alike.read`: what is alike is read alike.
* `SExpr.RenamesBinder`: one variable of one binder renamed, wherever the binder stands.
* `SExpr.read_hygienic`: the two together.
-/

namespace NaturalDeduction

/-! ### Names that stand for each other -/

/-- Names that the binders around two s-expressions bind, the innermost first. -/
abbrev NamePairs := List (String × String)

namespace NamePairs

/-- Whether a name on the left and a name on the right are bound by one binder, or are one name that
none binds. -/
def Relates : NamePairs → String → String → Prop
  | [], a, b => a = b
  | (c, d) :: outer, a, b => a = c ∧ b = d ∨ a ≠ c ∧ b ≠ d ∧ Relates outer a b

variable {pairs : NamePairs} {names : List String} {a b : String}

theorem relates_cons {c d : String} : Relates ((c, d) :: pairs) a b ↔
    a = c ∧ b = d ∨ a ≠ c ∧ b ≠ d ∧ Relates pairs a b := Iff.rfl

/-- Names that are bound on both sides, the last of them innermost. -/
theorem relates_zip_self : Relates ((names.zip names).reverse ++ pairs) a b ↔
    a = b ∧ a ∈ names ∨ a ∉ names ∧ b ∉ names ∧ Relates pairs a b := by
  induction names generalizing pairs with
  | nil => simp
  | cons c rest ih =>
    rw [List.zip_cons_cons, List.reverse_cons, List.append_assoc, List.singleton_append, ih,
      relates_cons]
    grind

/-- The same for a word that is related to itself already, so that only new names need to be looked
at. -/
theorem relates_zip_self_of_self (h : a ∉ names → Relates pairs a a) :
    Relates ((names.zip names).reverse ++ pairs) a a := by
  by_cases ha : a ∈ names
  · exact relates_zip_self.2 (.inl ⟨rfl, ha⟩)
  · exact relates_zip_self.2 (.inr ⟨ha, ha, h ha⟩)

end NamePairs

/-- The entries of two scopes, each with the entry of the other scope that stands in its place. -/
abbrev ScopePairs := List ((String × Variable) × (String × Variable))

namespace ScopePairs

/-- The first scope, above a scope that both have. -/
def left (pairs : ScopePairs) (base : Scope) : Scope := pairs.map (·.1) ++ base

/-- The second scope. -/
def right (pairs : ScopePairs) (base : Scope) : Scope := pairs.map (·.2) ++ base

/-- The names in pairs. -/
def names (pairs : ScopePairs) : NamePairs := pairs.map fun p ↦ (p.1.1, p.2.1)

/-- The variables in pairs. -/
def pairing (pairs : ScopePairs) : Pairing := pairs.map fun p ↦ (p.1.2, p.2.2)

end ScopePairs

/-- Under pairs of one number each, variables are related if they have one number. -/
theorem Pairing.relates_of_forall_id_eq {pairs : Pairing} (h : ∀ p ∈ pairs, p.1.id = p.2.id)
    {v w : Variable} : pairs.relates v w = true ↔ v.id = w.id := by
  induction pairs with
  | nil => rw [relates_nil, beq_iff_eq]
  | cons p outer ih =>
    obtain ⟨hp, houter⟩ := List.forall_mem_cons.1 h
    rw [relates_cons_iff, ih houter, hp]
    grind

/-- The binding in front is found first, which is shadowing. -/
theorem Scope.lookup?_cons (a b : String) (v : Variable) (scope : Scope) :
    Scope.lookup? ((b, v) :: scope) a = if a = b then some v else scope.lookup? a := by
  rw [Scope.lookup?, List.find?_cons]
  split
  · rw [if_pos (beq_iff_eq.1 ‹_›).symm]
    rfl
  · rw [if_neg fun h ↦ by simp_all]
    rfl

/-- Whether names that stand for each other are known to two scopes as variables that do. The
counters are at one place and have given pairs of one number, or both are past all variables. -/
structure Matched (base : Scope) (s s' : ReadState) (pairs : ScopePairs) : Prop where
  counters : s' = s ∧ (∀ p ∈ pairs.pairing, p.1.id = p.2.id) ∨
    (pairs.left base).Below s.next ∧ (pairs.right base).Below s'.next
  lookups : ∀ {a b : String}, pairs.names.Relates a b →
    a = b ∧ (pairs.left base).lookup? a = none ∧ (pairs.right base).lookup? b = none ∨
      ∃ v w, (pairs.left base).lookup? a = some v ∧ (pairs.right base).lookup? b = some w ∧
        pairs.pairing.relates v w = true

namespace Matched

variable {base : Scope} {s s' t t' : ReadState} {pairs : ScopePairs}

/-- No pairs. The two readings have drawn the same, or all that they start from is below both
counters. -/
theorem nil (h : s' = s ∨ base.Below s.next ∧ base.Below s'.next) : Matched base s s' [] where
  counters := h.imp (fun h ↦ ⟨h, nofun⟩) id
  lookups := by
    rintro a _ rfl
    show a = a ∧ base.lookup? a = none ∧ base.lookup? a = none ∨
      ∃ v w, base.lookup? a = some v ∧ base.lookup? a = some w ∧ Pairing.relates [] v w = true
    cases base.lookup? a with
    | none => exact .inl ⟨rfl, rfl, rfl⟩
    | some v => exact .inr ⟨v, v, rfl, rfl, beq_self_eq_true _⟩

/-- Counters may move on, as long as they stay in step if they were. -/
theorem mono (h : Matched base s s' pairs) (hsame : s' = s → t' = t) (hle : s.next ≤ t.next)
    (hle' : s'.next ≤ t'.next) : Matched base t t' pairs where
  counters := h.counters.imp (fun h ↦ ⟨hsame h.1, h.2⟩) fun h ↦ ⟨h.1.mono hle, h.2.mono hle'⟩
  lookups := h.lookups

/-- What is said of inner scopes holds of the ones around them. -/
theorem outer {inner : ScopePairs} (h : Matched base s s' pairs) (hinner : Matched base t t' inner)
    (hsuffix : pairs <:+ inner) : Matched base t t' pairs where
  counters := by
    obtain ⟨new, rfl⟩ := hsuffix
    refine hinner.counters.imp (fun ⟨ht, hpairs⟩ ↦ ⟨ht, fun p hp ↦ hpairs p ?_⟩)
      fun ⟨hleft, hright⟩ ↦ ⟨fun p hp ↦ hleft p ?_, fun p hp ↦ hright p ?_⟩
    · rw [ScopePairs.pairing, List.map_append]
      exact List.mem_append_right _ hp
    · rw [ScopePairs.left, List.map_append, List.append_assoc]
      exact List.mem_append_right _ hp
    · rw [ScopePairs.right, List.map_append, List.append_assoc]
      exact List.mem_append_right _ hp
  lookups := h.lookups

/-- A variable that is drawn on both sides stands for itself and hides no other one. -/
theorem cons (h : Matched base s s' pairs) (a b : String) :
    Matched base { s with next := s.next + 1 } { s' with next := s'.next + 1 }
      (((a, ⟨a, s.next⟩), (b, ⟨b, s'.next⟩)) :: pairs) where
  counters := by
    refine h.counters.imp (fun ⟨hs, hpairs⟩ ↦ ?_) fun ⟨hleft, hright⟩ ↦ ?_
    · subst hs
      exact ⟨rfl, List.forall_mem_cons.2 ⟨rfl, hpairs⟩⟩
    · exact ⟨List.forall_mem_cons.2 ⟨Nat.lt_succ_self _, hleft.mono (Nat.le_succ _)⟩,
        List.forall_mem_cons.2 ⟨Nat.lt_succ_self _, hright.mono (Nat.le_succ _)⟩⟩
  lookups := by
    intro c d hcd
    show c = d ∧ Scope.lookup? ((a, _) :: pairs.left base) c = none ∧
        Scope.lookup? ((b, _) :: pairs.right base) d = none ∨
      ∃ v w, Scope.lookup? ((a, _) :: pairs.left base) c = some v ∧
        Scope.lookup? ((b, _) :: pairs.right base) d = some w ∧
          Pairing.relates (_ :: pairs.pairing) v w = true
    rw [Scope.lookup?_cons, Scope.lookup?_cons]
    rcases NamePairs.relates_cons.1 hcd with ⟨rfl, rfl⟩ | ⟨hc, hd, hcd⟩
    · rw [if_pos rfl, if_pos rfl]
      exact .inr ⟨_, _, rfl, rfl, Pairing.relates_cons_iff.2 (.inl ⟨rfl, rfl⟩)⟩
    · rw [if_neg hc, if_neg hd]
      refine (h.lookups hcd).imp_right fun ⟨v, w, hv, hw, hvw⟩ ↦
        ⟨v, w, hv, hw, Pairing.relates_cons_iff.2 ?_⟩
      rcases h.counters with ⟨rfl, hpairs⟩ | ⟨hleft, hright⟩
      · have hid : v.id = w.id := (Pairing.relates_of_forall_id_eq hpairs).1 hvw
        by_cases hv : s'.next = v.id
        · exact .inl ⟨hv, hv.trans hid⟩
        · exact .inr ⟨hv, hid ▸ hv, hvw⟩
      · exact .inr ⟨Nat.ne_of_gt (hleft.lookup? hv), Nat.ne_of_gt (hright.lookup? hw), hvw⟩

end Matched

/-! ### Reading what is alike -/

namespace Expression

/-- Whether the first expression is the second up to the names of variables, or has holes. -/
def AlikeUnder (pairs : Pairing) (e e' : Expression) : Prop :=
  e.hasHoles = false → SameUnder pairs e e'

variable {pairs : Pairing}

/-- Binders may have different variables if these are paired in the bodies. -/
theorem alikeUnder_binder {kind : BinderKind} {v w : Variable} {e e' : Expression}
    (h : AlikeUnder ((v, w) :: pairs) e e') :
    AlikeUnder pairs (binder kind v e) (binder kind w e') :=
  fun hholes ↦ sameUnder_binder.2 (h hholes)

theorem alikeUnder_equals {a b a' b' : Expression} (ha : AlikeUnder pairs a a')
    (hb : AlikeUnder pairs b b') : AlikeUnder pairs (equals a b) (equals a' b') := by
  intro hholes
  rw [hasHoles, Bool.or_eq_false_iff] at hholes
  exact sameUnder_equals.2 ⟨ha hholes.1, hb hholes.2⟩

/-- Without holes, expressions that are alike are the same under the pairing. -/
theorem forall₂_sameUnder {es es' : List Expression} (h : List.Forall₂ (AlikeUnder pairs) es es')
    (hholes : ∀ e ∈ es, e.hasHoles = false) : List.Forall₂ (SameUnder pairs) es es' := by
  induction h with
  | nil => exact .nil
  | cons h _ ih =>
    obtain ⟨he, hes⟩ := List.forall_mem_cons.1 hholes
    exact .cons (h he) (ih hes)

theorem alikeUnder_application {es es' : List Expression}
    (h : List.Forall₂ (AlikeUnder pairs) es es') :
    AlikeUnder pairs (application es) (application es') := by
  intro hholes
  rw [hasHoles, haveHoles_eq_any, List.any_eq_false] at hholes
  exact sameUnder_application (forall₂_sameUnder h fun e he ↦ Bool.eq_false_iff.2 (hholes e he))

/-- Rules are alike part by part; the last part is the conclusion. -/
theorem alikeUnder_rules {es es' : List Expression} (h : List.Forall₂ (AlikeUnder pairs) es es')
    (hne : es ≠ []) : AlikeUnder pairs (rules es.dropLast (es.getLastD default))
      (rules es'.dropLast (es'.getLastD default)) := by
  intro hholes
  have hparts := (forall_parts_iff (C := fun e ↦ e.hasHoles = false)
    (fun a b ↦ by rw [hasHoles, Bool.or_eq_false_iff]) hne).1 hholes
  refine sameUnder_rules (forall₂_sameUnder h hparts) fun hnil ↦ hne ?_
  rw [hnil] at h
  cases h
  rfl

end Expression

namespace SExpr

open Reading

/-- The names in the list of a binder. -/
def boundNames (vars : SExpr) : List String := (binderNames vars).filterMap word?

/-- Whether two items of the lists of binders stand in one place, and are both names or both not. -/
def NamesAlike (x x' : SExpr) : Prop :=
  x'.position = x.position ∧ (x'.word?.isSome = x.word?.isSome)

mutual

/-- Whether two s-expressions are the same up to the names that are bound in them and, in pairs,
around them. Where a binder does not have two arguments, nothing is read. -/
inductive Alike : NamePairs → SExpr → SExpr → Prop
  | word {pairs : NamePairs} {a b : String} (position : Position) (h : pairs.Relates a b) :
    Alike pairs (word a position) (word b position)
  | quotation (pairs : NamePairs) (contents : String) (position : Position) :
    Alike pairs (quotation contents position) (quotation contents position)
  | unit (pairs : NamePairs) (position : Position) :
    Alike pairs (list position []) (list position [])
  | binder {pairs : NamePairs} (position : Position) {head vars vars' body body' : SExpr}
    {kind : BinderKind} (hkind : head.binderKind? = some kind)
    (hvars : vars'.position = vars.position)
    (hnames : List.Forall₂ NamesAlike (binderNames vars) (binderNames vars'))
    (hbody : Alike ((vars.boundNames.zip vars'.boundNames).reverse ++ pairs) body body') :
    Alike pairs (list position [head, vars, body]) (list position [head, vars', body'])
  | misshapen (pairs : NamePairs) (position : Position) {head : SExpr} {args args' : List SExpr}
    {kind : BinderKind} (hkind : head.binderKind? = some kind) (hargs : args.length ≠ 2)
    (hlength : args'.length = args.length) :
    Alike pairs (list position (head :: args)) (list position (head :: args'))
  | arrow {pairs : NamePairs} (position : Position) {head : SExpr} {args args' : List SExpr}
    (hhead : head.word? = some "->") (hargs : AllAlike pairs args args') :
    Alike pairs (list position (head :: args)) (list position (head :: args'))
  | equation {pairs : NamePairs} (position : Position) {head : SExpr} {args args' : List SExpr}
    (hhead : head.word? = some "=") (hargs : AllAlike pairs args args') :
    Alike pairs (list position (head :: args)) (list position (head :: args'))
  | application {pairs : NamePairs} (position : Position) {head head' : SExpr}
    {args args' : List SExpr} (hhead : ∀ name ∈ keywords, head.word? ≠ some name)
    (hhead' : ∀ name ∈ keywords, head'.word? ≠ some name)
    (hitems : AllAlike pairs (head :: args) (head' :: args')) :
    Alike pairs (list position (head :: args)) (list position (head' :: args'))

/-- The same for lists, item by item. -/
inductive AllAlike : NamePairs → List SExpr → List SExpr → Prop
  | nil (pairs : NamePairs) : AllAlike pairs [] []
  | cons {pairs : NamePairs} {x x' : SExpr} {rest rest' : List SExpr} (h : Alike pairs x x')
    (hrest : AllAlike pairs rest rest') : AllAlike pairs (x :: rest) (x' :: rest')

end

/-- Lists are alike item by item. -/
theorem allAlike_iff {pairs : NamePairs} {xs xs' : List SExpr} :
    AllAlike pairs xs xs' ↔ List.Forall₂ (Alike pairs) xs xs' := by
  constructor
  · intro h
    induction xs generalizing xs' with
    | nil => cases h; exact .nil
    | cons x rest ih => cases h with | cons h hrest => exact .cons h (ih hrest)
  · intro h
    induction h with
    | nil => exact .nil _
    | cons h _ ih => exact .cons h ih

/-- Induction with a hypothesis for every item of a list. -/
@[elab_as_elim]
theorem Alike.induction {P : NamePairs → SExpr → SExpr → Prop}
    (word : ∀ pairs a b position, pairs.Relates a b → P pairs (.word a position) (.word b position))
    (quotation : ∀ pairs contents position,
      P pairs (.quotation contents position) (.quotation contents position))
    (unit : ∀ pairs position, P pairs (list position []) (list position []))
    (binder : ∀ pairs position head vars vars' body body' kind, head.binderKind? = some kind →
      vars'.position = vars.position →
      List.Forall₂ NamesAlike (binderNames vars) (binderNames vars') →
      P ((vars.boundNames.zip vars'.boundNames).reverse ++ pairs) body body' →
      P pairs (list position [head, vars, body]) (list position [head, vars', body']))
    (misshapen : ∀ pairs position head args args' kind, head.binderKind? = some kind →
      args.length ≠ 2 → args'.length = args.length →
      P pairs (list position (head :: args)) (list position (head :: args')))
    (arrow : ∀ pairs position head args args', head.word? = some "->" →
      List.Forall₂ (P pairs) args args' →
      P pairs (list position (head :: args)) (list position (head :: args')))
    (equation : ∀ pairs position head args args', head.word? = some "=" →
      List.Forall₂ (P pairs) args args' →
      P pairs (list position (head :: args)) (list position (head :: args')))
    (application : ∀ pairs position head head' args args',
      (∀ name ∈ keywords, head.word? ≠ some name) → (∀ name ∈ keywords, head'.word? ≠ some name) →
      List.Forall₂ (P pairs) (head :: args) (head' :: args') →
      P pairs (list position (head :: args)) (list position (head' :: args')))
    {pairs : NamePairs} {x x' : SExpr} (h : Alike pairs x x') : P pairs x x' :=
  Alike.rec (motive_1 := fun pairs x x' _ ↦ P pairs x x')
    (motive_2 := fun pairs xs xs' _ ↦ List.Forall₂ (P pairs) xs xs')
    (fun position h ↦ word _ _ _ position h) quotation unit
    (fun position _ _ _ _ _ _ hkind hvars hnames _ ih ↦
      binder _ position _ _ _ _ _ _ hkind hvars hnames ih)
    (fun pairs position _ _ _ _ ↦ misshapen pairs position _ _ _ _)
    (fun position _ _ _ hhead _ ih ↦ arrow _ position _ _ _ hhead ih)
    (fun position _ _ _ hhead _ ih ↦ equation _ position _ _ _ hhead ih)
    (fun position _ _ _ _ hhead hhead' _ ih ↦ application _ position _ _ _ _ hhead hhead' ih)
    (fun _ ↦ .nil) (fun _ _ ih ihs ↦ .cons ih ihs) h

end SExpr

namespace Reading

open Expression

variable {base : Scope} {s s' : ReadState} {pairs : ScopePairs}

/-- Whether two readings, in two scopes, succeed together, with expressions that are the same up to
the pairs, or fail together in the same way. -/
def ReadAlike (base : Scope) (pairs : ScopePairs) (act act' : Reading Expression)
    (s s' : ReadState) : Prop :=
  Parallel act act' s s'
    (fun e e' t t' ↦ Matched base t t' pairs ∧ e.AlikeUnder pairs.pairing e') fun _ _ ↦ True

/-- Holes are kept in a list of their own, so reading one keeps the scopes matched. Nothing is
claimed of the holes themselves. -/
theorem hole_parallel (h : Matched base s s' pairs) (name : String) :
    Parallel (hole name) (hole name) s s' (fun _ _ t t' ↦ Matched base t t' pairs)
      fun _ _ ↦ True := by
  have hrun : ∀ s : ReadState, ∃ v t, (hole name).run.run s = (.ok v, t) := by
    intro s
    rw [hole, run_bind_ok (run_get_eq s)]
    cases s.holes.find? (·.1 == name) with
    | none => exact ⟨_, _, rfl⟩
    | some p => exact ⟨_, _, rfl⟩
  have hle : ∀ s : ReadState, s.next ≤ ((hole name).run.run s).2.next := fun s ↦
    (hole_reads name).1
  have hmono := h.mono (fun hs ↦ by rw [hs]) (hle s) (hle s')
  obtain ⟨v, t, ht⟩ := hrun s
  obtain ⟨v', t', ht'⟩ := hrun s'
  rw [ht, ht'] at hmono
  rw [Parallel, ht, ht']
  exact hmono

/-- Two words that are related are both bound by paired variables, or are one word that neither
scope has. -/
theorem word_alike (h : Matched base s s' pairs) {a b : String} (hab : pairs.names.Relates a b)
    (position : Position) :
    ReadAlike base pairs (word (pairs.left base) a position) (word (pairs.right base) b position)
      s s' := by
  rw [word, word]
  rcases h.lookups hab with ⟨rfl, ha, hb⟩ | ⟨v, w, hv, hw, hvw⟩
  · rw [ha, hb]
    dsimp only
    split
    · exact .throw _ trivial
    · exact (hole_parallel h _).bind fun v v' t t' ht ↦ .pure ⟨ht, fun hholes ↦ by cases hholes⟩
    · refine .pure ⟨h, fun _ ↦ ?_⟩
      rw [Atom.ofWord_eq]
      cases Number.parse? a <;> simp [SameUnder, equalUnder, Atom.same]
  · rw [hv, hw]
    refine .pure ⟨h, fun _ ↦ ?_⟩
    rw [SameUnder, Expression.var, Expression.var, equalUnder]
    exact hvw

/-- The variables that two binders draw are paired. -/
theorem bindNames_alike {xs xs' : List SExpr} (hnames : List.Forall₂ SExpr.NamesAlike xs xs')
    (h : Matched base s s' pairs) :
    Parallel (bindNames (pairs.left base) xs) (bindNames (pairs.right base) xs') s s'
      (fun p p' t t' ↦ ∃ inner : ScopePairs, pairs <:+ inner ∧ p.1 = inner.left base ∧
        p'.1 = inner.right base ∧ Matched base t t' inner ∧
        inner.names = ((xs.filterMap SExpr.word?).zip (xs'.filterMap SExpr.word?)).reverse ++
          pairs.names ∧
        ∀ (kind : BinderKind) (e e' : Expression), AlikeUnder inner.pairing e e' →
          AlikeUnder pairs.pairing (binders kind p.2 e) (binders kind p'.2 e'))
      fun _ _ ↦ True := by
  induction hnames generalizing s s' pairs with
  | nil => exact .pure ⟨pairs, List.suffix_rfl, rfl, rfl, h, rfl, fun kind e e' he ↦ he⟩
  | @cons x x' rest rest' hx _ ih =>
    obtain ⟨hposition, hword⟩ := hx
    -- both stop at the same position, for the same reason
    have hfault {act act' : Reading (Scope × List Variable)}
        (hact : act = throw ⟨.notAVariableName, x.position⟩)
        (hact' : act' = throw ⟨.notAVariableName, x'.position⟩) {post} :
        Parallel act act' s s' post fun _ _ ↦ True := by
      rw [hact, hact', hposition]
      exact .throw _ trivial
    cases x with
    | word a position =>
      cases x' with
      | word b position' =>
        -- the counters may differ: each side draws from its own, and the two variables are paired
        have hfresh : Parallel (fresh a) (fresh b) s s'
            (fun v w t t' ↦ v = ⟨a, s.next⟩ ∧ w = ⟨b, s'.next⟩ ∧
              Matched base t t' (((a, v), (b, w)) :: pairs)) fun _ _ ↦ True :=
          ⟨rfl, rfl, h.cons a b⟩
        refine hfresh.bind ?_
        rintro _ _ t t' ⟨rfl, rfl, ht⟩
        refine (ih ht).bind ?_
        rintro ⟨_, vs⟩ ⟨_, ws⟩ u u' ⟨inner, hsuffix, rfl, rfl, hinner, hnames, hbinders⟩
        refine .pure ⟨inner, (List.suffix_cons _ _).trans hsuffix, rfl, rfl, hinner, ?_,
          fun kind e e' he ↦ ?_⟩
        · rw [hnames]
          simp [SExpr.word?, ScopePairs.names]
        · exact alikeUnder_binder (hbinders kind e e' he)
      | quotation | list => cases hword
    | quotation | list =>
      cases x' with
      | word => cases hword
      | quotation | list => exact hfault rfl rfl

end Reading

namespace SExpr

open Reading Expression

/-- Items are read in turn, and a fault in one of them is one in both readings. -/
theorem readAll_alike {base : Scope} {pairs : ScopePairs} {xs xs' : List SExpr}
    (hxs : List.Forall₂ (fun x x' ↦ ∀ {s s' : ReadState}, Matched base s s' pairs →
      ReadAlike base pairs (x.read (pairs.left base)) (x'.read (pairs.right base)) s s') xs xs')
    {s s' : ReadState} (h : Matched base s s' pairs) :
    Parallel (readAll (pairs.left base) xs) (readAll (pairs.right base) xs') s s'
      (fun es es' t t' ↦ Matched base t t' pairs ∧ es.length = xs.length ∧
        List.Forall₂ (AlikeUnder pairs.pairing) es es') fun _ _ ↦ True := by
  induction hxs generalizing s s' with
  | nil =>
    rw [readAll, readAll]
    exact .pure ⟨h, rfl, .nil⟩
  | cons hx _ ih =>
    rw [readAll, readAll]
    refine (hx h).bind fun e e' t t' he ↦ (ih he.1).bind fun es es' u u' hes ↦ .pure ?_
    exact ⟨hes.1, congrArg (· + 1) hes.2.1, .cons he.2 hes.2.2⟩

/-- **What is alike is read alike**, whatever the names are and wherever the counters stand. -/
theorem Alike.read {names : NamePairs} {x x' : SExpr} (halike : x.Alike names x') {base : Scope}
    {pairs : ScopePairs} (hnames : pairs.names = names) {s s' : ReadState}
    (h : Matched base s s' pairs) :
    ReadAlike base pairs (x.read (pairs.left base)) (x'.read (pairs.right base)) s s' := by
  revert pairs s s'
  refine Alike.induction (P := fun names x x' ↦ ∀ {pairs : ScopePairs}, pairs.names = names →
    ∀ {s s' : ReadState}, Matched base s s' pairs →
      ReadAlike base pairs (x.read (pairs.left base)) (x'.read (pairs.right base)) s s')
    ?word ?quotation ?unit ?binder ?misshapen ?arrow ?equation ?application halike
  case word =>
    intro names a b position hab pairs hnames s s' h
    rw [SExpr.read, SExpr.read]
    exact word_alike h (hnames ▸ hab) position
  case quotation =>
    intro names contents position pairs hnames s s' h
    rw [SExpr.read, SExpr.read]
    exact .pure ⟨h, fun _ ↦ by simp [SameUnder, equalUnder, Expression.text, Atom.same]⟩
  case unit =>
    intro names position pairs hnames s s' h
    rw [read_unit, read_unit]
    exact .pure ⟨h, alikeUnder_application .nil⟩
  case binder =>
    intro names position head vars vars' body body' kind hkind hvars hitems ih pairs hnames s s' h
    have hempty : (binderNames vars').isEmpty = (binderNames vars).isEmpty := by
      rw [Bool.eq_iff_iff, List.isEmpty_iff_length_eq_zero, List.isEmpty_iff_length_eq_zero,
        hitems.length_eq]
    rw [read_binder hkind, read_binder hkind, hempty, hvars]
    -- the bodies are read in the scopes in which the new variables are paired
    refine .check trivial ((bindNames_alike hitems h).bind ?_)
    rintro ⟨_, vs⟩ ⟨_, ws⟩ t t' ⟨inner, hsuffix, rfl, rfl, hinner, hnames', hbinders⟩
    refine (ih (by rw [hnames', hnames, boundNames, boundNames]) hinner).bind ?_
    -- behind the binder the outer scopes hold again
    exact fun e e' u u' he ↦ .pure ⟨h.outer he.1 hsuffix, hbinders kind e e' he.2⟩
  case misshapen =>
    intro names position head args args' kind hkind hargs hlength pairs hnames s s' h
    rw [read_misshapen hkind hargs, read_misshapen hkind (hlength ▸ hargs)]
    exact .throw _ trivial
  case arrow =>
    intro names position head args args' hhead ih pairs hnames s s' h
    rw [read_arrow hhead, read_arrow hhead, ← ih.length_eq]
    by_cases hargs : args.length < 2
    · rw [if_pos hargs, if_pos hargs]
      exact .throw _ trivial
    rw [if_neg hargs, if_neg hargs]
    refine (readAll_alike (ih.imp fun x x' hx _ _ ↦ hx hnames) h).bind fun es es' t t' hes ↦ ?_
    refine .pure ⟨hes.1, alikeUnder_rules hes.2.2 fun hnil ↦ hargs ?_⟩
    rw [← hes.2.1, hnil]
    exact Nat.zero_lt_two
  case equation =>
    intro names position head args args' hhead ih pairs hnames s s' h
    rw [read_equation hhead, read_equation hhead]
    rcases ih with _ | ⟨hleft, _ | ⟨hright, _ | _⟩⟩
    · exact .throw _ trivial
    · exact .throw _ trivial
    · refine (hleft hnames h).bind fun a a' t t' ha ↦ ?_
      refine (hright hnames ha.1).bind fun b b' u u' hb ↦ .pure ?_
      exact ⟨hb.1, alikeUnder_equals ha.2 hb.2⟩
    · exact .throw _ trivial
  case application =>
    intro names position head head' args args' hhead hhead' ih pairs hnames s s' h
    rw [read_application hhead, read_application hhead']
    refine (readAll_alike (ih.imp fun x x' hx _ _ ↦ hx hnames) h).bind ?_
    exact fun es es' t t' hes ↦ .pure ⟨hes.1, alikeUnder_application hes.2.2⟩

end SExpr

/-! ### Renaming

The new name is written for every word that stands for what the old one stands for. That ends at
binders which bind the old name again. Binders which bind the new name need no care, as it is
assumed to occur nowhere.
-/

namespace SExpr

open Reading

mutual

/-- All words, in order. -/
def words : SExpr → List String
  | word text _ => [text]
  | quotation _ _ => []
  | list _ items => wordsOfAll items

/-- All words of a list of s-expressions. -/
def wordsOfAll : List SExpr → List String
  | [] => []
  | x :: rest => x.words ++ wordsOfAll rest

end

mutual

/-- Writes `new` for every word that stands for what `old` stands for around an s-expression:
neither for the words that make a list a binder, a rule or an equation, nor for those that a binder
binds, nor in its body if it binds `old` again. -/
def renamed (old new : String) : SExpr → SExpr
  | word text position => word (if text = old then new else text) position
  | quotation contents position => quotation contents position
  | list position items =>
    match items with
    | [] => list position []
    | head :: args =>
      match head.word?.bind BinderKind.ofKeyword? with
      | some _ =>
        match args with
        | [vars, body] =>
          list position [head, vars, if old ∈ vars.boundNames then body else body.renamed old new]
        | _ => list position (head :: args)
      | none =>
        if head.word? = some "->" ∨ head.word? = some "=" then
          list position (head :: renamedAll old new args)
        else list position (head.renamed old new :: renamedAll old new args)

/-- The same for every s-expression of a list. -/
def renamedAll (old new : String) : List SExpr → List SExpr
  | [] => []
  | x :: rest => x.renamed old new :: renamedAll old new rest

end

/-- The words of a list are those of its items. -/
theorem mem_words_list {position : Position} {items : List SExpr} {a : String} :
    a ∈ (list position items).words ↔ ∃ x ∈ items, a ∈ x.words := by
  rw [words]
  induction items with
  | nil => simp [wordsOfAll]
  | cons x rest ih => simp [wordsOfAll, ih]

/-- A name that is bound is a word of the list of names. -/
theorem mem_words_of_mem_boundNames {vars : SExpr} {a : String} (h : a ∈ vars.boundNames) :
    a ∈ vars.words := by
  have hitem : ∀ {x : SExpr}, x.word? = some a → a ∈ x.words := by
    intro x hx
    cases x with
    | word text position => cases hx; exact List.mem_singleton_self a
    | quotation | list => cases hx
  obtain ⟨x, hx, hword⟩ := List.mem_filterMap.1 h
  cases vars with
  | list position items => exact mem_words_list.2 ⟨x, hx, hitem hword⟩
  | word | quotation => exact List.mem_singleton.1 hx ▸ hitem hword

section Renamed

variable {old new : String} {position : Position} {head : SExpr} {args : List SExpr}

/-- Renaming goes through a list item by item. -/
theorem renamedAll_eq_map (xs : List SExpr) : renamedAll old new xs = xs.map (renamed old new) := by
  induction xs with
  | nil => rfl
  | cons x rest ih => rw [renamedAll, ih, List.map_cons]

/-- A binder of the old name ends the renaming, since its body means another variable by it. -/
theorem renamed_binder {kind : BinderKind} (hkind : head.binderKind? = some kind)
    (vars body : SExpr) : (list position [head, vars, body]).renamed old new =
      list position [head, vars, if old ∈ vars.boundNames then body else body.renamed old new] := by
  rw [renamed]
  simp only [hkind]

/-- What is no binder, although it begins like one, is left as it is and refused either way. -/
theorem renamed_misshapen {kind : BinderKind} (hkind : head.binderKind? = some kind)
    (hargs : args.length ≠ 2) :
    (list position (head :: args)).renamed old new = list position (head :: args) := by
  rw [renamed.eq_def]
  simp only [hkind]
  split
  · exact absurd rfl hargs
  · rfl

/-- The words of rules and equations are no names, so they are left. -/
theorem renamed_headed (hhead : head.word? = some "->" ∨ head.word? = some "=") :
    (list position (head :: args)).renamed old new =
      list position (head :: args.map (renamed old new)) := by
  have hkind : head.binderKind? = none := by
    rcases hhead with h | h <;> rw [binderKind?, h] <;> rfl
  rw [renamed.eq_def]
  simp only [hkind, if_pos hhead, renamedAll_eq_map]

/-- The head of an application may be the old name itself. -/
theorem renamed_application (hhead : ∀ name ∈ keywords, head.word? ≠ some name) :
    (list position (head :: args)).renamed old new =
      list position (head.renamed old new :: args.map (renamed old new)) := by
  have hword : ¬ (head.word? = some "->" ∨ head.word? = some "=") :=
    not_or.2 ⟨hhead "->" (by decide), hhead "=" (by decide)⟩
  rw [renamed.eq_def]
  simp only [binderKind?_eq_none hhead, if_neg hword, renamedAll_eq_map]

/-- A word that is no keyword does not become one. -/
theorem word?_renamed_ne_keyword (hnew : new ∉ keywords)
    (hhead : ∀ name ∈ keywords, head.word? ≠ some name) :
    ∀ name ∈ keywords, (head.renamed old new).word? ≠ some name := by
  intro name hname
  cases head with
  | word text position =>
    rw [renamed, word?]
    split
    · rintro ⟨⟩
      exact hnew hname
    · exact hhead name hname
  | quotation contents position => exact hhead name hname
  | list position items =>
    rw [renamed.eq_def]
    rcases items with _ | ⟨head, args⟩
    · rintro ⟨⟩
    dsimp only
    split
    · split <;> rintro ⟨⟩
    · split <;> rintro ⟨⟩

end Renamed

/-- An s-expression is like itself where none of its words stands for another one. -/
theorem alike_self {x : SExpr} {pairs : NamePairs} (h : ∀ a ∈ x.words, pairs.Relates a a) :
    x.Alike pairs x := by
  have hall : ∀ {xs : List SExpr} {pairs : NamePairs}, (∀ x ∈ xs, x.Alike pairs x) →
      AllAlike pairs xs xs := fun h ↦ allAlike_iff.2 (List.forall₂_same.2 h)
  induction x using formInduction generalizing pairs with
  | word text position => exact .word position (h text (List.mem_singleton_self text))
  | quotation contents position => exact .quotation pairs contents position
  | unit position => exact .unit pairs position
  | binder position head vars body kind hkind ih =>
    refine .binder position hkind rfl (List.forall₂_same.2 fun _ _ ↦ ⟨rfl, rfl⟩) (ih fun a ha ↦ ?_)
    exact NamePairs.relates_zip_self_of_self fun _ ↦ h a (mem_words_list.2 ⟨body, by simp, ha⟩)
  | misshapen position head args kind hkind hargs => exact .misshapen pairs position hkind hargs rfl
  | arrow position head args hhead ih =>
    refine .arrow position hhead (hall fun x hx ↦ ih x hx fun a ha ↦ h a ?_)
    exact mem_words_list.2 ⟨x, List.mem_cons_of_mem head hx, ha⟩
  | equation position head args hhead ih =>
    refine .equation position hhead (hall fun x hx ↦ ih x hx fun a ha ↦ h a ?_)
    exact mem_words_list.2 ⟨x, List.mem_cons_of_mem head hx, ha⟩
  | application position head args hhead ih =>
    refine .application position hhead hhead (hall fun x hx ↦ ih x hx fun a ha ↦ h a ?_)
    exact mem_words_list.2 ⟨x, hx, ha⟩

/-- An s-expression is like the one with a new word for an old one where the new word stands for the
old one, and every other word for itself. -/
theorem alike_renamed {x : SExpr} {old new : String} (hkeyword : new ∉ keywords)
    {pairs : NamePairs} (hold : pairs.Relates old new) (hnew : new ∉ x.words)
    (h : ∀ a ∈ x.words, a ≠ old → pairs.Relates a a) : x.Alike pairs (x.renamed old new) := by
  have hall : ∀ {xs : List SExpr} {pairs : NamePairs},
      (∀ x ∈ xs, x.Alike pairs (x.renamed old new)) →
        AllAlike pairs xs (xs.map (renamed old new)) := by
    intro xs pairs h
    exact allAlike_iff.2 (List.forall₂_map_right_iff.2 (List.forall₂_same.2 h))
  induction x using formInduction generalizing pairs with
  | word text position =>
    rw [renamed]
    refine .word position ?_
    split
    · rename_i htext
      exact htext ▸ hold
    · exact h text (List.mem_singleton_self text) ‹_›
  | quotation contents position => exact .quotation pairs contents position
  | unit position => exact .unit pairs position
  | binder position head vars body kind hkind ih =>
    have hbody : ∀ a ∈ body.words, a ∈ (list position [head, vars, body]).words :=
      fun a ha ↦ mem_words_list.2 ⟨body, by simp, ha⟩
    rw [renamed_binder hkind]
    refine .binder position hkind rfl (List.forall₂_same.2 fun _ _ ↦ ⟨rfl, rfl⟩) ?_
    split
    -- The binder hides the old name, and its body is left as it is.
    · rename_i hbound
      refine alike_self fun a ha ↦ NamePairs.relates_zip_self_of_self fun hfree ↦ ?_
      exact h a (hbody a ha) fun heq ↦ hfree (heq ▸ hbound)
    · rename_i hfree
      have hvars : new ∉ vars.boundNames := fun hmem ↦
        hnew (mem_words_list.2 ⟨vars, by simp, mem_words_of_mem_boundNames hmem⟩)
      refine ih (NamePairs.relates_zip_self.2 (.inr ⟨hfree, hvars, hold⟩))
        (fun hmem ↦ hnew (hbody new hmem)) fun a ha hne ↦ ?_
      exact NamePairs.relates_zip_self_of_self fun _ ↦ h a (hbody a ha) hne
  | misshapen position head args kind hkind hargs =>
    rw [renamed_misshapen hkind hargs]
    exact .misshapen pairs position hkind hargs rfl
  | arrow position head args hhead ih =>
    rw [renamed_headed (.inl hhead)]
    have hargs : ∀ x ∈ args, ∀ a ∈ x.words, a ∈ (list position (head :: args)).words :=
      fun x hx a ha ↦ mem_words_list.2 ⟨x, List.mem_cons_of_mem head hx, ha⟩
    exact .arrow position hhead (hall fun x hx ↦ ih x hx hold (fun ha ↦ hnew (hargs x hx new ha))
      fun a ha ↦ h a (hargs x hx a ha))
  | equation position head args hhead ih =>
    rw [renamed_headed (.inr hhead)]
    have hargs : ∀ x ∈ args, ∀ a ∈ x.words, a ∈ (list position (head :: args)).words :=
      fun x hx a ha ↦ mem_words_list.2 ⟨x, List.mem_cons_of_mem head hx, ha⟩
    exact .equation position hhead (hall fun x hx ↦ ih x hx hold (fun ha ↦ hnew (hargs x hx new ha))
      fun a ha ↦ h a (hargs x hx a ha))
  | application position head args hhead ih =>
    rw [renamed_application hhead]
    have hitems : ∀ x ∈ head :: args, ∀ a ∈ x.words, a ∈ (list position (head :: args)).words :=
      fun x hx a ha ↦ mem_words_list.2 ⟨x, hx, ha⟩
    have halike : AllAlike pairs (head :: args) ((head :: args).map (renamed old new)) :=
      hall fun x hx ↦ ih x hx hold (fun ha ↦ hnew (hitems x hx new ha))
        fun a ha ↦ h a (hitems x hx a ha)
    exact .application position hhead (word?_renamed_ne_keyword hkeyword hhead) halike

/-- Whether the list of one binder is that of another one with `new` for one of its names. Behind
the name are the names `later`. -/
inductive RenamesName (old new : String) : List SExpr → SExpr → SExpr → Prop
  | single (position : Position) : RenamesName old new [] (word old position) (word new position)
  | listed (before later : List SExpr) (position place : Position) :
    RenamesName old new later (list position (before ++ word old place :: later))
      (list position (before ++ word new place :: later))

/-- Whether an item stands where a binder has its variables. -/
def IsBound (before after : List SExpr) : Prop :=
  ∃ head body, before = [head] ∧ after = [body] ∧ head.binderKind?.isSome

/-- Whether one variable of one binder is given the name `new`, in its list and wherever it is
meant. If the name is bound again in the same list, the body does not mean this variable. -/
inductive RenamesBinder (new : String) : SExpr → SExpr → Prop
  | here (position : Position) {head vars vars' body : SExpr} {old : String} {later : List SExpr}
    (hhead : head.binderKind?.isSome) (hvars : RenamesName old new later vars vars') :
    RenamesBinder new (list position [head, vars, body])
      (list position [head, vars',
        if old ∈ later.filterMap word? then body else body.renamed old new])
  | item (position : Position) {before after : List SExpr} {x x' : SExpr}
    (hplace : ¬ IsBound before after) (h : RenamesBinder new x x') :
    RenamesBinder new (list position (before ++ x :: after)) (list position (before ++ x' :: after))

/-- The list of a binder with a new name, and the pairs that come of it. -/
theorem RenamesName.names {old new : String} {later : List SExpr} {vars vars' : SExpr}
    (h : RenamesName old new later vars vars') : vars'.position = vars.position ∧
      List.Forall₂ NamesAlike (binderNames vars) (binderNames vars') ∧
      ∃ before, vars.boundNames = before ++ old :: later.filterMap word? ∧
        vars'.boundNames = before ++ new :: later.filterMap word? := by
  have hsame : ∀ xs, List.Forall₂ NamesAlike xs xs :=
    fun _ ↦ List.forall₂_same.2 fun _ _ ↦ ⟨rfl, rfl⟩
  cases h with
  | single position => exact ⟨rfl, .cons ⟨rfl, rfl⟩ .nil, [], rfl, rfl⟩
  | listed before later position place =>
    refine ⟨rfl, List.rel_append (hsame before) (.cons ⟨rfl, rfl⟩ (hsame later)),
      before.filterMap word?, ?_, ?_⟩
    · simp [boundNames, binderNames, List.filterMap_append, word?]
    · simp [boundNames, binderNames, List.filterMap_append, word?]

/-- Neither a binder nor what it is in is a word. -/
theorem RenamesBinder.word?_eq_none {new : String} {x x' : SExpr} (h : RenamesBinder new x x') :
    x.word? = none ∧ x'.word? = none := by
  cases h <;> exact ⟨rfl, rfl⟩

/-- **A renamed binder is like the one that it was.** -/
theorem RenamesBinder.alike {x x' : SExpr} {new : String} (hrenames : RenamesBinder new x x')
    (hkeyword : new ∉ keywords) (hnew : new ∉ x.words) {pairs : NamePairs}
    (h : ∀ a ∈ x.words, pairs.Relates a a) : x.Alike pairs x' := by
  induction hrenames generalizing pairs with
  | @here position head vars vars' body old later hhead hvars =>
    obtain ⟨kind, hkind⟩ := Option.isSome_iff_exists.1 hhead
    obtain ⟨hposition, hitems, before, hnames, hnames'⟩ := hvars.names
    have hbody : ∀ a ∈ body.words, a ∈ (list position [head, vars, body]).words :=
      fun a ha ↦ mem_words_list.2 ⟨body, by simp, ha⟩
    have hbound : new ∉ before ∧ new ∉ later.filterMap word? := by
      have hvars : new ∉ vars.boundNames := fun hmem ↦
        hnew (mem_words_list.2 ⟨vars, by simp, mem_words_of_mem_boundNames hmem⟩)
      rw [hnames, List.mem_append, List.mem_cons] at hvars
      grind
    -- Around the body stand the later names, the pair of the old name and the new one, and the
    -- names before it.
    have hpairs : (vars.boundNames.zip vars'.boundNames).reverse ++ pairs =
        ((later.filterMap word?).zip (later.filterMap word?)).reverse ++
          (old, new) :: ((before.zip before).reverse ++ pairs) := by
      rw [hnames, hnames', List.zip_append rfl]
      simp
    refine .binder position hkind hposition hitems ?_
    rw [hpairs]
    have hself : ∀ a ∈ body.words, a ≠ old ∨ a ∈ later.filterMap word? →
        NamePairs.Relates (((later.filterMap word?).zip (later.filterMap word?)).reverse ++
          (old, new) :: ((before.zip before).reverse ++ pairs)) a a := by
      intro a ha hne
      refine NamePairs.relates_zip_self_of_self fun hlater ↦ ?_
      refine NamePairs.relates_cons.2 (.inr ⟨hne.resolve_right hlater, ?_, ?_⟩)
      · rintro rfl
        exact hnew (hbody _ ha)
      · exact NamePairs.relates_zip_self_of_self fun _ ↦ h a (hbody a ha)
    split
    · rename_i hlater
      refine alike_self fun a ha ↦ hself a ha ?_
      by_cases heq : a = old
      · exact .inr (heq ▸ hlater)
      · exact .inl heq
    · rename_i hlater
      refine alike_renamed hkeyword ?_ (fun ha ↦ hnew (hbody new ha)) fun a ha hne ↦
        hself a ha (.inl hne)
      exact NamePairs.relates_zip_self.2
        (.inr ⟨hlater, hbound.2, NamePairs.relates_cons.2 (.inl ⟨rfl, rfl⟩)⟩)
  | @item position before after x x' hplace hrenames ih =>
    have hself : ∀ y ∈ before ++ x :: after, y.Alike pairs y := fun y hy ↦
      alike_self fun a ha ↦ h a (mem_words_list.2 ⟨y, hy, ha⟩)
    have hx : ∀ {pairs : NamePairs}, (∀ a ∈ x.words, pairs.Relates a a) → x.Alike pairs x' :=
      fun h ↦ ih (fun ha ↦ hnew (mem_words_list.2 ⟨x, by simp, ha⟩)) h
    have hitem : x.Alike pairs x' := hx fun a ha ↦ h a (mem_words_list.2 ⟨x, by simp, ha⟩)
    have hsame : ∀ {xs : List SExpr}, (∀ y ∈ xs, y ∈ before ++ x :: after) →
        List.Forall₂ (Alike pairs) xs xs := fun hxs ↦
      List.forall₂_same.2 fun y hy ↦ hself y (hxs y hy)
    have hitems : List.Forall₂ (Alike pairs) (before ++ x :: after) (before ++ x' :: after) :=
      List.rel_append (hsame (by simp +contextual)) (.cons hitem (hsame (by simp +contextual)))
    rcases before with _ | ⟨head, before⟩
    · obtain ⟨hword, hword'⟩ := hrenames.word?_eq_none
      exact .application position (by simp [hword]) (by simp [hword']) (allAlike_iff.2 hitems)
    obtain ⟨-, hargs⟩ := List.forall₂_cons.1 hitems
    rcases keyword_cases head with ⟨kind, hkind⟩ | hhead | hhead | hhead
    · match before, after with
      | [], [body] =>
        exact absurd ⟨head, body, rfl, rfl, by rw [hkind]; rfl⟩ hplace
      | [vars], [] =>
        refine .binder position hkind rfl (List.forall₂_same.2 fun _ _ ↦ ⟨rfl, rfl⟩) ?_
        exact hx fun a ha ↦ NamePairs.relates_zip_self_of_self fun _ ↦
          h a (mem_words_list.2 ⟨x, by simp, ha⟩)
      | [], [] | [], _ :: _ :: _ | [_], _ :: _ | _ :: _ :: _, _ =>
        exact .misshapen pairs position hkind (by simp) (by simp)
    · exact .arrow position hhead (allAlike_iff.2 hargs)
    · exact .equation position hhead (allAlike_iff.2 hargs)
    · exact .application position hhead hhead (allAlike_iff.2 hitems)

/-! ### The theorem -/

/-- **Reading is hygienic.** If a variable of a binder is given a name that no word of an
s-expression is yet, and that is no keyword, then what is read, in any scope, is the same up to the
names of bound variables, wherever the counters stand; and if it cannot be read, that is for the
same fault in the same place. What is read has free variables of the scope only, and its binders
bind variables of their own, all of them new. A reader that keeps the names on a stack reads the
same, and leaves the stack as it was in either case. -/
theorem read_hygienic (scope : Scope) (x : SExpr) (s : ReadState) :
    (∀ (new : String) (x' : SExpr) (s' : ReadState), RenamesBinder new x x' → new ∉ x.words →
      new ∉ keywords → (s' = s ∨ scope.Below s.next ∧ scope.Below s'.next) →
      match ((x.read scope).run.run s).1, ((x'.read scope).run.run s').1 with
      | .ok e, .ok e' => e.hasHoles = false → e.alphaEq e' = true
      | .error fault, .error fault' => fault' = fault
      | _, _ => False) ∧
    (∀ e, ((x.read scope).run.run s).1 = .ok e →
      (∀ v ∈ e.freeVariables, v ∈ scope.variables) ∧ (e.binderVariables.map (·.id)).Nodup ∧
        ∀ v ∈ e.binderVariables, s.next ≤ v.id) ∧
    x.convert.run.run ⟨scope, s⟩ =
      (((x.read scope).run.run s).1, ⟨scope, ((x.read scope).run.run s).2⟩) := by
  refine ⟨fun new x' s' hrenames hnew hkeyword hcounters ↦ ?_, fun e he ↦ ?_,
    mirrors_iff.1 x.convert_mirrors⟩
  · have halike : x.Alike [] x' := hrenames.alike hkeyword hnew fun a _ ↦ rfl
    have hread : ReadAlike scope [] (x.read scope) (x'.read scope) s s' :=
      halike.read rfl (.nil hcounters)
    rw [ReadAlike, Parallel] at hread
    revert hread
    rcases (x.read scope).run.run s with ⟨⟨fault⟩ | ⟨e⟩, t⟩ <;>
      rcases (x'.read scope).run.run s' with ⟨⟨fault'⟩ | ⟨e'⟩, t'⟩ <;> intro hread
    · exact hread.1
    · exact hread
    · exact hread
    · exact hread.2
  · have hreads : Reads (x.read scope) s fun e t ↦ e.DrawnIn scope s.next t.next := x.read_draws
    have hdrawn := hreads.2 e he
    exact ⟨fun v hv ↦ hdrawn.known v (Expression.mem_unbound_of_mem_freeVariables hv),
      hdrawn.distinct, fun v hv ↦ (hdrawn.new v hv).1⟩

/-- A name that is bound twice, then a third time, next to a name of the scope. -/
theorem read_hygienic_repeated_name :
    let name (text : String) : SExpr := word text .start
    let inner := form "forall" [name "x", name "x"]
    let lambda :=
      form "lambda" [list .start [name "x", name "x"], form "f" [name "x", inner, name "y"]]
    let lambda' :=
      form "lambda" [list .start [name "x", name "z"], form "f" [name "z", inner, name "y"]]
    let x := form "g" [lambda]
    let x' := form "g" [lambda']
    let scope : Scope := [("y", ⟨"y", 3⟩)]
    let e := ((x.read scope).run.run ⟨[], 5⟩).1.toOption.getD default
    let e' := ((x'.read scope).run.run ⟨[], 9⟩).1.toOption.getD default
    RenamesBinder "z" x x' ∧ "z" ∉ x.words ∧ "z" ∉ keywords ∧ scope.Below 5 ∧ scope.Below 9 ∧
      ((x.read scope).run.run ⟨[], 5⟩).1 = .ok e ∧ ((x'.read scope).run.run ⟨[], 9⟩).1 = .ok e' ∧
      e.print = "(g (lambda (x_5) (lambda (x_6) (f x_6 (forall (x_7) x_7) y_3))))" ∧
      e'.print = "(g (lambda (x_9) (lambda (z_10) (f z_10 (forall (x_11) x_11) y_3))))" ∧
      e.alphaEq e' = true ∧ (∀ v ∈ e.freeVariables, v ∈ scope.variables) := by
  intro name inner lambda lambda' x x' scope e e'
  have hrenames : RenamesBinder "z" x x' := by
    have hlambda : RenamesBinder "z" lambda lambda' :=
      .here .start rfl (.listed [name "x"] [] .start .start)
    have hplace : ¬ IsBound [name "g"] [] := by
      rintro ⟨head, body, -, hafter, -⟩
      cases hafter
    exact .item .start hplace hlambda
  have hwords : "z" ∉ x.words := by decide
  have hread : ((x.read scope).run.run ⟨[], 5⟩).1 = .ok e :=
    congrArg Prod.fst (Expression.eq_ok_of_isSome (r := (x.read scope).run.run ⟨[], 5⟩)
      (by decide +kernel))
  have hread' : ((x'.read scope).run.run ⟨[], 9⟩).1 = .ok e' :=
    congrArg Prod.fst (Expression.eq_ok_of_isSome (r := (x'.read scope).run.run ⟨[], 9⟩)
      (by decide +kernel))
  have hscope : ∀ n, 3 < n → scope.Below n := fun n hn ↦ List.forall_mem_singleton.2 hn
  have hhygienic := read_hygienic scope x ⟨[], 5⟩
  have halpha := hhygienic.1 "z" x' ⟨[], 9⟩ hrenames hwords (by decide)
    (.inr ⟨hscope 5 (by decide), hscope 9 (by decide)⟩)
  rw [hread, hread'] at halpha
  exact ⟨hrenames, hwords, by decide, hscope 5 (by decide), hscope 9 (by decide), hread, hread',
    by decide +kernel, by decide +kernel, halpha (by decide +kernel), (hhygienic.2.1 e hread).1⟩

end SExpr

end NaturalDeduction
