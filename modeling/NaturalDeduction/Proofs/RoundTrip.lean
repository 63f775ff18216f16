import NaturalDeduction.Expression.Alpha
import NaturalDeduction.Proofs.Legibility

/-!
# Reading back what was printed

What is printed for an expression that was read is read as the same expression, up to the names of
bound variables (`Expression.reads_back`). It does not matter where the lines are broken, nor which
variables are drawn the first and the second time.

The first reading has drawn a variable for each binder, and what is printed in its place is its
text: hint, underscore, number. The second reading draws another variable under that name. So the
two readings are compared under a list of pairs, as equality up to bound names is: an occurrence of
the old variable is printed as its text, the scope of the second reading knows the text as the new
variable, and the pairs relate the two (`Pairing.exists_lookup?`). Texts tell variables apart by
their numbers, and the numbers around an occurrence are all different, so no binder hides another.

A symbol is looked up as well, and must not be taken for a variable. That is where a symbol that
looks like the text of a bound variable would be misread.

Main definitions and statements:

* `Pairing.Renames`: the pairs of a reading under which no number occurs twice.
* `Expression.ReadsAs`: an s-expression is read as an expression under all such pairs.
* `Expression.readsAs_of_spells`: by induction on the spelling, every s-expression that spells an
  expression is read as it.
* `Expression.reads_back`: for what was read from a text and printed.
-/

namespace NaturalDeduction

open Scanner

/-! ### Readings that succeed -/

/-- Whether a reading succeeds with a result that satisfies `post`, and moves the counter only
forwards. -/
def Completes {α : Type} (act : Reading α) (s : ReadState) (post : α → ReadState → Prop) : Prop :=
  ∃ a t, act.run.run s = (.ok a, t) ∧ s.next ≤ t.next ∧ post a t

namespace Completes

variable {α β : Type} {s : ReadState} {post : α → ReadState → Prop}

theorem pure {a : α} (h : post a s) : Completes (Pure.pure a) s post :=
  ⟨a, s, rfl, Nat.le_refl _, h⟩

/-- Readings that complete follow each other. -/
theorem bind {act : Reading α} {next : α → Reading β} {post' : β → ReadState → Prop}
    (h : Completes act s post)
    (hnext : ∀ a t, s.next ≤ t.next → post a t → Completes (next a) t post') :
    Completes (act >>= next) s post' := by
  obtain ⟨a, t, hrun, hle, hpost⟩ := h
  obtain ⟨b, u, hrun', hle', hpost'⟩ := hnext a t hle hpost
  exact ⟨b, u, (run_bind_ok hrun).trans hrun', Nat.le_trans hle hle', hpost'⟩

/-- A draw completes with the number of the counter. -/
theorem fresh (hint : String) :
    Completes (Reading.fresh hint) s fun v t ↦ v = ⟨hint, s.next⟩ ∧ t.next = s.next + 1 :=
  ⟨_, _, rfl, Nat.le_succ _, rfl, rfl⟩

end Completes

/-! ### New names for old

The pairs list the variables of the second reading with those of the first that they stand for, the
innermost first. As a scope they map the text of the old variable to the new one.
-/

namespace Pairing

/-- The scope in which the text of each second variable stands for the first. -/
def scope (pairs : Pairing) : Scope := pairs.map fun p ↦ (p.2.text, p.1)

/-- The second variables. -/
def olds (pairs : Pairing) : List Variable := pairs.map (·.2)

/-- Whether pairs give new names to variables: no number occurs twice on either side, and the first
variables are numbered below `n`. -/
structure Renames (n : Nat) (pairs : Pairing) : Prop where
  below : ∀ p ∈ pairs, p.1.id < n
  new : pairs.Pairwise fun p q ↦ p.1.id ≠ q.1.id
  old : pairs.Pairwise fun p q ↦ p.2.id ≠ q.2.id

variable {n m : Nat} {pairs : Pairing}

/-- The new variables stay below a counter that moves on. -/
theorem Renames.mono (h : pairs.Renames n) (hnm : n ≤ m) : pairs.Renames m :=
  ⟨fun p hp ↦ Nat.lt_of_lt_of_le (h.below p hp) hnm, h.new, h.old⟩

/-- Nothing is renamed outside all binders. -/
theorem renames_nil : Renames n [] := ⟨nofun, .nil, .nil⟩

/-- A binder adds its old variable, whose number none around it has, and the new one that was drawn
for it. -/
theorem Renames.cons (h : pairs.Renames n) {v : Variable} (hv : ∀ w ∈ pairs.olds, w.id ≠ v.id)
    (hint : String) : Renames (n + 1) ((⟨hint, n⟩, v) :: pairs) := by
  refine ⟨List.forall_mem_cons.2 ⟨Nat.lt_succ_self n, (h.mono (Nat.le_succ n)).below⟩, ?_, ?_⟩
  · exact List.pairwise_cons.2 ⟨fun p hp ↦ (Nat.ne_of_lt (h.below p hp)).symm, h.new⟩
  · exact List.pairwise_cons.2 ⟨fun p hp ↦ (hv p.2 (List.mem_map_of_mem hp)).symm, h.old⟩

/-- The text of an old variable stands for the new one. -/
theorem exists_lookup? (hnew : pairs.Pairwise fun p q ↦ p.1.id ≠ q.1.id)
    (hold : pairs.Pairwise fun p q ↦ p.2.id ≠ q.2.id) {v : Variable} (hv : v ∈ pairs.olds) :
    ∃ p ∈ pairs, pairs.scope.lookup? v.text = some p.1 ∧ pairs.relates p.1 v = true := by
  induction pairs with
  | nil => cases hv
  | cons q outer ih =>
    obtain ⟨hnewHead, hnewOuter⟩ := List.pairwise_cons.1 hnew
    obtain ⟨holdHead, holdOuter⟩ := List.pairwise_cons.1 hold
    rcases List.mem_cons.1 hv with rfl | hv
    · refine ⟨q, List.mem_cons_self, ?_, relates_cons_iff.2 (.inl ⟨rfl, rfl⟩)⟩
      simp [scope, Scope.lookup?]
    · obtain ⟨p, hp, hlookup, hrelates⟩ := ih hnewOuter holdOuter hv
      obtain ⟨r, hr, rfl⟩ := List.mem_map.1 hv
      have hne : q.2.id ≠ r.2.id := holdHead r hr
      have htext : q.2.text ≠ r.2.text := fun h ↦ hne (Variable.id_eq_of_text_eq h)
      refine ⟨p, List.mem_cons_of_mem q hp, ?_,
        relates_cons_iff.2 (.inr ⟨hnewHead p hp, hne, hrelates⟩)⟩
      rw [← hlookup]
      simp [scope, Scope.lookup?, htext]

/-- A word that is the text of no old variable stands for none. -/
theorem lookup?_eq_none {word : String} (h : ∀ v ∈ pairs.olds, word ≠ v.text) :
    pairs.scope.lookup? word = none := by
  rw [Scope.lookup?, Option.map_eq_none_iff, List.find?_eq_none]
  intro p hp hword
  obtain ⟨q, hq, rfl⟩ := List.mem_map.1 hp
  exact h q.2 (List.mem_map_of_mem hq) (beq_iff_eq.1 hword).symm

end Pairing

/-! ### Reading an atom -/

namespace Reading

variable {scope : Scope} {text : String}

/-- A word that the scope knows is that variable. -/
theorem word_eq_var {v : Variable} (h : scope.lookup? text = some v) (position : Position) :
    word scope text position = Pure.pure (Expression.var v) := by
  rw [word, h]

/-- A word that the scope does not know is an atom, unless it is a hole. -/
theorem word_eq_ofWord (h : scope.lookup? text = none) (hhole : text.toList.head? ≠ some '?')
    (position : Position) :
    word scope text position = Pure.pure (Expression.atom (Atom.ofWord text)) := by
  rw [word, h]
  dsimp only
  split
  · exact absurd (by rw [‹text.toList = _›]; rfl) hhole
  · exact absurd (by rw [‹text.toList = _›]; rfl) hhole
  · rfl

end Reading

/-- A number does not look like a variable or a hole. -/
theorem not_isNumeral {c : Char} (h : c = '_' ∨ c = '?') : ¬ Number.IsNumeral c := by
  rcases h with rfl | rfl <;> simp [Number.IsNumeral]

namespace Expression

open Reading

/-- Whether the first expression is the second with the old names of the pairs replaced. -/
def SameUnder (pairs : Pairing) (e' e : Expression) : Prop := equalUnder .none pairs e' e = true

variable {pairs : Pairing} {T : Variable → Prop} {s : ReadState}

/-- What is not a string is read as a word. -/
theorem read_spelling {a : Atom} (h : ∀ contents, a ≠ .text contents) (scope : Scope) :
    a.spelling.read scope = word scope a.print .start := by
  rw [Atom.spelling, SExpr.read]
  exact h

/-- An atom is read back: a variable as the one that it is renamed to, and anything else as itself.
-/
theorem read_atom {a : Atom} (horderly : (atom a).Orderly pairs.olds) (hplain : a.Plain T)
    (hT : ∀ v ∈ pairs.olds, T v) (hpairs : pairs.Renames s.next) :
    Completes (a.spelling.read pairs.scope) s fun e' _ ↦ SameUnder pairs e' (.atom a) := by
  cases horderly with
  | symbol hword hname hhole =>
    rename_i name
    have hlookup := Pairing.lookup?_eq_none fun v hv ↦ hplain v (hT v hv)
    rw [read_spelling (by simp), Atom.print, word_eq_ofWord hlookup hhole, hname]
    exact .pure (by simp [SameUnder, equalUnder, Atom.same])
  | text bound contents =>
    rw [Atom.spelling, SExpr.read]
    exact .pure (by simp [SameUnder, equalUnder, Expression.text, Atom.same])
  | number bound q =>
    have hchars : ∀ c ∈ (Number.canonical q).toList, Number.IsNumeral c := fun c hc ↦ by
      rw [Number.canonical, String.toList_ofList] at hc
      exact Number.isNumeral_of_mem_canonicalChars hc
    have hlookup : pairs.scope.lookup? (Number.canonical q) = none :=
      Pairing.lookup?_eq_none fun v _ h ↦
        not_isNumeral (.inl rfl) (hchars '_' (h ▸ v.underscore_mem_text))
    have hhole : (Number.canonical q).toList.head? ≠ some '?' := fun h ↦
      not_isNumeral (.inr rfl) (hchars '?' (List.mem_of_head? h))
    rw [read_spelling (by simp), Atom.print, word_eq_ofWord hlookup hhole, Atom.ofWord_canonical]
    exact .pure (by simp [SameUnder, equalUnder, Atom.same])
  | hole bound v => exact hplain.elim
  | var hv =>
    obtain ⟨p, -, hlookup, hrelates⟩ := Pairing.exists_lookup? hpairs.new hpairs.old hv
    rw [read_spelling (by simp), Atom.print, word_eq_var hlookup]
    refine .pure ?_
    rw [SameUnder, Expression.var, equalUnder]
    exact hrelates

end Expression

/-! ### Reading lists -/

namespace SExpr

open Reading

variable {scope : Scope} {xs : List SExpr}

/-- A spelled binder is read as the list of its names and its body. -/
theorem read_binders (kind : BinderKind) {vs : List Variable} (hne : vs ≠ []) (x : SExpr) :
    (form kind.keyword [names vs, x]).read scope = (do
      let (inner, ws) ← bindNames scope (vs.map fun v ↦ word v.text .start)
      return .binders kind ws (← x.read inner)) := by
  have hempty : (vs.map fun v ↦ word v.text .start).isEmpty = false := by
    rw [List.isEmpty_map, List.isEmpty_eq_false_iff]
    exact hne
  have hkind : (word kind.keyword .start).binderKind? = some kind :=
    BinderKind.ofKeyword?_keyword kind
  rw [form, read_binder hkind, names, binderNames, hempty]
  rfl

theorem read_rules (h : 2 ≤ xs.length) :
    (form "->" xs).read scope = (do
      let parts ← readAll scope xs
      return .rules parts.dropLast (parts.getLastD default)) := by
  rw [form, read_arrow rfl, if_neg (Nat.not_lt.2 h)]

end SExpr

namespace Expression

variable {pairs : Pairing} {T : Variable → Prop} {s : ReadState}

theorem sameUnder_implies {a b c d : Expression} :
    SameUnder pairs (implies a b) (implies c d) ↔ SameUnder pairs a c ∧ SameUnder pairs b d := by
  rw [SameUnder, equalUnder, Bool.and_eq_true]
  rfl

theorem sameUnder_equals {a b c d : Expression} :
    SameUnder pairs (equals a b) (equals c d) ↔ SameUnder pairs a c ∧ SameUnder pairs b d := by
  rw [SameUnder, equalUnder_none_equals, Bool.and_eq_true]
  rfl

/-- Binders add their pair. -/
theorem sameUnder_binder {kind : BinderKind} {v w : Variable} {a b : Expression} :
    SameUnder pairs (binder kind v a) (binder kind w b) ↔ SameUnder ((v, w) :: pairs) a b := by
  rw [SameUnder, equalUnder, beq_self_eq_true, Bool.true_and]
  rfl

theorem sameUnder_application {as bs : List Expression} (h : List.Forall₂ (SameUnder pairs) as bs) :
    SameUnder pairs (application as) (application bs) := by
  rw [SameUnder, equalUnder_none_application]
  induction h with
  | nil => rfl
  | cons h _ ih =>
    rw [equalAllUnder, Bool.and_eq_true]
    exact ⟨h, ih⟩

theorem sameUnder_rules {as bs : List Expression} (h : List.Forall₂ (SameUnder pairs) as bs)
    (hne : bs ≠ []) : SameUnder pairs (rules as.dropLast (as.getLastD default))
      (rules bs.dropLast (bs.getLastD default)) := by
  induction h with
  | nil => exact absurd rfl hne
  | cons h hrest ih =>
    rename_i as bs
    cases hrest with
    | nil => exact h
    | cons h' hrest' =>
      rw [rules_cons_parts _ (List.cons_ne_nil _ _), rules_cons_parts _ (List.cons_ne_nil _ _)]
      exact sameUnder_implies.2 ⟨h, ih (List.cons_ne_nil _ _)⟩

/-- The binders of the second reading are paired with those of the first. -/
theorem bindNames_completes (kind : BinderKind) (e : Expression) {vs : List Variable}
    (horderly : (binders kind vs e).Orderly pairs.olds) (hpairs : pairs.Renames s.next) :
    Completes (Reading.bindNames pairs.scope (vs.map fun v ↦ .word v.text .start)) s fun p t ↦
      ∃ inner : Pairing, p.1 = inner.scope ∧ inner.Renames t.next ∧ e.Orderly inner.olds ∧
        (∀ v ∈ inner.olds, v ∈ vs ∨ v ∈ pairs.olds) ∧
        ∀ e', SameUnder inner e' e → SameUnder pairs (binders kind p.2 e') (binders kind vs e) := by
  induction vs generalizing pairs s with
  | nil => exact .pure ⟨pairs, rfl, hpairs, horderly, fun v hv ↦ .inr hv, fun e' he' ↦ he'⟩
  | cons v rest ih =>
    cases horderly with
    | binder kind hword hnew hbody =>
      refine (Completes.fresh v.text).bind fun w t hle hw ↦ ?_
      obtain ⟨rfl, hnext⟩ := hw
      have hcons : Pairing.Renames t.next ((⟨v.text, s.next⟩, v) :: pairs) := by
        rw [hnext]
        exact hpairs.cons hnew v.text
      have hrest : (binders kind rest e).Orderly (Pairing.olds ((⟨v.text, s.next⟩, v) :: pairs)) :=
        hbody
      refine (ih hrest hcons).bind fun p u _ hp ↦ .pure ?_
      obtain ⟨inner, hscope, hinner, he, holds, hsame⟩ := hp
      refine ⟨inner, hscope, hinner, he, fun x hx ↦ ?_, fun e' he' ↦ ?_⟩
      · rcases holds x hx with hx | hx
        · exact .inl (List.mem_cons_of_mem v hx)
        · rcases List.mem_cons.1 hx with rfl | hx
          · exact .inl List.mem_cons_self
          · exact .inr hx
      · exact sameUnder_binder.2 (hsame e' he')

/-- Whether an s-expression is read as an expression wherever the expression makes sense, with new
names for its variables. -/
def ReadsAs (T : Variable → Prop) (x : SExpr) (e : Expression) : Prop :=
  ∀ {pairs : Pairing} {s : ReadState}, e.Orderly pairs.olds → e.MadeOf (Atom.Plain T) T →
    (∀ v ∈ pairs.olds, T v) → pairs.Renames s.next →
      Completes (x.read pairs.scope) s fun e' _ ↦ SameUnder pairs e' e

/-- Items are read in turn. All have the scope of the list, and each only moves the counter on. -/
theorem readAll_completes {xs : List SExpr} {es : List Expression}
    (h : List.Forall₂ (ReadsAs T) xs es) (horderly : ∀ e ∈ es, e.Orderly pairs.olds)
    (hplain : ∀ e ∈ es, e.MadeOf (Atom.Plain T) T) (hT : ∀ v ∈ pairs.olds, T v)
    (hpairs : pairs.Renames s.next) :
    Completes (SExpr.readAll pairs.scope xs) s fun es' _ ↦
      List.Forall₂ (SameUnder pairs) es' es := by
  induction h generalizing s with
  | nil =>
    rw [SExpr.readAll]
    exact .pure .nil
  | cons h _ ih =>
    obtain ⟨he, hes⟩ := List.forall_mem_cons.1 horderly
    obtain ⟨hp, hps⟩ := List.forall_mem_cons.1 hplain
    rw [SExpr.readAll]
    refine (h he hp hT hpairs).bind fun a t hle ha ↦ ?_
    exact (ih hes hps (hpairs.mono hle)).bind fun as u _ has ↦ .pure (.cons ha has)

/-- What is read back part by part is read back as a whole. -/
theorem readsAs_binders {kind : BinderKind} {vs : List Variable} {x : SExpr} {e : Expression}
    (hne : vs ≠ []) (h : ReadsAs T x e) :
    ReadsAs T (.form kind.keyword [.names vs, x]) (.binders kind vs e) := by
  intro pairs s horderly hplain hT hpairs
  obtain ⟨hvs, he⟩ := madeOf_binders.1 hplain
  rw [SExpr.read_binders kind hne]
  refine (bindNames_completes kind e horderly hpairs).bind fun p t _ hp ↦ ?_
  obtain ⟨scope, ws⟩ := p
  obtain ⟨inner, rfl, hinner, horderly, holds, hsame⟩ := hp
  have hTinner : ∀ v ∈ inner.olds, T v := fun v hv ↦ (holds v hv).elim (hvs v) (hT v)
  exact (h horderly he hTinner hinner).bind fun e' u _ he' ↦ .pure (hsame e' he')

theorem readsAs_rules {xs : List SExpr} {parts : List Expression} (hlength : 2 ≤ parts.length)
    (h : List.Forall₂ (ReadsAs T) xs parts) :
    ReadsAs T (.form "->" xs) (.rules parts.dropLast (parts.getLastD default)) := by
  intro pairs s horderly hplain hT hpairs
  have hne : parts ≠ [] := List.length_pos_iff.1 (by omega)
  rw [SExpr.read_rules (h.length_eq ▸ hlength)]
  have hall := readAll_completes h ((forall_parts_iff (fun _ _ ↦ orderly_implies) hne).1 horderly)
    ((forall_parts_iff (fun _ _ ↦ madeOf_implies) hne).1 hplain) hT hpairs
  exact hall.bind fun es' t _ hes ↦ .pure (sameUnder_rules hes hne)

theorem readsAs_equals {x y : SExpr} {a b : Expression} (hx : ReadsAs T x a) (hy : ReadsAs T y b) :
    ReadsAs T (.form "=" [x, y]) (.equals a b) := by
  intro pairs s horderly hplain hT hpairs
  obtain ⟨ha, hb⟩ := madeOf_equals.1 hplain
  cases horderly with
  | equals horderlyLeft horderlyRight =>
    rw [SExpr.form, SExpr.read_equation rfl]
    refine (hx horderlyLeft ha hT hpairs).bind fun a' t hle ha' ↦ ?_
    refine (hy horderlyRight hb hT (hpairs.mono hle)).bind fun b' u _ hb' ↦ ?_
    exact .pure (sameUnder_equals.2 ⟨ha', hb'⟩)

/-- The first item of an application must not be a word of another form. -/
theorem readsAs_application {xs : List SExpr} {es : List Expression}
    (h : List.Forall₂ (fun x e ↦ x.Spells e ∧ ReadsAs T x e) xs es) :
    ReadsAs T (.list .start xs) (.application es) := by
  intro pairs s horderly hplain hT hpairs
  rw [madeOf_application] at hplain
  cases horderly with
  | application hhead hitems =>
    have hall := readAll_completes (h.imp fun _ _ h ↦ h.2) hitems hplain hT hpairs
    cases h with
    | nil =>
      rw [SExpr.read_unit]
      exact .pure (sameUnder_application .nil)
    | cons h _ =>
      have hkeyword := word?_ne_keyword h.1
        (fun v heq ↦ madeOf_atom.1 (heq ▸ hplain _ List.mem_cons_self))
        fun name hname heq ↦ hhead name hname (congrArg some heq)
      rw [SExpr.read_application hkeyword]
      exact hall.bind fun es' t _ hes ↦ .pure (sameUnder_application hes)

/-- **What spells an expression is read as it.** -/
theorem readsAs_of_spells {x : SExpr} {e : Expression} (h : x.Spells e) : ReadsAs T x e := by
  refine SExpr.Spells.induction (P := ReadsAs T) ?atom ?binders ?rules ?equals ?application h
  case atom =>
    exact fun a _ _ horderly hplain hT hpairs ↦ read_atom horderly (madeOf_atom.1 hplain) hT hpairs
  case binders => exact fun kind vs x e hne ih ↦ readsAs_binders hne ih
  case rules => exact fun xs parts hlength ih ↦ readsAs_rules hlength ih
  case equals => exact fun x y a b ihx ihy ↦ readsAs_equals ihx ihy
  case application => exact fun xs es ih ↦ readsAs_application ih

/-! ### The theorem -/

/-- An orderly expression in which nothing is taken for anything else is read back from its text. -/
theorem Orderly.exists_ofText_print {e : Expression} (horderly : e.Orderly [])
    (hplain : e.MadeOf (Atom.Plain T) T) (m : Nat) :
    ∃ e' m', (ofText e.print).run m = (.ok e', m') ∧ e'.alphaEq e = true := by
  obtain ⟨x, hspells, hscans⟩ := exists_spells_print (horderly.legible nofun hplain)
  obtain ⟨x', hparse, hx'⟩ := SExpr.exists_parseOne_of_scans hscans
  have hreads : ReadsAs T x e := readsAs_of_spells hspells
  have hcompletes : Completes (x.read []) ⟨[], m⟩ fun e' _ ↦ SameUnder [] e' e :=
    @hreads [] ⟨[], m⟩ horderly hplain nofun Pairing.renames_nil
  obtain ⟨e', t, hread, -, hsame⟩ := hcompletes
  have hread' := SExpr.read_of_unplaced_eq hx' hread
  refine ⟨e', t.next, ?_, hsame⟩
  rw [ofText_run hparse]
  exact congrArg (fun r : Except SyntaxError Expression × ReadState ↦ (r.1, r.2.next)) hread'

/-- **Printing and reading back changes nothing** but the names of bound variables: if an expression
was read, has no holes, has only printable characters of ASCII, line feeds and tabs in its strings,
and has no symbol with the text of a variable that it binds, then what is printed for it can be
read, whatever the counter is, and what is read is equal to it. -/
theorem reads_back {text : String} {n n' : Nat} {e : Expression}
    (hread : (ofText text).run n = (.ok e, n')) (hholes : e.hasHoles = false)
    (htexts : ∀ contents, .text contents ∈ e.atoms → ∀ c ∈ contents.toList,
      c = '\n' ∨ c = '\t' ∨ 0x20 ≤ c.toNat ∧ c.toNat ≤ 0x7e)
    (hsymbols : ∀ name, .symbol name ∈ e.atoms → ∀ v ∈ e.binderVariables, name ≠ v.text) (m : Nat) :
    ∃ e' m', (ofText e.print).run m = (.ok e', m') ∧ e'.alphaEq e = true := by
  have hatom : ∀ a ∈ e.atoms, a.Plain (· ∈ e.binderVariables) := by
    intro a ha
    cases a with
    | symbol name => exact fun v hv ↦ hsymbols name ha v hv
    | text contents =>
      intro c hc
      rcases htexts contents ha c hc with h | h | h
      · exact .inl h
      · exact .inr (.inl h)
      · exact Quoted.isPlain_of_ascii h.1 h.2
    | number | var => trivial
    | hole v => exact (hole_notMem_atoms hholes v ha).elim
  exact (orderly_of_ofText hread).exists_ofText_print ⟨hatom, fun v hv ↦ hv⟩ m

/-- A run that has a result is equal to it, which lets an example be evaluated. -/
theorem eq_ok_of_isSome {ε σ : Type} {r : Except ε Expression × σ}
    (h : r.1.toOption.isSome = true) : r = (.ok (r.1.toOption.getD default), r.2) := by
  rcases r with ⟨⟨e⟩ | ⟨a⟩, s⟩
  · cases h
  · rfl

/-- Names that look like a hole and like a number, a list as the first item of a list, and a line
that is broken. -/
theorem reads_back_rule :
    let text := "(forall (x ?y) (-> (= x \"a\\\"b\\n\") (P -0.50 ?y) (exists 1 ((f 1) 2/6 ()))))"
    let e := ((ofText text).run 7).1.toOption.getD default
    (ofText text).run 7 = (.ok e, ((ofText text).run 7).2) ∧
      e.print = "(forall (x_7 ?y_8)\n" ++
        "  (-> (= x_7 \"a\\\"b\\n\") (P -0.5 ?y_8) (exists (1_9) ((f 1_9) 1/3 ()))))" ∧
      ∃ e' m', (ofText e.print).run 3 = (.ok e', m') ∧ e'.alphaEq e = true := by
  intro text e
  have hread := eq_ok_of_isSome (r := (ofText text).run 7) (by decide +kernel)
  have hatoms : e.atoms = [.var ⟨"x", 7⟩, .text "a\"b\n", .symbol "P", .number (-1 / 2),
      .var ⟨"?y", 8⟩, .symbol "f", .var ⟨"1", 9⟩, .number (1 / 3)] := by decide +kernel
  have hvariables : e.binderVariables = [⟨"x", 7⟩, ⟨"?y", 8⟩, ⟨"1", 9⟩] := by decide +kernel
  refine ⟨hread, by decide +kernel, ?_⟩
  refine reads_back hread (by decide +kernel) (fun contents h ↦ ?_) (fun name h ↦ ?_) 3
  · change _ ∈ e.atoms at h
    simp only [hatoms, List.mem_cons, List.not_mem_nil, or_false, reduceCtorEq, false_or,
      Atom.text.injEq] at h
    have hchars : contents.toList = ['a', '"', 'b', '\n'] := h ▸ rfl
    simp [hchars]
  · change _ ∈ e.atoms at h
    change ∀ v ∈ e.binderVariables, _
    simp only [hatoms, List.mem_cons, List.not_mem_nil, or_false, reduceCtorEq, false_or,
      Atom.symbol.injEq] at h
    rw [hvariables]
    rcases h with rfl | rfl <;> decide

end Expression

end NaturalDeduction
