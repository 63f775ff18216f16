import NaturalDeduction.Proofs.Numerals
import NaturalDeduction.Proofs.Printing

/-!
# What is read can be printed

An expression that was read is *orderly*: its symbols are words that are not taken for anything
else, its variables are bound by a binder around them, no binder hides another one, and no
application begins with the word of another form (`Expression.orderly_of_ofText`). Holes are the
only atoms that an orderly expression does not have to mean anything by.

So, if it has no holes and the strings in it are printable, everything in it is printed as a token
(`Expression.Orderly.legible`). The text of a variable is a word if its hint is, and it tells the
number of the variable, whatever the hint is (`Variable.id_eq_of_text_eq`): digits hold no
underscore, so the number is what stands behind the last one.

Main definitions and statements:

* `Expression.Orderly`: what can have been read where some variables are bound.
* `Expression.Orderly.legible`: what is orderly and plain is printed as tokens.
* `SExpr.read_readAs`, `Expression.orderly_of_ofText`: what is read is orderly, part by part and
  as a whole text.
-/

namespace NaturalDeduction

open Scanner

/-! ### The text of a variable -/

namespace Variable

/-- The hint, an underscore and the number. -/
theorem toList_text (v : Variable) :
    v.text.toList = v.hint.toList ++ '_' :: Nat.toDigits 10 v.id := by
  simp only [text, String.toList_append, Nat.toString_eq_ofList_toDigits, String.toList_ofList,
    List.append_assoc]
  rfl

/-- So the text of a variable is no number and no keyword. -/
theorem underscore_mem_text (v : Variable) : '_' ∈ v.text.toList := by
  rw [toList_text]
  exact List.mem_append_right _ List.mem_cons_self

/-- The number is what stands behind the last underscore. -/
theorem takeWhile_reverse_text (v : Variable) :
    v.text.toList.reverse.takeWhile (· != '_') = (Nat.toDigits 10 v.id).reverse := by
  have hdigits : ∀ c ∈ (Nat.toDigits 10 v.id).reverse, (c != '_') = true := by
    intro c hc
    rw [bne_iff_ne]
    rintro rfl
    exact Nat.underscore_not_in_toDigits (List.mem_reverse.1 hc)
  rw [toList_text, List.reverse_append, List.reverse_cons, List.append_assoc,
    List.takeWhile_append_of_pos hdigits, List.singleton_append, List.takeWhile_cons]
  exact List.append_nil _

/-- Variables with one text are one variable. -/
theorem id_eq_of_text_eq {v w : Variable} (h : v.text = w.text) : v.id = w.id := by
  have hdigits : Nat.toDigits 10 v.id = Nat.toDigits 10 w.id := by
    rw [← List.reverse_inj, ← takeWhile_reverse_text, ← takeWhile_reverse_text, h]
  calc
    v.id = Nat.ofDigitChars 10 (Nat.toDigits 10 v.id) 0 := Nat.ofDigitChars_ten_toDigits.symm
    _ = Nat.ofDigitChars 10 (Nat.toDigits 10 w.id) 0 := by rw [hdigits]
    _ = w.id := Nat.ofDigitChars_ten_toDigits

end Variable

/-! ### Texts that are words -/

/-- The digits are ten code points in a row. -/
theorem toNat_of_isDigit {c : Char} (h : c.isDigit = true) : 0x30 ≤ c.toNat ∧ c.toNat ≤ 0x39 := by
  simpa [Char.isDigit, UInt32.le_iff_toNat_le] using h

/-- No character of a numeral ends a word. -/
theorem isDelimiter_of_isNumeral {c : Char} (h : Number.IsNumeral c) : isDelimiter c = false := by
  have hrange : 0x2d ≤ c.toNat ∧ c.toNat ≤ 0x39 := by
    rcases h with h | rfl | rfl | rfl
    · have := toNat_of_isDigit h
      omega
    all_goals decide
  have hblank : isBlank c = false := by
    have hchanges : CodePoints.whiteSpace.changes =
        0x9 :: 0xe :: 0x20 :: 0x21 :: 0x85 :: CodePoints.whiteSpace.changes.drop 5 := rfl
    rw [isBlank, CodePoints.contains, hchanges]
    simp only [CodePoints.containsFrom]
    rw [if_neg (by omega), if_neg (by omega), if_neg (by omega), if_neg (by omega),
      if_pos (by omega)]
    rfl
  have hne {d : Char} (hd : ¬ (0x2d ≤ d.toNat ∧ d.toNat ≤ 0x39)) : (c == d) = false := by
    rw [beq_eq_false_iff_ne]
    rintro rfl
    exact hd hrange
  rw [isDelimiter, hblank, hne (by decide), hne (by decide), hne (by decide), hne (by decide)]
  rfl

/-- What stands behind the hint adds nothing that ends a word. -/
theorem IsWord.text {v : Variable} (h : IsWord v.hint) : IsWord v.text := by
  refine ⟨fun hnil ↦ ?_, fun c hc ↦ ?_⟩
  · have hmem := v.underscore_mem_text
    rw [hnil] at hmem
    cases hmem
  · rw [Variable.toList_text] at hc
    rcases List.mem_append.1 hc with hc | hc
    · exact h.not_delimiter c hc
    · rcases List.mem_cons.1 hc with rfl | hc
      · decide
      · exact isDelimiter_of_isNumeral (.inl (Number.isDigit_of_mem_toDigits hc))

/-- The canonical text of a number is a word, since it is not empty. -/
theorem isWord_canonical (q : Rat) : IsWord (Number.canonical q) := by
  refine ⟨fun hnil ↦ ?_, fun c hc ↦ ?_⟩
  · rw [Number.canonical, String.toList_ofList] at hnil
    exact (Number.renders_canonicalChars q).ne_nil hnil
  · rw [Number.canonical, String.toList_ofList] at hc
    exact isDelimiter_of_isNumeral (Number.isNumeral_of_mem_canonicalChars hc)

/-! ### Orderly expressions -/

namespace Expression

/-- Whether an expression can have been read where some variables are bound. -/
inductive Orderly : List Variable → Expression → Prop
  | symbol {bound : List Variable} {name : String} (hword : IsWord name)
    (hname : Atom.ofWord name = .symbol name) (hhole : name.toList.head? ≠ some '?') :
    Orderly bound (.atom (.symbol name))
  | text (bound : List Variable) (contents : String) : Orderly bound (.atom (.text contents))
  | number (bound : List Variable) (q : Rat) : Orderly bound (.atom (.number q))
  | hole (bound : List Variable) (v : Variable) : Orderly bound (.atom (.hole v))
  | var {bound : List Variable} {v : Variable} (h : v ∈ bound) : Orderly bound (.atom (.var v))
  | binder {bound : List Variable} (kind : BinderKind) {v : Variable} {body : Expression}
    (hword : IsWord v.text) (hnew : ∀ w ∈ bound, w.id ≠ v.id) (h : Orderly (v :: bound) body) :
    Orderly bound (.binder kind v body)
  | implies {bound : List Variable} {a b : Expression} (ha : Orderly bound a)
    (hb : Orderly bound b) : Orderly bound (.implies a b)
  | equals {bound : List Variable} {a b : Expression} (ha : Orderly bound a)
    (hb : Orderly bound b) : Orderly bound (.equals a b)
  | application {bound : List Variable} {items : List Expression}
    (hhead : ∀ name ∈ SExpr.keywords, items.head? ≠ some (.atom (.symbol name)))
    (h : ∀ e ∈ items, Orderly bound e) : Orderly bound (.application items)

variable {bound : List Variable} {e : Expression}

/-- A rule is orderly if both parts are. -/
theorem orderly_implies {a b : Expression} :
    (implies a b).Orderly bound ↔ a.Orderly bound ∧ b.Orderly bound :=
  ⟨fun h ↦ by cases h with | implies ha hb => exact ⟨ha, hb⟩, fun h ↦ .implies h.1 h.2⟩

/-- What spells something else than a keyword is not taken for one. -/
theorem word?_ne_keyword {x : SExpr} {e : Expression} (h : x.Spells e)
    (hhole : ∀ v, e ≠ .atom (.hole v))
    (hsymbol : ∀ name ∈ SExpr.keywords, e ≠ .atom (.symbol name)) :
    ∀ name ∈ SExpr.keywords, x.word? ≠ some name := by
  intro name hname hword
  cases h with
  | atom a =>
    cases a with
    | symbol other =>
      cases hword
      exact hsymbol _ hname rfl
    | text contents => cases hword
    | number q =>
      -- Every keyword has a character that no number has.
      have hmark : ∀ name ∈ SExpr.keywords,
          name.toList.any fun c ↦ !(c.isDigit || ['-', '.', '/'].contains c) := by decide
      obtain ⟨c, hc, hnone⟩ := List.any_eq_true.1 (hmark name hname)
      cases hword
      rw [Atom.print, Number.canonical, String.toList_ofList] at hc
      have hnumeral : (c.isDigit || ['-', '.', '/'].contains c) = true := by
        simpa [Number.IsNumeral] using Number.isNumeral_of_mem_canonicalChars hc
      rw [hnumeral] at hnone
      cases hnone
    | var v =>
      have hunderscore : ∀ name ∈ SExpr.keywords, '_' ∉ name.toList := by decide
      cases hword
      exact hunderscore _ hname v.underscore_mem_text
    | hole v => exact hhole v rfl
  | binders | rules | equals | application => cases hword

end Expression

/-! ### Printable expressions -/

/-- Whether an atom is not a hole, its characters are printable if it is a string, and it is not
taken for one of some variables if it is a symbol. -/
def Atom.Plain (T : Variable → Prop) : Atom → Prop
  | symbol name => ∀ v, T v → name ≠ v.text
  | text contents => ∀ c ∈ contents.toList, Quoted.IsPlain c
  | hole _ => False
  | number _ => True
  | var _ => True

namespace Expression

variable {bound : List Variable} {T Q : Variable → Prop} {e : Expression}

/-- The atoms of an orderly expression are printed as tokens, and so are the variables of its
binders. -/
theorem Orderly.spellings (h : e.Orderly bound) (hbound : ∀ v ∈ bound, IsWord v.text) :
    e.MadeOf (fun a ↦ (∃ v, a = .hole v) ∨ a.spelling.Worded) fun v ↦ IsWord v.text := by
  induction h with
  | symbol hword => exact madeOf_atom.2 (.inr (.word .start hword))
  | text bound contents => exact madeOf_atom.2 (.inr (.quotation contents .start))
  | number bound q => exact madeOf_atom.2 (.inr (.word .start (isWord_canonical q)))
  | hole bound v => exact madeOf_atom.2 (.inl ⟨v, rfl⟩)
  | var hv => exact madeOf_atom.2 (.inr (.word .start (hbound _ hv)))
  | binder kind hword hnew h ih =>
    exact madeOf_binder.2 ⟨hword, ih (List.forall_mem_cons.2 ⟨hword, hbound⟩)⟩
  | implies ha hb iha ihb => exact madeOf_implies.2 ⟨iha hbound, ihb hbound⟩
  | equals ha hb iha ihb => exact madeOf_equals.2 ⟨iha hbound, ihb hbound⟩
  | application hhead h ih => exact madeOf_application.2 fun e he ↦ ih e he hbound

/-- An atom that is no string is printed as the word that it is spelled with. -/
theorem isWord_of_worded {a : Atom} (h : a.spelling.Worded) (ha : ∀ contents, a ≠ .text contents) :
    IsWord a.print := by
  cases a with
  | text contents => exact absurd rfl (ha contents)
  | symbol | number | var | hole => cases h with | word _ hword => exact hword

/-- What is orderly is made of atoms that are printed as tokens, and binds variables whose texts are
words. -/
theorem Orderly.legible (h : e.Orderly bound) (hbound : ∀ v ∈ bound, IsWord v.text)
    (hplain : e.MadeOf (Atom.Plain T) Q) : e.Legible := by
  obtain ⟨hspellings, hvariables⟩ := h.spellings hbound
  refine ⟨fun a ha ↦ ?_, hvariables⟩
  have hatom := hplain.atoms a ha
  rcases hspellings a ha with ⟨v, rfl⟩ | hspelling
  · exact hatom.elim
  · cases a with
    | text contents => exact hatom
    | symbol | number | var | hole => exact isWord_of_worded hspelling (by simp)

end Expression

/-! ### What is read is orderly -/

/-- Whether the variables of a scope are below `n` and have words as their texts. -/
structure Scope.Worded (n : Nat) (scope : Scope) : Prop where
  below : scope.Below n
  words : ∀ p ∈ scope, IsWord p.2.text

/-- A scope stays below a counter that moves on. -/
theorem Scope.Worded.mono {n m : Nat} {scope : Scope} (h : scope.Worded n) (hnm : n ≤ m) :
    scope.Worded m := ⟨h.below.mono hnm, h.words⟩

/-- The variables of a scope. -/
def Scope.variables (scope : Scope) : List Variable := scope.map (·.2)

/-- What a name stands for is one of the variables of the scope. -/
theorem Scope.mem_variables_of_lookup? {scope : Scope} {name : String} {v : Variable}
    (h : scope.lookup? name = some v) : v ∈ scope.variables := by
  obtain ⟨p, hp, rfl⟩ := Option.map_eq_some_iff.1 h
  exact List.mem_map_of_mem (List.mem_of_find?_eq_some hp)

/-- Whether an expression is orderly, and a symbol only if it was read from its name. -/
def SExpr.ReadAs (scope : Scope) (x : SExpr) (e : Expression) : Prop :=
  e.Orderly scope.variables ∧ ∀ name, e = .atom (.symbol name) → x.word? = some name

namespace Reading

open Expression

variable {s : ReadState} {scope : Scope}

/-- A word is read as a variable of the scope, a hole, or an atom that is not taken for anything
else. -/
theorem word_readAs {text : String} (htext : IsWord text) (position : Position) :
    Reads (word scope text position) s fun e _ ↦ (SExpr.word text position).ReadAs scope e := by
  unfold word
  split
  · exact .pure ⟨.var (Scope.mem_variables_of_lookup? ‹_›), nofun⟩
  · split
    · exact .throw _
    · exact (hole_reads _).bind fun v t _ _ ↦ .pure ⟨.hole _ v, nofun⟩
    · rename_i hhole
      refine .pure ?_
      rw [Atom.ofWord_eq]
      cases hparse : Number.parse? text with
      | some q => exact ⟨.number _ q, nofun⟩
      | none =>
        have hname : Atom.ofWord text = .symbol text := by
          rw [Atom.ofWord_eq, hparse]
          rfl
        have hhead : text.toList.head? ≠ some '?' := fun h ↦ by
          obtain ⟨rest, hrest⟩ := List.head?_eq_some_iff.1 h
          exact hhole rest hrest
        refine ⟨.symbol htext hname hhead, ?_⟩
        rintro name ⟨⟩
        rfl

/-- A variable that is drawn has the number of the counter. -/
theorem fresh_draws (hint : String) :
    Reads (fresh hint) s fun v t ↦ v = ⟨hint, s.next⟩ ∧ t.next = s.next + 1 := by
  refine ⟨Nat.le_succ _, fun v hv ↦ ?_⟩
  cases hv
  exact ⟨rfl, rfl⟩

/-- The variables that a binder draws are new, and no two of them are the same. -/
theorem bindNames_orderly {names : List SExpr} (hnames : ∀ x ∈ names, x.Worded)
    (hscope : scope.Worded s.next) :
    Reads (bindNames scope names) s fun p t ↦ p.1.Worded t.next ∧ p.2.length = names.length ∧
      ∀ kind (e : Expression),
        e.Orderly p.1.variables → (binders kind p.2 e).Orderly scope.variables := by
  induction names generalizing scope s with
  | nil => exact .pure ⟨hscope, rfl, fun kind e he ↦ he⟩
  | cons x rest ih =>
    obtain ⟨hx, hrest⟩ := List.forall_mem_cons.1 hnames
    cases hx with
    | word position hname =>
      rename_i name
      refine (fresh_draws name).bind fun v t hle hv ↦ ?_
      obtain ⟨rfl, hnext⟩ := hv
      have hword : IsWord (Variable.mk name s.next).text := IsWord.text hname
      have hinner : Scope.Worded t.next ((name, ⟨name, s.next⟩) :: scope) :=
        ⟨List.forall_mem_cons.2 ⟨hnext ▸ Nat.lt_succ_self _, hscope.below.mono hle⟩,
          List.forall_mem_cons.2 ⟨hword, hscope.words⟩⟩
      have hnew : ∀ w ∈ scope.variables, w.id ≠ s.next := by
        intro w hw
        obtain ⟨p, hp, rfl⟩ := List.mem_map.1 hw
        exact Nat.ne_of_lt (hscope.below p hp)
      refine (ih hrest hinner).bind fun p u hle' hp ↦ .pure ?_
      obtain ⟨hworded, hlength, horderly⟩ := hp
      refine ⟨hworded, congrArg (· + 1) hlength, fun kind e he ↦ ?_⟩
      exact .binder kind hword hnew (horderly kind e he)
    | quotation | list => exact .throw _

/-- The names of a binder are words if all words are. -/
theorem worded_of_mem_binderNames {vars : SExpr} (h : vars.Worded) :
    ∀ x ∈ binderNames vars, x.Worded := by
  cases h with
  | list position hitems => exact hitems
  | word position htext => exact List.forall_mem_singleton.2 (.word position htext)
  | quotation contents position => exact List.forall_mem_singleton.2 (.quotation contents position)

end Reading

namespace SExpr

open Reading Expression

/-- Items are read in turn, each in the scope of the list. -/
theorem readAll_readAs {scope : Scope} {xs : List SExpr} {s : ReadState}
    (hscope : scope.Worded s.next)
    (h : ∀ x ∈ xs, ∀ {t : ReadState}, scope.Worded t.next →
      Reads (x.read scope) t fun e _ ↦ x.ReadAs scope e) :
    Reads (readAll scope xs) s fun es _ ↦ List.Forall₂ (ReadAs scope) xs es := by
  induction xs generalizing s with
  | nil =>
    rw [readAll]
    exact .pure .nil
  | cons x rest ih =>
    obtain ⟨hx, hrest⟩ := List.forall_mem_cons.1 h
    rw [readAll]
    refine (hx hscope).bind fun a t hle ha ↦ ?_
    exact (ih (hscope.mono hle) hrest).bind fun as u _ has ↦ .pure (.cons ha has)

/-- Items that are read as expressions give orderly ones. -/
theorem orderly_of_forall₂_readAs {scope : Scope} {xs : List SExpr} {es : List Expression}
    (h : List.Forall₂ (ReadAs scope) xs es) : ∀ e ∈ es, e.Orderly scope.variables := by
  induction h with
  | nil => nofun
  | cons h _ ih => exact List.forall_mem_cons.2 ⟨h.1, ih⟩

theorem readAs_quotation (scope : Scope) (contents : String) (position : Position) :
    (quotation contents position).ReadAs scope (.text contents) :=
  ⟨.text _ contents, nofun⟩

theorem readAs_unit (scope : Scope) (position : Position) :
    (list position []).ReadAs scope (.application []) :=
  ⟨.application (fun _ _ ↦ nofun) nofun, nofun⟩

/-- A rule has a condition, so it is a rule indeed. -/
theorem readAs_rules {scope : Scope} {position : Position} {items xs : List SExpr}
    {parts : List Expression} (h : List.Forall₂ (ReadAs scope) xs parts)
    (hlength : ¬ xs.length < 2) :
    (list position items).ReadAs scope (rules parts.dropLast (parts.getLastD default)) := by
  obtain ⟨c, d, rest, rfl⟩ : ∃ c d rest, parts = c :: d :: rest := by
    rw [h.length_eq] at hlength
    rcases parts with _ | ⟨c, _ | ⟨d, rest⟩⟩
    · exact absurd Nat.zero_lt_two hlength
    · exact absurd Nat.one_lt_two hlength
    · exact ⟨c, d, rest, rfl⟩
  refine ⟨(forall_parts_iff (fun _ _ ↦ orderly_implies) (List.cons_ne_nil _ _)).2
    (orderly_of_forall₂_readAs h), ?_⟩
  rw [rules_cons_parts c (List.cons_ne_nil d rest)]
  nofun

/-- A binder was orderly below its variables. -/
theorem readAs_binders {scope : Scope} {position : Position} {items : List SExpr}
    {kind : BinderKind} {vs : List Variable} {e : Expression} (hne : vs ≠ [])
    (h : (binders kind vs e).Orderly scope.variables) :
    (list position items).ReadAs scope (binders kind vs e) := by
  obtain ⟨v, rest, rfl⟩ := List.exists_cons_of_ne_nil hne
  exact ⟨h, nofun⟩

/-- An equation has two sides that were read. -/
theorem readAs_equals {scope : Scope} {position : Position} {items : List SExpr} {x y : SExpr}
    {a b : Expression} (ha : x.ReadAs scope a) (hb : y.ReadAs scope b) :
    (list position items).ReadAs scope (.equals a b) :=
  ⟨.equals ha.1 hb.1, nofun⟩

/-- A list is read as an application if its first item is not a keyword. -/
theorem readAs_application {scope : Scope} {position : Position} {head : SExpr}
    {items args : List SExpr} {es : List Expression}
    (h : List.Forall₂ (ReadAs scope) (head :: args) es)
    (hhead : ∀ name ∈ keywords, head.word? ≠ some name) :
    (list position items).ReadAs scope (.application es) := by
  cases h with
  | cons he hes =>
    refine ⟨.application (fun name hname hsymbol ↦ ?_) ?_, nofun⟩
    · exact hhead name hname (he.2 name (Option.some_inj.1 hsymbol))
    · exact List.forall_mem_cons.2 ⟨he.1, orderly_of_forall₂_readAs hes⟩

/-- **What is read is orderly.** -/
theorem read_readAs {x : SExpr} (hx : x.Worded) {scope : Scope} {s : ReadState}
    (hscope : scope.Worded s.next) : Reads (x.read scope) s fun e _ ↦ x.ReadAs scope e := by
  induction x using formInduction generalizing scope s with
  | word text position =>
    cases hx with
    | word _ htext =>
      rw [read]
      exact word_readAs htext position
  | quotation contents position =>
    rw [read]
    exact .pure (readAs_quotation scope contents position)
  | unit position =>
    rw [read_unit]
    exact .pure (readAs_unit scope position)
  | binder position head vars body kind hkind ih =>
    have hitems := worded_list.1 hx
    rw [read_binder hkind]
    split
    · exact .throw_bind _
    · rename_i hempty
      have hnames := worded_of_mem_binderNames (hitems vars (by simp))
      refine (bindNames_orderly hnames hscope).bind fun p t _ hp ↦ ?_
      obtain ⟨hworded, hlength, horderly⟩ := hp
      -- the head names something, so at least one variable is bound
      have hne : p.2 ≠ [] := by
        rintro hnil
        rw [hnil, List.length_nil, eq_comm, List.length_eq_zero_iff] at hlength
        exact hempty (List.isEmpty_iff.2 hlength)
      refine (ih (hitems body (by simp)) hworded).bind fun e u _ he ↦ .pure ?_
      exact readAs_binders hne (horderly _ e he.1)
  | misshapen position head args kind hkind hargs =>
    rw [read_misshapen hkind hargs]
    exact .throw _
  | arrow position head args hhead ih =>
    obtain ⟨-, hargs⟩ := List.forall_mem_cons.1 (worded_list.1 hx)
    rw [read_arrow hhead]
    split
    · exact .throw_bind _
    · rename_i hlength
      refine (readAll_readAs hscope fun x hx ↦ ih x hx (hargs x hx)).bind fun parts t _ hparts ↦ ?_
      exact .pure (readAs_rules hparts hlength)
  | equation position head args hhead ih =>
    obtain ⟨-, hargs⟩ := List.forall_mem_cons.1 (worded_list.1 hx)
    rw [read_equation hhead]
    split
    · rename_i left right
      refine (ih left (by simp) (hargs left (by simp)) hscope).bind fun a t hle ha ↦ ?_
      refine (ih right (by simp) (hargs right (by simp)) (hscope.mono hle)).bind
        fun b u _ hb ↦ .pure ?_
      exact readAs_equals ha hb
    · exact .throw _
  | application position head args hhead ih =>
    have hitems := worded_list.1 hx
    rw [read_application hhead]
    refine (readAll_readAs hscope fun x hx ↦ ih x hx (hitems x hx)).bind fun es t _ hes ↦ .pure ?_
    exact readAs_application hes hhead

end SExpr

/-- Reading a text is reading the one s-expression in it, in the empty scope. -/
theorem Expression.ofText_run {text : String} {x : SExpr} (h : SExpr.parseOne text = .ok x)
    (n : Nat) : (ofText text).run n =
      (((x.read []).run.run ⟨[], n⟩).1, ((x.read []).run.run ⟨[], n⟩).2.next) := by
  show ofText text n = _
  rw [ofText, h]
  rfl

/-- So a text that was read has one s-expression in it, which was read. -/
theorem Expression.exists_of_ofText {text : String} {n n' : Nat} {e : Expression}
    (h : (ofText text).run n = (.ok e, n')) :
    ∃ x, SExpr.parseOne text = .ok x ∧ ∃ s, (x.read []).run.run ⟨[], n⟩ = (.ok e, s) := by
  cases hparse : SExpr.parseOne text with
  | error fault =>
    have hrun : (ofText text).run n = (.error fault, n) := by
      show ofText text n = _
      rw [ofText, hparse]
    rw [hrun] at h
    cases h
  | ok x =>
    rw [ofText_run hparse] at h
    exact ⟨x, rfl, _, Prod.ext (Prod.mk.inj h).1 rfl⟩

/-- **What is read from a text is orderly.** -/
theorem Expression.orderly_of_ofText {text : String} {n n' : Nat} {e : Expression}
    (h : (ofText text).run n = (.ok e, n')) : e.Orderly [] := by
  obtain ⟨x, hparse, s, hread⟩ := exists_of_ofText h
  have hempty : Scope.Worded n [] := ⟨nofun, nofun⟩
  have hreads := SExpr.read_readAs (SExpr.worded_of_parseOne hparse) (s := ⟨[], n⟩) hempty
  exact (hreads.2 e (congrArg Prod.fst hread)).1

end NaturalDeduction
