import NaturalDeduction.Expression.Layout
import NaturalDeduction.Proofs.Parsing
import NaturalDeduction.Proofs.Pointwise

/-!
# What is printed

A layout is printed as the tokens of its pieces with brackets around its lists, wherever its lines
are broken (`Layout.scans_place`): every place that may break is printed as blanks, whether it
breaks or not, and what stands behind it begins a token.

An s-expression *spells* an expression if it says in full what the expression is: every variable is
written with its number, and binders of one kind and rules may share one list or be nested. What is
printed for an expression is an s-expression that spells it (`Expression.exists_spells_print`).

What a layout is printed as depends on the width; what it is scanned as does not. So all that is
shown of the printer is that it respects `Layout.ScansAs`, and everything else is about the layout.

Main definitions and statements:

* `Layout.ScansAs`: the tokens of a layout, wherever it is broken.
* `Expression.MadeOf`: a property of all atoms, and one of all variables of binders.
* `SExpr.Spells`: the s-expressions that say in full what an expression is.
* `Layout.scans_place`, `Expression.exists_spells_print`.
-/

namespace NaturalDeduction

open Scanner

/-! ### Ink -/

namespace Layout

/-- The characters that ink puts on the page. -/
def inkChars (ink : List Ink) : List Char := ink.flatMap fun i ↦ i.text.toList

/-- Ink is printed in its order. -/
theorem toList_print (ink : List Ink) : (print ink).toList = inkChars ink := by
  rw [print, String.toList_join, List.flatMap_map]
  rfl

theorem inkChars_append (a b : List Ink) : inkChars (a ++ b) = inkChars a ++ inkChars b :=
  List.flatMap_append

theorem inkChars_cons (i : Ink) (rest : List Ink) :
    inkChars (i :: rest) = i.text.toList ++ inkChars rest := List.flatMap_cons

theorem inkChars_piece (s : String) : inkChars [.piece s] = s.toList := List.append_nil _

/-- Whether ink scans as some lexemes, and can follow a word. -/
def ScansBehind (ink : List Ink) (ls : List Lexeme) : Prop :=
  Scans (inkChars ink) ls ∧ ∀ c ∈ (inkChars ink).head?, isDelimiter c = true

/-- Behind a token nothing may stand. -/
theorem scansBehind_nil : ScansBehind [] [] := ⟨.nil, nofun⟩

/-- A place that may break is printed as blanks, whether it breaks or not. -/
theorem exists_blanks {i : Ink} (hi : ∀ s, i ≠ .piece s) :
    ∃ c cs, i.text.toList = c :: cs ∧ ∀ d ∈ c :: cs, isBlank d = true := by
  cases i with
  | piece s => exact absurd rfl (hi s)
  | gap => exact ⟨' ', [], rfl, List.forall_mem_singleton.2 rfl⟩
  | newline indent =>
    refine ⟨'\n', List.replicate indent ' ', by simp [Ink.text], ?_⟩
    refine List.forall_mem_cons.2 ⟨by decide, fun d hd ↦ ?_⟩
    rw [List.eq_of_mem_replicate hd]
    decide

/-- A place that may break is blanks, whichever way it is printed, so a token ends there. -/
theorem ScansBehind.item {i : Ink} {ink rest : List Ink} {ls ms : List Lexeme}
    (hi : ∀ s, i ≠ .piece s) (h : Scans (inkChars ink) ls) (hrest : ScansBehind rest ms) :
    ScansBehind (i :: ink ++ rest) (ls ++ ms) := by
  obtain ⟨c, cs, hchars, hblank⟩ := exists_blanks hi
  have heq : inkChars (i :: ink ++ rest) = (c :: cs) ++ (inkChars ink ++ inkChars rest) := by
    rw [List.cons_append, inkChars_cons, inkChars_append, hchars]
  rw [ScansBehind, heq]
  refine ⟨(h.append hrest.1 hrest.2).blanks hblank, isDelimiter_of_mem_head? ?_⟩
  rw [isDelimiter, hblank c List.mem_cons_self]
  rfl

/-- A list is printed in brackets, which need no blanks around them. -/
theorem scans_list {head items : List Ink} {ls ms : List Lexeme} (h : Scans (inkChars head) ls)
    (hitems : ScansBehind items ms) :
    Scans (inkChars (.piece "(" :: head ++ items ++ [.piece ")"]))
      ((.opening, "(") :: (ls ++ ms ++ [(.closing, ")")])) := by
  have heq : inkChars (.piece "(" :: head ++ items ++ [.piece ")"]) =
      '(' :: (inkChars head ++ inkChars items ++ [')']) := by
    rw [inkChars_append, inkChars_append, inkChars_cons, inkChars_piece]
    rfl
  rw [heq]
  exact ((h.append hitems.1 hitems.2).append_closing).opening

/-! ### Layouts -/

mutual

/-- Whether the pieces of a layout, with brackets around its lists, scan as some lexemes. -/
def ScansAs : Layout → List Lexeme → Prop
  | piece s, ls => Scans s.toList ls
  | list head items, ls =>
    ∃ hs ms, head.ScansAs hs ∧ ItemsScanAs items ms ∧
      ls = (.opening, "(") :: (hs ++ ms ++ [(.closing, ")")])

/-- Whether items scan as some lexemes, one after the other. -/
def ItemsScanAs : List Layout → List Lexeme → Prop
  | [], ls => ls = []
  | l :: rest, ls => ∃ ms ns, l.ScansAs ms ∧ ItemsScanAs rest ns ∧ ls = ms ++ ns

end

/-- Induction with a hypothesis for every item of a list. -/
@[elab_as_elim, induction_eliminator]
theorem induction {P : Layout → Prop} (piece : ∀ s, P (piece s))
    (list : ∀ head items, P head → (∀ l ∈ items, P l) → P (list head items)) (l : Layout) : P l :=
  Layout.rec (motive_1 := P) (motive_2 := fun ls ↦ ∀ l ∈ ls, P l) piece list (by simp)
    (fun _ _ hl hls ↦ by simpa using ⟨hl, hls⟩) l

theorem scansBehind_flatItems {items : List Layout} {ms : List Lexeme}
    (h : ∀ l ∈ items, ∀ ls, l.ScansAs ls → Scans (inkChars (flat l)) ls)
    (hitems : ItemsScanAs items ms) : ScansBehind (flatItems items) ms := by
  induction items generalizing ms with
  | nil =>
    rw [ItemsScanAs] at hitems
    rw [hitems]
    exact scansBehind_nil
  | cons l rest ih =>
    obtain ⟨hl, hrest⟩ := List.forall_mem_cons.1 h
    rw [ItemsScanAs] at hitems
    obtain ⟨ls, ns, hls, hns, rfl⟩ := hitems
    exact .item nofun (hl ls hls) (ih hrest hns)

theorem scans_flat {l : Layout} {ls : List Lexeme} (h : l.ScansAs ls) :
    Scans (inkChars (flat l)) ls := by
  induction l generalizing ls with
  | piece s =>
    rw [ScansAs] at h
    rwa [flat, inkChars_piece]
  | list head items ihhead ihitems =>
    rw [ScansAs] at h
    obtain ⟨hs, ms, hhead, hitems, rfl⟩ := h
    rw [flat]
    exact scans_list (ihhead hhead) (scansBehind_flatItems (fun l hl _ ↦ ihitems l hl) hitems)

/-- Each item has a place in front of it that may break, and is ended by it either way. -/
theorem scansBehind_placeItems {items : List Layout} {ms : List Lexeme} {width : Nat}
    (h : ∀ l ∈ items, ∀ ls, l.ScansAs ls → ∀ indent closers column,
      Scans (inkChars (place width indent closers column l).1) ls)
    (hitems : ItemsScanAs items ms) (indent closers column : Nat) :
    ScansBehind (placeItems width indent closers column items).1 ms := by
  induction items generalizing ms column with
  | nil =>
    rw [ItemsScanAs] at hitems
    rw [hitems]
    exact scansBehind_nil
  | cons l rest ih =>
    obtain ⟨hl, hrest⟩ := List.forall_mem_cons.1 h
    rw [ItemsScanAs] at hitems
    obtain ⟨ls, ns, hls, hns, rfl⟩ := hitems
    exact .item nofun (hl ls hls _ _ _) (ih hrest hns _)

/-- **Line breaks do not matter**: for every width, what is printed scans as the lexemes of the
layout. -/
theorem scans_place {l : Layout} {ls : List Lexeme} (h : l.ScansAs ls)
    (width indent closers column : Nat) :
    Scans (inkChars (place width indent closers column l).1) ls := by
  induction l generalizing ls indent closers column with
  | piece s =>
    rw [ScansAs] at h
    rwa [place, inkChars_piece]
  | list head items ihhead ihitems =>
    rw [place]
    split
    -- The list is flat if it fits.
    · exact scans_flat h
    · rw [ScansAs] at h
      obtain ⟨hs, ms, hhead, hitems, rfl⟩ := h
      exact scans_list (ihhead hhead _ _ _)
        (scansBehind_placeItems (fun l hl _ hls _ _ _ ↦ ihitems l hl hls _ _ _) hitems _ _ _)

end Layout

/-! ### What an expression is made of -/

namespace Expression

mutual

/-- All atoms, in order. -/
def atoms : Expression → List Atom
  | atom a => [a]
  | binder _ _ body => body.atoms
  | implies a b => a.atoms ++ b.atoms
  | equals a b => a.atoms ++ b.atoms
  | application items => atomsIn items

/-- All atoms of a list of expressions. -/
def atomsIn : List Expression → List Atom
  | [] => []
  | e :: rest => e.atoms ++ atomsIn rest

end

theorem atomsIn_eq_flatMap (es : List Expression) : atomsIn es = es.flatMap atoms := by
  induction es with
  | nil => rfl
  | cons e rest ih => rw [atomsIn, ih, List.flatMap_cons]

/-- Without holes there is none among the atoms. -/
theorem hole_notMem_atoms {e : Expression} (h : e.hasHoles = false) (v : Variable) :
    .hole v ∉ e.atoms := by
  induction e with
  | atom a => cases a <;> simp_all [atoms, hasHoles]
  | binder kind w body ih => exact ih h
  | implies a b iha ihb | equals a b iha ihb =>
    rw [hasHoles, Bool.or_eq_false_iff] at h
    rw [atoms, List.mem_append]
    exact fun hv ↦ hv.elim (iha h.1) (ihb h.2)
  | application items ih =>
    rw [hasHoles, haveHoles_eq_any, List.any_eq_false] at h
    rw [atoms, atomsIn_eq_flatMap, List.mem_flatMap]
    rintro ⟨e, he, hv⟩
    exact ih e he (Bool.eq_false_iff.2 (h e he)) hv

mutual

/-- The variables of all binders, in order. -/
def binderVariables : Expression → List Variable
  | atom _ => []
  | binder _ v body => v :: body.binderVariables
  | implies a b => a.binderVariables ++ b.binderVariables
  | equals a b => a.binderVariables ++ b.binderVariables
  | application items => binderVariablesIn items

/-- The variables of all binders in a list of expressions. -/
def binderVariablesIn : List Expression → List Variable
  | [] => []
  | e :: rest => e.binderVariables ++ binderVariablesIn rest

end

theorem binderVariablesIn_eq_flatMap (es : List Expression) :
    binderVariablesIn es = es.flatMap binderVariables := by
  induction es with
  | nil => rfl
  | cons e rest ih => rw [binderVariablesIn, ih, List.flatMap_cons]

end Expression

namespace Expression

/-- Whether all atoms have one property, and the variables of all binders another. -/
structure MadeOf (P : Atom → Prop) (Q : Variable → Prop) (e : Expression) : Prop where
  atoms : ∀ a ∈ e.atoms, P a
  binderVariables : ∀ v ∈ e.binderVariables, Q v

variable {P : Atom → Prop} {Q : Variable → Prop} {a b e : Expression}

theorem madeOf_atom {a : Atom} : (atom a).MadeOf P Q ↔ P a :=
  ⟨fun h ↦ h.atoms a List.mem_cons_self, fun h ↦ ⟨List.forall_mem_singleton.2 h, nofun⟩⟩

theorem madeOf_binder {kind : BinderKind} {v : Variable} :
    (binder kind v e).MadeOf P Q ↔ Q v ∧ e.MadeOf P Q := by
  refine ⟨fun ⟨hatoms, hvariables⟩ ↦ ?_, fun ⟨hv, hatoms, hvariables⟩ ↦ ⟨hatoms, ?_⟩⟩
  · obtain ⟨hv, hrest⟩ := List.forall_mem_cons.1 hvariables
    exact ⟨hv, hatoms, hrest⟩
  · exact List.forall_mem_cons.2 ⟨hv, hvariables⟩

/-- What an expression with two parts is made of is told by these. -/
theorem madeOf_of_append {c : Expression} (hatoms : c.atoms = a.atoms ++ b.atoms)
    (hvariables : c.binderVariables = a.binderVariables ++ b.binderVariables) :
    c.MadeOf P Q ↔ a.MadeOf P Q ∧ b.MadeOf P Q := by
  constructor
  · rintro ⟨h, h'⟩
    rw [hatoms, List.forall_mem_append] at h
    rw [hvariables, List.forall_mem_append] at h'
    exact ⟨⟨h.1, h'.1⟩, h.2, h'.2⟩
  · rintro ⟨⟨ha, ha'⟩, hb, hb'⟩
    refine ⟨?_, ?_⟩
    · rw [hatoms, List.forall_mem_append]
      exact ⟨ha, hb⟩
    · rw [hvariables, List.forall_mem_append]
      exact ⟨ha', hb'⟩

theorem madeOf_implies : (implies a b).MadeOf P Q ↔ a.MadeOf P Q ∧ b.MadeOf P Q :=
  madeOf_of_append rfl rfl

theorem madeOf_equals : (equals a b).MadeOf P Q ↔ a.MadeOf P Q ∧ b.MadeOf P Q :=
  madeOf_of_append rfl rfl

theorem madeOf_application {items : List Expression} :
    (application items).MadeOf P Q ↔ ∀ e ∈ items, e.MadeOf P Q := by
  have hatoms : (application items).atoms = items.flatMap atoms := atomsIn_eq_flatMap items
  have hvariables : (application items).binderVariables = items.flatMap binderVariables :=
    binderVariablesIn_eq_flatMap items
  constructor
  · rintro ⟨h, h'⟩ e he
    rw [hatoms, List.forall_mem_flatMap] at h
    rw [hvariables, List.forall_mem_flatMap] at h'
    exact ⟨h e he, h' e he⟩
  · intro h
    refine ⟨?_, ?_⟩
    · rw [hatoms, List.forall_mem_flatMap]
      exact fun e he ↦ (h e he).atoms
    · rw [hvariables, List.forall_mem_flatMap]
      exact fun e he ↦ (h e he).binderVariables

theorem madeOf_binders {kind : BinderKind} {vs : List Variable} :
    (binders kind vs e).MadeOf P Q ↔ (∀ v ∈ vs, Q v) ∧ e.MadeOf P Q := by
  induction vs with
  | nil => exact ⟨fun h ↦ ⟨nofun, h⟩, fun h ↦ h.2⟩
  | cons v rest ih =>
    rw [List.forall_mem_cons, and_assoc, ← ih]
    exact madeOf_binder

end Expression

/-- Whether an atom is printed as one token that is read back as it is. -/
def Atom.Legible : Atom → Prop
  | text contents => ∀ c ∈ contents.toList, Quoted.IsPlain c
  | a => IsWord a.print

/-- Whether all atoms and all variables of binders are printed as tokens. -/
abbrev Expression.Legible (e : Expression) : Prop := e.MadeOf Atom.Legible fun v ↦ IsWord v.text

/-! ### Spelling -/

/-- An atom as an s-expression. -/
def Atom.spelling : Atom → SExpr
  | text contents => .quotation contents .start
  | a => .word a.print .start

namespace SExpr

/-- A list that begins with a word. -/
def form (head : String) (args : List SExpr) : SExpr := list .start (word head .start :: args)

/-- The texts of variables in brackets. -/
def names (vs : List Variable) : SExpr := list .start (vs.map fun v ↦ word v.text .start)

/-- Whether an s-expression writes an expression in full. -/
inductive Spells : SExpr → Expression → Prop
  | atom (a : Atom) : Spells a.spelling (.atom a)
  | binders (kind : BinderKind) {vs : List Variable} {x : SExpr} {e : Expression} (hne : vs ≠ [])
    (h : Spells x e) : Spells (form kind.keyword [names vs, x]) (.binders kind vs e)
  | rules {xs : List SExpr} {parts : List Expression} (hlength : 2 ≤ parts.length)
    (h : List.Forall₂ Spells xs parts) :
    Spells (form "->" xs) (.rules parts.dropLast (parts.getLastD default))
  | equals {x y : SExpr} {a b : Expression} (hx : Spells x a) (hy : Spells y b) :
    Spells (form "=" [x, y]) (.equals a b)
  | application {xs : List SExpr} {es : List Expression} (h : List.Forall₂ Spells xs es) :
    Spells (list .start xs) (.application es)

/-- Induction with a hypothesis for every item of a list. -/
@[elab_as_elim]
theorem Spells.induction {P : SExpr → Expression → Prop} (atom : ∀ a, P a.spelling (.atom a))
    (binders : ∀ kind vs x e, vs ≠ [] → P x e →
      P (form kind.keyword [names vs, x]) (.binders kind vs e))
    (rules : ∀ xs parts, 2 ≤ parts.length → List.Forall₂ P xs parts →
      P (form "->" xs) (.rules parts.dropLast (parts.getLastD default)))
    (equals : ∀ x y a b, P x a → P y b → P (form "=" [x, y]) (.equals a b))
    (application : ∀ xs es, List.Forall₂ (fun x e ↦ x.Spells e ∧ P x e) xs es →
      P (list .start xs) (.application es))
    {x : SExpr} {e : Expression} (h : x.Spells e) : P x e :=
  Spells.rec (motive_1 := fun x e _ ↦ P x e)
    (motive_2 := fun xs es _ ↦ List.Forall₂ (fun x e ↦ Spells x e ∧ P x e) xs es) atom
    (fun kind _ _ _ hne _ ih ↦ binders kind _ _ _ hne ih)
    (fun hlength _ ih ↦ rules _ _ hlength (ih.imp fun _ _ h ↦ h.2))
    (fun _ _ ihx ihy ↦ equals _ _ _ _ ihx ihy) (fun _ ih ↦ application _ _ ih) .nil
    (fun h _ ih ihs ↦ .cons ⟨h, ih⟩ ihs) h

end SExpr

namespace Expression

open Layout SExpr

/-- A legible atom is printed as the token that spells it. -/
theorem scans_spelling {a : Atom} (h : a.Legible) : Scans a.print.toList a.spelling.lexemes := by
  cases a with
  | text contents =>
    have hscans := scans_encode_of_isPlain h
    rw [String.ofList_toList] at hscans
    rwa [Atom.print, quoted, String.toList_ofList]
  | symbol | number | var | hole => exact IsWord.scans h

/-- Names with spaces between them are as many words. -/
theorem scans_intercalate {vs : List Variable} (h : ∀ v ∈ vs, IsWord v.text) :
    Scans (" ".intercalate (vs.map Variable.text)).toList
      (lexemesAll (vs.map fun v ↦ word v.text .start)) := by
  rw [String.toList_intercalate]
  induction vs with
  | nil => exact .nil
  | cons v rest ih =>
    obtain ⟨hv, hrest⟩ := List.forall_mem_cons.1 h
    cases rest with
    | nil => simpa [lexemesAll, SExpr.lexemes] using hv.scans
    | cons w rest =>
      have heq : " ".toList.intercalate (((v :: w :: rest).map Variable.text).map String.toList) =
          v.text.toList ++
            ' ' :: " ".toList.intercalate (((w :: rest).map Variable.text).map String.toList) := by
        simp only [List.map_cons, List.intercalate_cons_cons, List.append_assoc]
        rfl
      rw [heq]
      exact hv.scans.append_blank (ih hrest)

/-- The words of the three binders are words. -/
theorem isWord_keyword (kind : BinderKind) : IsWord kind.keyword := by
  cases kind <;> decide

/-- The head of a binder is its word and the list of its names. -/
theorem toList_binderHead (kind : BinderKind) (vs : List Variable) :
    (kind.keyword ++ " (" ++ " ".intercalate (vs.map Variable.text) ++ ")").toList =
      kind.keyword.toList ++
        ' ' :: '(' :: ((" ".intercalate (vs.map Variable.text)).toList ++ [')']) := by
  simp only [String.toList_append, List.append_assoc]
  rfl

/-- So it is scanned as these, although it is printed as one piece. -/
theorem scansAs_binderHead (kind : BinderKind) {vs : List Variable} (h : ∀ v ∈ vs, IsWord v.text) :
    (binderHead kind vs).ScansAs ((.word, kind.keyword) :: (names vs).lexemes) := by
  have hnames : Scans ('(' :: ((" ".intercalate (vs.map Variable.text)).toList ++ [')']))
      (names vs).lexemes := (scans_intercalate h).append_closing.opening
  rw [binderHead, ScansAs, toList_binderHead]
  exact (isWord_keyword kind).scans.append_blank hnames

end Expression

/-! ### What is printed for an expression -/

namespace Layout

open Expression SExpr

/-- Whether what is printed is an s-expression that spells an expression. -/
def Prints (l : Layout) (e : Expression) : Prop :=
  ∃ x : SExpr, x.Spells e ∧ l.ScansAs x.lexemes

/-- Whether items are printed as s-expressions that spell some expressions. -/
def ItemsPrint (items : List Layout) (es : List Expression) : Prop :=
  ∃ xs : List SExpr, List.Forall₂ Spells xs es ∧ ItemsScanAs items (lexemesAll xs)

variable {l head : Layout} {items rest : List Layout} {e : Expression} {es : List Expression}

theorem ItemsPrint.nil : ItemsPrint [] [] := ⟨[], .nil, rfl⟩

/-- Items are printed one after the other. -/
theorem ItemsPrint.cons (h : l.Prints e) (hrest : ItemsPrint rest es) :
    ItemsPrint (l :: rest) (e :: es) := by
  obtain ⟨x, hx, hscans⟩ := h
  obtain ⟨xs, hxs, hitems⟩ := hrest
  exact ⟨x :: xs, .cons hx hxs, x.lexemes, lexemesAll xs, hscans, hitems, rfl⟩

/-- An atom is printed as a piece. -/
theorem prints_atom {a : Atom} (h : a.Legible) : (piece a.print).Prints (.atom a) :=
  ⟨a.spelling, .atom a, by rw [ScansAs]; exact scans_spelling h⟩

/-- Binders of one kind may share one list of variables. -/
theorem Prints.binders (h : l.Prints e) (kind : BinderKind) {vs : List Variable} (hne : vs ≠ [])
    (hvs : ∀ v ∈ vs, IsWord v.text) :
    (list (binderHead kind vs) [l]).Prints (.binders kind vs e) := by
  obtain ⟨x, hx, hscans⟩ := h
  refine ⟨form kind.keyword [names vs, x], .binders kind hne hx, ?_⟩
  rw [ScansAs]
  refine ⟨_, x.lexemes, scansAs_binderHead kind hvs, ?_, ?_⟩
  · exact ⟨x.lexemes, [], hscans, rfl, (List.append_nil _).symm⟩
  · simp [form, SExpr.lexemes, lexemesAll]

/-- A list that begins with a word of its own is scanned as that form. -/
theorem scansAs_form {word : String} (h : IsWord word) {xs : List SExpr}
    (hitems : ItemsScanAs items (lexemesAll xs)) :
    (list (piece word) items).ScansAs (form word xs).lexemes := by
  rw [ScansAs]
  exact ⟨[(.word, word)], lexemesAll xs, by rw [ScansAs]; exact h.scans, hitems, rfl⟩

/-- Rules share a list, the last item of which is the conclusion. -/
theorem ItemsPrint.rules (h : ItemsPrint items es) (hlength : 2 ≤ es.length) :
    (list (piece "->") items).Prints (.rules es.dropLast (es.getLastD default)) := by
  obtain ⟨xs, hxs, hitems⟩ := h
  exact ⟨form "->" xs, .rules hlength hxs, scansAs_form (by decide) hitems⟩

theorem Prints.equals {l' : Layout} {a b : Expression} (h : l.Prints a) (h' : l'.Prints b) :
    (list (piece "=") [l, l']).Prints (.equals a b) := by
  obtain ⟨x, hx, hscans⟩ := h
  obtain ⟨y, hy, hscans'⟩ := h'
  refine ⟨form "=" [x, y], .equals hx hy, scansAs_form (by decide) ?_⟩
  exact ⟨_, _, hscans, ⟨_, _, hscans', rfl, rfl⟩, rfl⟩

/-- Applications are printed with their parts as items, the head first. -/
theorem Prints.application (h : head.Prints e) (hrest : ItemsPrint rest es) :
    (list head rest).Prints (.application (e :: es)) := by
  obtain ⟨x, hx, hscans⟩ := h
  obtain ⟨xs, hxs, hitems⟩ := hrest
  refine ⟨.list .start (x :: xs), .application (.cons hx hxs), ?_⟩
  rw [ScansAs]
  exact ⟨x.lexemes, lexemesAll xs, hscans, hitems, rfl⟩

/-- The application of nothing is printed as a pair of brackets. -/
theorem prints_unit : (piece "()").Prints (.application []) := by
  refine ⟨.list .start [], .application .nil, ?_⟩
  rw [ScansAs]
  exact Scans.nil.closing.opening

end Layout

namespace Expression

open Layout

/-- The last quantifier of a row is the innermost. -/
theorem alls_append_singleton (vs : List Variable) (v : Variable) (e : Expression) :
    alls (vs ++ [v]) e = alls vs (all v e) := by
  rw [alls, alls, List.foldr_append]
  rfl

/-- The first part of a row of rules is the outermost condition. -/
theorem rules_cons_parts (c : Expression) {parts : List Expression} (hne : parts ≠ []) :
    rules (c :: parts).dropLast ((c :: parts).getLastD default) =
      implies c (rules parts.dropLast (parts.getLastD default)) := by
  obtain ⟨d, rest, rfl⟩ := List.exists_cons_of_ne_nil hne
  rw [List.dropLast_cons_cons, rules, List.foldr_cons, List.getLastD_cons]
  rfl

/-- What holds of a rule if it holds of both sides holds if it does of all conditions and of the
conclusion. -/
theorem forall_parts_iff {C : Expression → Prop} (hC : ∀ a b, C (implies a b) ↔ C a ∧ C b)
    {parts : List Expression} (hne : parts ≠ []) :
    C (rules parts.dropLast (parts.getLastD default)) ↔ ∀ e ∈ parts, C e := by
  induction parts with
  | nil => exact absurd rfl hne
  | cons c rest ih =>
    rcases eq_or_ne rest [] with rfl | hrest
    · simp [rules]
    · rw [rules_cons_parts c hrest, hC, ih hrest, List.forall_mem_cons]

/-- Induction over expressions as they are laid out: binders that share a list of variables, and all
parts of a rule, at once. -/
theorem layoutInduction {P : Layout → Expression → Prop} (atom : ∀ a, P (.piece a.print) (.atom a))
    (binders : ∀ kind vs l e, vs ≠ [] → P l e →
      P (.list (binderHead kind vs) [l]) (.binders kind vs e))
    (rules : ∀ items parts, 2 ≤ parts.length → List.Forall₂ P items parts →
      P (.list (.piece "->") items) (.rules parts.dropLast (parts.getLastD default)))
    (equals : ∀ l l' a b, P l a → P l' b → P (.list (.piece "=") [l, l']) (.equals a b))
    (unit : P (.piece "()") (.application []))
    (application : ∀ head rest e es, P head e → List.Forall₂ P rest es →
      P (.list head rest) (.application (e :: es)))
    (e : Expression) : P e.layout e := by
  -- The parts of a rule and the variables of nested quantifiers are collected before they are laid
  -- out, so what is said of these two says which expression they are collected from.
  refine layout.induct (fun e ↦ P e.layout e) (fun es ↦ List.Forall₂ P (layoutItems es) es)
    (fun e ↦ ∃ parts, List.Forall₂ P (layoutRules e) parts ∧ parts ≠ [] ∧
      Expression.rules parts.dropLast (parts.getLastD default) = e)
    (fun vs e ↦ vs ≠ [] → P (layoutAlls vs e) (alls vs e))
    ?atom ?all ?binder ?implies ?equals ?unit ?application ?nil ?cons ?condition ?conclusion
    ?moreAlls ?lastAll e
  case atom =>
    intro a
    rw [layout]
    exact atom a
  case all =>
    intro v body ih
    rw [layout]
    exact ih (List.cons_ne_nil _ _)
  case binder =>
    intro kind v body hkind ih
    rw [layout.eq_3 _ _ _ hkind]
    exact binders kind [v] body.layout body (List.cons_ne_nil _ _) ih
  case implies =>
    intro c d ihc ihd
    obtain ⟨parts, hparts, hne, hrules⟩ := ihd
    have hlength : 2 ≤ (c :: parts).length := Nat.succ_le_succ (List.length_pos_iff.2 hne)
    have hall := rules _ (c :: parts) hlength (.cons ihc hparts)
    rw [rules_cons_parts c hne, hrules] at hall
    rwa [layout]
  case equals =>
    intro a b iha ihb
    rw [layout]
    exact equals _ _ a b iha ihb
  case unit =>
    rw [layout]
    exact unit
  case application =>
    intro head rest ihhead ihrest
    rw [layout]
    exact application _ _ head rest ihhead ihrest
  case nil =>
    rw [layoutItems]
    exact .nil
  case cons =>
    intro e rest ihe ihrest
    rw [layoutItems]
    exact .cons ihe ihrest
  case condition =>
    intro c d ihc ihd
    obtain ⟨parts, hparts, hne, hrules⟩ := ihd
    refine ⟨c :: parts, ?_, List.cons_ne_nil c parts, ?_⟩
    · rw [layoutRules]
      exact .cons ihc hparts
    · rw [rules_cons_parts c hne, hrules]
  case conclusion =>
    intro e hrule ihe
    refine ⟨[e], ?_, List.cons_ne_nil e [], rfl⟩
    rw [layoutRules.eq_2 _ hrule]
    exact .cons ihe .nil
  case moreAlls =>
    intro vs v body ih hne
    have hall := ih (by simp)
    rw [alls_append_singleton] at hall
    rw [layoutAlls]
    exact hall
  case lastAll =>
    intro vs e hall ihe hne
    rw [layoutAlls.eq_2 _ _ hall]
    exact binders .universal vs _ e hne ihe

/-- **What is printed spells the expression.** -/
theorem prints_layout {e : Expression} (h : e.Legible) : e.layout.Prints e := by
  have hitems : ∀ {items : List Layout} {es : List Expression},
      List.Forall₂ (fun l e ↦ e.Legible → l.Prints e) items es → (∀ e ∈ es, e.Legible) →
        ItemsPrint items es := by
    intro items es hprints
    induction hprints with
    | nil => exact fun _ ↦ .nil
    | cons hl _ ih =>
      intro hes
      obtain ⟨he, hrest⟩ := List.forall_mem_cons.1 hes
      exact (ih hrest).cons (hl he)
  refine layoutInduction (P := fun l e ↦ e.Legible → l.Prints e)
    ?atom ?binders ?rules ?equals ?unit ?application e h
  case atom => exact fun a h ↦ prints_atom (madeOf_atom.1 h)
  case binders =>
    intro kind vs l e hne ih h
    obtain ⟨hvs, he⟩ := madeOf_binders.1 h
    exact (ih he).binders kind hne hvs
  case rules =>
    intro items parts hlength ih h
    have hne : parts ≠ [] := List.length_pos_iff.1 (by omega)
    exact (hitems ih ((forall_parts_iff (fun _ _ ↦ madeOf_implies) hne).1 h)).rules hlength
  case equals =>
    intro l l' a b ih ih' h
    obtain ⟨ha, hb⟩ := madeOf_equals.1 h
    exact (ih ha).equals (ih' hb)
  case unit => exact fun _ ↦ prints_unit
  case application =>
    intro head rest e es ihhead ihrest h
    obtain ⟨he, hes⟩ := List.forall_mem_cons.1 (madeOf_application.1 h)
    exact (ihhead he).application (hitems ihrest hes)

/-- **An expression is printed as an s-expression that spells it.** -/
theorem exists_spells_print {e : Expression} (h : e.Legible) :
    ∃ x : SExpr, x.Spells e ∧ Scans e.print.toList x.lexemes := by
  obtain ⟨x, hx, hscans⟩ := prints_layout h
  refine ⟨x, hx, ?_⟩
  rw [print, toList_print]
  exact scans_place hscans _ _ _ _

end Expression

end NaturalDeduction
