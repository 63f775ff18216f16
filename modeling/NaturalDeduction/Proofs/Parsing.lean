import NaturalDeduction.Proofs.Reading
import NaturalDeduction.Proofs.Scanning

/-!
# What is parsed

The lexemes of an s-expression say everything about it but the places. So text that scans as the
lexemes of some s-expressions is parsed to these s-expressions, with other places
(`SExpr.exists_parse_of_scans`). And whatever text is parsed, all words in it are words
(`SExpr.worded_of_mem_parse`).

Places are only used in errors: two s-expressions that differ in nothing but places are read as the
same expression, and draw the same variables (`SExpr.read_unplaced`).

Main definitions and statements:

* `SExpr.unplaced`, `SExpr.lexemes`: an s-expression without its places, and the tokens it is made
  of.
* `Builder.Builds`: the invariant of the parser. Tokens of an s-expression add it to whatever was
  built before, so it is used for items inside lists as well.
* `SExpr.exists_parse_of_scans`, `SExpr.worded_of_mem_parse`, `SExpr.read_of_unplaced_eq`.
-/

namespace NaturalDeduction

namespace SExpr

/-! ### Without places -/

mutual

/-- The s-expression with every place forgotten. -/
def unplaced : SExpr → SExpr
  | word text _ => word text .start
  | quotation contents _ => quotation contents .start
  | list _ items => list .start (unplacedAll items)

/-- The items with every place forgotten. -/
def unplacedAll : List SExpr → List SExpr
  | [] => []
  | e :: rest => e.unplaced :: unplacedAll rest

end

/-- Places are taken out item by item. -/
theorem unplacedAll_eq_map (es : List SExpr) : unplacedAll es = es.map unplaced := by
  induction es with
  | nil => rfl
  | cons e rest ih => rw [unplacedAll, ih, List.map_cons]

mutual

/-- The tokens that an s-expression is made of, without their places. -/
def lexemes : SExpr → List Lexeme
  | word text _ => [(.word, text)]
  | quotation contents _ => [(.quotation, contents)]
  | list _ items => (.opening, "(") :: (lexemesAll items ++ [(.closing, ")")])

/-- The tokens that items are made of. -/
def lexemesAll : List SExpr → List Lexeme
  | [] => []
  | e :: rest => e.lexemes ++ lexemesAll rest

end

/-! ### Building -/

namespace Builder

/-- Outside all lists, items are collected in reverse. -/
theorem foldl_add_top (es items : List SExpr) :
    es.foldl add ⟨[], items⟩ = ⟨[], es.reverse ++ items⟩ := by
  induction es generalizing items with
  | nil => rfl
  | cons e rest ih =>
    rw [List.foldl_cons, add, ih, List.reverse_cons, List.append_assoc]
    rfl

theorem foldl_add_open (es : List SExpr) (l : OpenList) (outer : List OpenList)
    (items : List SExpr) :
    es.foldl add ⟨l :: outer, items⟩ =
      ⟨{ l with items := es.reverse ++ l.items } :: outer, items⟩ := by
  induction es generalizing l with
  | nil => rfl
  | cons e rest ih =>
    rw [List.foldl_cons, add, ih, List.reverse_cons, List.append_assoc]
    rfl

/-- Whether the tokens of an s-expression build it, with some places. -/
def Builds (e : SExpr) : Prop :=
  ∀ (ts : List Token) (b : Builder), ts.map Token.lexeme = e.lexemes →
    ∃ e', e'.unplaced = e.unplaced ∧ ts.foldlM step b = .ok (b.add e')

/-- The step from items to lists of them. -/
theorem exists_foldlM_step {es : List SExpr} (h : ∀ e ∈ es, Builds e) {ts : List Token}
    (b : Builder) (hts : ts.map Token.lexeme = lexemesAll es) :
    ∃ es' : List SExpr, es'.map unplaced = es.map unplaced ∧
      ts.foldlM step b = .ok (es'.foldl add b) := by
  induction es generalizing ts b with
  | nil =>
    rw [List.map_eq_nil_iff.1 hts]
    exact ⟨[], rfl, rfl⟩
  | cons e rest ih =>
    obtain ⟨he, hrest⟩ := List.forall_mem_cons.1 h
    obtain ⟨first, last, rfl, hfirst, hlast⟩ := List.map_eq_append_iff.1 hts
    obtain ⟨e', heq, hrun⟩ := he first b hfirst
    obtain ⟨es', heqs, hruns⟩ := ih hrest (b.add e') hlast
    refine ⟨e' :: es', by rw [List.map_cons, List.map_cons, heq, heqs], ?_⟩
    rw [List.foldlM_append, hrun]
    exact hruns

/-- The lexemes of an s-expression build it, whatever was built in front. -/
theorem builds (e : SExpr) : Builds e := by
  induction e with
  | word text position =>
    intro ts b hts
    obtain ⟨t, rest, rfl, ht, hrest⟩ := List.map_eq_cons_iff.1 hts
    obtain ⟨hkind, rfl⟩ := Prod.mk.inj ht
    rw [List.map_eq_nil_iff.1 hrest]
    refine ⟨word t.text t.position, rfl, ?_⟩
    rw [List.foldlM_cons, step, hkind]
    rfl
  | quotation contents position =>
    intro ts b hts
    obtain ⟨t, rest, rfl, ht, hrest⟩ := List.map_eq_cons_iff.1 hts
    obtain ⟨hkind, rfl⟩ := Prod.mk.inj ht
    rw [List.map_eq_nil_iff.1 hrest]
    refine ⟨quotation t.text t.position, rfl, ?_⟩
    rw [List.foldlM_cons, step, hkind]
    rfl
  | list position items ih =>
    intro ts b hts
    rw [lexemes] at hts
    obtain ⟨t, rest, rfl, ht, hrest⟩ := List.map_eq_cons_iff.1 hts
    -- the lexemes of a list are those of its items, between two parentheses
    obtain ⟨inner, last, rfl, hinner, hlast⟩ := List.map_eq_append_iff.1 hrest
    obtain ⟨t', nothing, rfl, ht', hnothing⟩ := List.map_eq_cons_iff.1 hlast
    have hkind : t.kind = .opening := (Prod.mk.inj ht).1
    have hkind' : t'.kind = .closing := (Prod.mk.inj ht').1
    let opened : Builder := { b with openLists := ⟨t.position, []⟩ :: b.openLists }
    obtain ⟨es', heqs, hruns⟩ := exists_foldlM_step ih opened hinner
    have hopen : step b t = .ok opened := by rw [step, hkind]
    -- the items stand in reverse in the open list, and closing it turns them around
    have hclose : step (es'.foldl add opened) t' = .ok (b.add (list t.position es')) := by
      rw [foldl_add_open, step, hkind', List.append_nil]
      dsimp only
      rw [List.reverse_reverse]
    refine ⟨list t.position es', ?_, ?_⟩
    · rw [unplaced, unplaced, unplacedAll_eq_map, unplacedAll_eq_map, heqs]
    · rw [List.map_eq_nil_iff.1 hnothing, List.foldlM_cons, hopen]
      show (inner ++ [t']).foldlM step opened = _
      rw [List.foldlM_append, hruns]
      show [t'].foldlM step (es'.foldl add opened) = _
      rw [List.foldlM_cons, hclose]
      rfl

end Builder

/-- **Text that scans as s-expressions is parsed to them.** -/
theorem exists_parse_of_scans {text : String} {es : List SExpr}
    (h : Scanner.Scans text.toList (lexemesAll es)) :
    ∃ es', parse text = .ok es' ∧ es'.map unplaced = es.map unplaced := by
  obtain ⟨ts, hts, hlexemes⟩ := exists_tokens_of_scans h
  obtain ⟨es', heqs, hruns⟩ :=
    Builder.exists_foldlM_step (fun e _ ↦ Builder.builds e) .start hlexemes
  refine ⟨es', ?_, heqs⟩
  rw [parse, hts]
  show ofTokens ts = _
  rw [ofTokens, hruns]
  show (es'.foldl Builder.add ⟨[], []⟩).finish = _
  rw [Builder.foldl_add_top, Builder.finish, List.append_nil, List.reverse_reverse]

/-- The same for a text that is to hold one s-expression. -/
theorem exists_parseOne_of_scans {text : String} {e : SExpr}
    (h : Scanner.Scans text.toList e.lexemes) :
    ∃ e', parseOne text = .ok e' ∧ e'.unplaced = e.unplaced := by
  have hscans : Scanner.Scans text.toList (lexemesAll [e]) := by
    rwa [lexemesAll, lexemesAll, List.append_nil]
  obtain ⟨es', hparse, heqs⟩ := exists_parse_of_scans hscans
  obtain ⟨e', rest, rfl, he, hrest⟩ := List.map_eq_cons_iff.1 heqs
  rw [List.map_eq_nil_iff.1 hrest] at hparse
  exact ⟨e', by rw [parseOne, hparse]; rfl, he⟩

/-! ### Words -/

/-- A sequence that succeeds has two parts that do. -/
theorem exists_of_bind_eq_ok {α β : Type} {x : Except SyntaxError α} {f : α → Except SyntaxError β}
    {b : β} (h : (x >>= f) = .ok b) : ∃ a, x = .ok a ∧ f a = .ok b := by
  cases x with
  | error e => cases h
  | ok a => exact ⟨a, rfl, h⟩

/-- Whether every word in an s-expression is a word. -/
inductive Worded : SExpr → Prop
  | word {text : String} (position : Position) (h : IsWord text) : Worded (word text position)
  | quotation (contents : String) (position : Position) : Worded (quotation contents position)
  | list (position : Position) {items : List SExpr} (h : ∀ e ∈ items, Worded e) :
    Worded (list position items)

/-- All words in a list are words if they are in its items. -/
theorem worded_list {position : Position} {items : List SExpr} :
    (list position items).Worded ↔ ∀ e ∈ items, e.Worded :=
  ⟨fun h ↦ by cases h with | list _ hitems => exact hitems, .list position⟩

/-- Whether every word in what is built is a word. -/
structure Builder.Worded (b : Builder) : Prop where
  items : ∀ e ∈ b.items, e.Worded
  openLists : ∀ l ∈ b.openLists, ∀ e ∈ l.items, e.Worded

namespace Builder

variable {b b' : Builder}

theorem Worded.add (hb : b.Worded) {e : SExpr} (he : e.Worded) : (b.add e).Worded := by
  obtain ⟨openLists, items⟩ := b
  obtain ⟨hitems, hopen⟩ := hb
  cases openLists with
  | nil => exact ⟨List.forall_mem_cons.2 ⟨he, hitems⟩, hopen⟩
  | cons l outer =>
    obtain ⟨hl, houter⟩ := List.forall_mem_cons.1 hopen
    exact ⟨hitems, List.forall_mem_cons.2 ⟨List.forall_mem_cons.2 ⟨he, hl⟩, houter⟩⟩

theorem Worded.step (hb : b.Worded) {t : Token} (ht : t.kind = .word → IsWord t.text)
    (hstep : b.step t = .ok b') : b'.Worded := by
  unfold Builder.step at hstep
  split at hstep
  · cases hstep
    exact hb.add (.word _ (ht ‹_›))
  · cases hstep
    exact hb.add (.quotation _ _)
  · cases hstep
    exact ⟨hb.items, List.forall_mem_cons.2 ⟨nofun, hb.openLists⟩⟩
  · split at hstep
    · cases hstep
    · rename_i l outer hopen
      cases hstep
      have hlists := hb.openLists
      rw [hopen] at hlists
      obtain ⟨hl, houter⟩ := List.forall_mem_cons.1 hlists
      have hrest : Worded { b with openLists := outer } := ⟨hb.items, houter⟩
      exact hrest.add (.list _ fun e he ↦ hl e (List.mem_reverse.1 he))

/-- Every token keeps it that all words are words, so a text does. -/
theorem Worded.foldlM (hb : b.Worded) {ts : List Token}
    (hts : ∀ t ∈ ts, t.kind = .word → IsWord t.text) (hrun : ts.foldlM Builder.step b = .ok b') :
    b'.Worded := by
  induction ts generalizing b with
  | nil =>
    cases hrun
    exact hb
  | cons t rest ih =>
    obtain ⟨ht, hrest⟩ := List.forall_mem_cons.1 hts
    rw [List.foldlM_cons] at hrun
    obtain ⟨next, hstep, hnext⟩ := exists_of_bind_eq_ok hrun
    exact ih (hb.step ht hstep) hrest hnext

end Builder

/-- **Every word of what is parsed is a word.** -/
theorem worded_of_mem_parse {text : String} {es : List SExpr} (h : parse text = .ok es) {e : SExpr}
    (he : e ∈ es) : e.Worded := by
  obtain ⟨ts, hts, hbuild⟩ := exists_of_bind_eq_ok h
  obtain ⟨b, hrun, hfinish⟩ := exists_of_bind_eq_ok hbuild
  have hstart : Builder.start.Worded := ⟨nofun, nofun⟩
  have hb := hstart.foldlM (fun t ht ↦ isWord_of_mem_tokens hts ht) hrun
  unfold Builder.finish at hfinish
  split at hfinish
  · cases hfinish
    exact hb.items e (List.mem_reverse.1 he)
  · cases hfinish

/-- The one s-expression of a text is among those that are parsed. -/
theorem worded_of_parseOne {text : String} {e : SExpr} (h : parseOne text = .ok e) : e.Worded := by
  obtain ⟨es, hparse, hone⟩ := exists_of_bind_eq_ok h
  rcases es with _ | ⟨first, _ | ⟨second, rest⟩⟩
  · cases hone
  · cases hone
    exact worded_of_mem_parse hparse List.mem_cons_self
  · cases hone

end SExpr

/-! ### Reading -/

/-- Whether two readings have one result and draw the same, wherever their errors are. -/
def Agree {α : Type} (act act' : Reading α) (s : ReadState) : Prop :=
  (act.run.run s).1.toOption = (act'.run.run s).1.toOption ∧ (act.run.run s).2 = (act'.run.run s).2

namespace Agree

variable {α β : Type} {s : ReadState}

theorem refl (act : Reading α) (s : ReadState) : Agree act act s := ⟨rfl, rfl⟩

/-- Faults agree whatever they are, since places are part of them. -/
theorem throw (e e' : SyntaxError) :
    Agree (MonadExcept.throw e : Reading α) (MonadExcept.throw e') s := ⟨rfl, rfl⟩

theorem throw_bind {next next' : PUnit → Reading α} (e e' : SyntaxError) :
    Agree (MonadExcept.throw e >>= next) (MonadExcept.throw e' >>= next') s := ⟨rfl, rfl⟩

/-- Readings that agree go on from the same state. -/
theorem bind {act act' : Reading α} {next next' : α → Reading β} (h : Agree act act' s)
    (hnext : ∀ a t, Agree (next a) (next' a) t) : Agree (act >>= next) (act' >>= next') s := by
  obtain ⟨hresult, hstate⟩ := h
  rw [Agree, run_bind_eq, run_bind_eq]
  revert hresult hstate
  rcases act.run.run s with ⟨⟨e⟩ | ⟨a⟩, t⟩ <;> rcases act'.run.run s with ⟨⟨e'⟩ | ⟨a'⟩, t'⟩ <;>
    intro hresult hstate
  · exact ⟨rfl, hstate⟩
  · cases hresult
  · cases hresult
  · cases hresult
    cases hstate
    exact hnext a t

/-- Where one succeeds, the other has the same result. -/
theorem exists_ok {act act' : Reading α} (h : Agree act act' s) {a : α} {t : ReadState}
    (hact : act.run.run s = (.ok a, t)) : act'.run.run s = (.ok a, t) := by
  obtain ⟨hresult, hstate⟩ := h
  rw [hact] at hresult hstate
  revert hresult hstate
  rcases act'.run.run s with ⟨⟨e'⟩ | ⟨a'⟩, t'⟩ <;> intro hresult hstate
  · cases hresult
  · cases hresult
    cases hstate
    rfl

end Agree

namespace SExpr

open Reading

theorem word?_unplaced (e : SExpr) : e.unplaced.word? = e.word? := by cases e <;> rfl

theorem binderNames_unplaced (e : SExpr) :
    binderNames e.unplaced = (binderNames e).map unplaced := by
  cases e with
  | list position items => exact unplacedAll_eq_map items
  | word | quotation => rfl

theorem bindNames_unplaced (names : List SExpr) (scope : Scope) (s : ReadState) :
    Agree (bindNames scope names) (bindNames scope (names.map unplaced)) s := by
  induction names generalizing scope s with
  | nil => exact .refl _ _
  | cons e rest ih =>
    cases e with
    | word name position =>
      exact (Agree.refl (fresh name) s).bind fun v t ↦ (ih _ t).bind fun p u ↦ .refl _ _
    | quotation | list => exact .throw _ _

/-- Items are read in turn. -/
theorem readAll_unplaced {es : List SExpr} {scope : Scope} {s : ReadState}
    (h : ∀ e ∈ es, ∀ t, Agree (e.read scope) (e.unplaced.read scope) t) :
    Agree (readAll scope es) (readAll scope (es.map unplaced)) s := by
  induction es generalizing s with
  | nil => exact .refl _ _
  | cons e rest ih =>
    obtain ⟨he, hrest⟩ := List.forall_mem_cons.1 h
    rw [List.map_cons, readAll, readAll]
    exact (he s).bind fun a t ↦ (ih hrest).bind fun as u ↦ .refl _ _

/-- A list without places stands at the start. -/
theorem unplaced_list (position : Position) (items : List SExpr) :
    (list position items).unplaced = list .start (items.map unplaced) := by
  rw [unplaced, unplacedAll_eq_map]

/-- **Places do not matter** for what is read. -/
theorem read_unplaced (e : SExpr) (scope : Scope) (s : ReadState) :
    Agree (e.read scope) (e.unplaced.read scope) s := by
  induction e using formInduction generalizing scope s with
  | word text position =>
    rw [read, unplaced, read, Reading.word, Reading.word]
    split
    · exact .refl _ _
    · split
      · exact .throw _ _
      · exact .refl _ _
      · exact .refl _ _
  | quotation contents position =>
    rw [unplaced, read, read]
    exact .refl _ _
  | unit position =>
    rw [unplaced_list, List.map_nil, read_unit, read_unit]
    exact .refl _ _
  | binder position head vars body kind hkind ih =>
    have hkind' : head.unplaced.binderKind? = some kind := by rwa [binderKind?, word?_unplaced]
    rw [unplaced_list, List.map_cons, List.map_cons, List.map_cons, List.map_nil, read_binder hkind,
      read_binder hkind', binderNames_unplaced, List.isEmpty_map]
    split
    · exact .throw_bind _ _
    · exact (bindNames_unplaced _ _ s).bind fun p t ↦ (ih p.1 t).bind fun e u ↦ .refl _ _
  | misshapen position head args kind hkind hargs =>
    have hkind' : head.unplaced.binderKind? = some kind := by rwa [binderKind?, word?_unplaced]
    have hargs' : (args.map unplaced).length ≠ 2 := by rwa [List.length_map]
    rw [unplaced_list, List.map_cons, read_misshapen hkind hargs, read_misshapen hkind' hargs']
    exact .throw _ _
  | arrow position head args hhead ih =>
    have hhead' : head.unplaced.word? = some "->" := by rwa [word?_unplaced]
    rw [unplaced_list, List.map_cons, read_arrow hhead, read_arrow hhead', List.length_map]
    split
    · exact .throw_bind _ _
    · exact (readAll_unplaced fun e he t ↦ ih e he scope t).bind fun parts t ↦ .refl _ _
  | equation position head args hhead ih =>
    have hhead' : head.unplaced.word? = some "=" := by rwa [word?_unplaced]
    rw [unplaced_list, List.map_cons, read_equation hhead, read_equation hhead']
    rcases args with _ | ⟨left, _ | ⟨right, _ | ⟨_, _⟩⟩⟩
    · exact .throw _ _
    · exact .throw _ _
    · refine (ih left (by simp) scope s).bind fun a t ↦ ?_
      exact (ih right (by simp) scope t).bind fun b u ↦ .refl _ _
    · exact .throw _ _
  | application position head args hhead ih =>
    have hhead' : ∀ name ∈ keywords, head.unplaced.word? ≠ some name := by rwa [word?_unplaced]
    have hall := readAll_unplaced (s := s) fun e he t ↦ ih e he scope t
    rw [unplaced_list, List.map_cons, read_application hhead, read_application hhead']
    exact hall.bind fun items t ↦ .refl _ _

/-- S-expressions that differ in places only are read alike. -/
theorem read_of_unplaced_eq {e e' : SExpr} (h : e'.unplaced = e.unplaced) {scope : Scope}
    {s t : ReadState} {result : Expression} (hread : (e.read scope).run.run s = (.ok result, t)) :
    (e'.read scope).run.run s = (.ok result, t) := by
  have hplain := (read_unplaced e scope s).exists_ok hread
  rw [← h] at hplain
  have hagree := read_unplaced e' scope s
  exact Agree.exists_ok ⟨hagree.1.symm, hagree.2.symm⟩ hplain

end SExpr

end NaturalDeduction
