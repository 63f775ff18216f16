import NaturalDeduction.Proofs.Parsing
import NaturalDeduction.Proofs.Places

/-!
# Balanced brackets

Tokens are balanced if no closing bracket comes before the opening one that it closes, and all are
closed in the end. That is said with a count of the brackets that are open (`opened`), and not with
the stack of lists that the parser keeps.

The parser accepts just the balanced tokens, and what it builds from them loses nothing but the
places of closing brackets: written out again, bracket by bracket and item by item, the items are
the tokens (`SExpr.flattenAll`). Otherwise the error stands at the first closing bracket that closes
nothing, or, if there is none, at the innermost bracket that is still open (`SExpr.Unmatched`).

All of this follows from what the parser has in hand behind some tokens (`SExpr.Holds`): each open
list began at an opening bracket, and everything behind this bracket went into finished items, up to
the bracket of the next open list.

The places of tokens are a parameter of `Lexed`, since they are counted in 32 bits: behind a line of
more than 4294967295 characters, or behind as many lines, the scanner starts again at 0. What is
said of brackets holds for both ways to count; the two agree on every text that is shorter than that
(`PlacesFit`).
-/

namespace NaturalDeduction

variable {ts us before after inner : List Token} {t t' : Token}

/-! ### Counting brackets -/

/-- What a token adds to the number of open brackets. -/
def TokenKind.opens : TokenKind → Int
  | .opening => 1
  | .closing => -1
  | .word => 0
  | .quotation => 0

/-- The number of brackets that tokens open, less the number of those that they close. -/
def opened : List Token → Int
  | [] => 0
  | t :: ts => t.kind.opens + opened ts

@[simp] theorem opened_nil : opened [] = 0 := rfl

@[simp] theorem opened_cons : opened (t :: ts) = t.kind.opens + opened ts := rfl

@[simp] theorem opened_append : opened (ts ++ us) = opened ts + opened us := by
  induction ts with
  | nil => exact (Int.zero_add _).symm
  | cons t ts ih => rw [List.cons_append, opened_cons, opened_cons, ih, Int.add_assoc]

/-- Whether every closing bracket closes one that is open. -/
def Closable (ts : List Token) : Prop := ∀ before after, ts = before ++ after → 0 ≤ opened before

/-- Whether every closing bracket closes one that is open, and every opening bracket is closed. -/
structure Balanced (ts : List Token) : Prop where
  closable : Closable ts
  opened_eq : opened ts = 0

/-- The tokens as a whole are a beginning of themselves. -/
theorem Closable.opened_nonneg (h : Closable ts) : 0 ≤ opened ts :=
  h ts [] (List.append_nil ts).symm

/-- More tokens may follow as long as they close no more than is open. -/
theorem Closable.append (h : Closable ts)
    (h' : ∀ before after, us = before ++ after → 0 ≤ opened ts + opened before) :
    Closable (ts ++ us) := by
  intro before after heq
  rcases List.append_eq_append_iff.1 heq with ⟨more, rfl, hus⟩ | ⟨more, hts, -⟩
  · rw [opened_append]
    exact h' more after hus
  · exact h before more hts

/-- In particular closable ones. -/
theorem Closable.append_closable (h : Closable ts) (h' : Closable us) : Closable (ts ++ us) :=
  h.append fun before after heq ↦ Int.add_nonneg h.opened_nonneg (h' before after heq)

theorem closable_nil : Closable [] := by
  intro before after heq
  obtain ⟨rfl, -⟩ := List.append_eq_nil_iff.1 heq.symm
  exact Int.le_refl 0

theorem closable_singleton (h : 0 ≤ t.kind.opens) : Closable [t] := by
  intro before after heq
  rcases List.append_eq_singleton_iff.1 heq.symm with ⟨rfl, -⟩ | ⟨rfl, -⟩
  · exact Int.le_refl 0
  · simpa using h

theorem balanced_nil : Balanced [] := ⟨closable_nil, rfl⟩

/-- Balanced tokens behind balanced tokens are balanced. -/
theorem Balanced.append (h : Balanced ts) (h' : Balanced us) : Balanced (ts ++ us) := by
  refine ⟨h.closable.append_closable h'.closable, ?_⟩
  rw [opened_append, h.opened_eq, h'.opened_eq]
  rfl

/-- An atom is balanced by itself. -/
theorem balanced_singleton (h : t.kind.opens = 0) : Balanced [t] :=
  ⟨closable_singleton (Int.le_of_eq h.symm), by simpa using h⟩

/-- An opening bracket in front can only help. -/
theorem closable_cons_of_opening (h : t.kind = .opening) (h' : Closable ts) :
    Closable (t :: ts) := by
  have ht : t.kind.opens = 1 := by rw [h]; rfl
  exact (closable_singleton (by omega)).append_closable h'

/-- Balanced tokens in a pair of brackets are balanced. -/
theorem Balanced.bracketed (h : Balanced inner) (ht : t.kind = .opening)
    (ht' : t'.kind = .closing) : Balanced (t :: inner ++ [t']) := by
  have hopens : t.kind.opens = 1 := by rw [ht]; rfl
  have hcloses : t'.kind.opens = -1 := by rw [ht']; rfl
  have hinner : opened (t :: inner) = 1 := by rw [opened_cons, hopens, h.opened_eq]; rfl
  refine ⟨(closable_cons_of_opening ht h.closable).append fun before after heq ↦ ?_, ?_⟩
  · rcases List.append_eq_singleton_iff.1 heq.symm with ⟨rfl, -⟩ | ⟨rfl, -⟩ <;>
      rw [hinner] <;> simp [hcloses]
  · rw [opened_append, hinner, opened_cons, hcloses]
    rfl

/-- A closing bracket behind balanced tokens closes nothing. -/
theorem not_closable_of_closing (h : Balanced before) (ht : t.kind = .closing) :
    ¬ Closable (before ++ t :: after) := by
  intro hclosable
  have hnonneg := hclosable (before ++ [t]) after (by simp)
  rw [opened_append, h.opened_eq, opened_cons, ht] at hnonneg
  revert hnonneg
  decide

/-! ### Writing items out -/

/-- What an s-expression keeps of a token: all but the place of a closing bracket. -/
def Token.kept (t : Token) : Lexeme × Option Position :=
  (t.lexeme, if t.kind = .closing then none else some t.position)

namespace SExpr

mutual

/-- An s-expression written out: an opening bracket, the items and a closing bracket for a list. -/
def flatten : SExpr → List (Lexeme × Option Position)
  | word text p => [((.word, text), some p)]
  | quotation contents p => [((.quotation, contents), some p)]
  | list p items => ((.opening, "("), some p) :: (flattenAll items ++ [((.closing, ")"), none)])

/-- Items written out one after the other. -/
def flattenAll : List SExpr → List (Lexeme × Option Position)
  | [] => []
  | e :: rest => e.flatten ++ flattenAll rest

end

/-- Items are written out one after the other. -/
theorem flattenAll_append (as bs : List SExpr) :
    flattenAll (as ++ bs) = flattenAll as ++ flattenAll bs := by
  induction as with
  | nil => rfl
  | cons e rest ih => rw [List.cons_append, flattenAll, flattenAll, ih, List.append_assoc]

/-- The step from the items of a list to the list, apart so that it can be used inside the recursion
on items. -/
theorem balanced_of_flattenAll {items : List SExpr}
    (h : ∀ e ∈ items, ∀ {ts : List Token}, e.flatten = ts.map Token.kept → Balanced ts)
    (hts : flattenAll items = ts.map Token.kept) : Balanced ts := by
  induction items generalizing ts with
  | nil =>
    rw [flattenAll, eq_comm, List.map_eq_nil_iff] at hts
    subst hts
    exact balanced_nil
  | cons e rest ih =>
    obtain ⟨he, hrest⟩ := List.forall_mem_cons.1 h
    obtain ⟨first, last, rfl, hfirst, hlast⟩ := List.map_eq_append_iff.1 hts.symm
    exact (he hfirst.symm).append (ih hrest hlast.symm)

/-- What an item is written out to is balanced, by recursion on the item. -/
theorem balanced_of_flatten {e : SExpr} (h : e.flatten = ts.map Token.kept) : Balanced ts := by
  induction e generalizing ts with
  | word text p | quotation contents p =>
    obtain ⟨t, rest, rfl, ht, hrest⟩ := List.map_eq_cons_iff.1 h.symm
    rw [List.map_eq_nil_iff.1 hrest]
    have hkind := congrArg (fun k ↦ k.1.1) ht
    exact balanced_singleton (by rw [show t.kind = _ from hkind]; rfl)
  | list p items ih =>
    obtain ⟨t, rest, rfl, ht, hrest⟩ := List.map_eq_cons_iff.1 h.symm
    obtain ⟨inner, last, rfl, hinner, hlast⟩ := List.map_eq_append_iff.1 hrest
    obtain ⟨t', nothing, rfl, ht', hnothing⟩ := List.map_eq_cons_iff.1 hlast
    rw [List.map_eq_nil_iff.1 hnothing]
    have hbalanced := balanced_of_flattenAll ih hinner.symm
    exact hbalanced.bracketed (congrArg (fun k ↦ k.1.1) ht) (congrArg (fun k ↦ k.1.1) ht')

/-- Tokens that are items written out are balanced. -/
theorem balanced_of_flattenAll_eq {items : List SExpr} (h : flattenAll items = ts.map Token.kept) :
    Balanced ts :=
  balanced_of_flattenAll (fun _ _ _ ↦ balanced_of_flatten) h

/-! ### What the parser has in hand -/

/-- Whether tokens have become open lists, innermost first, around finished items, newest first. -/
inductive Holds (items : List SExpr) : List OpenList → List Token → Prop
  | finished {ts : List Token} (h : flattenAll items.reverse = ts.map Token.kept) :
    Holds items [] ts
  | inside {l : OpenList} {outer : List OpenList} {before inner : List Token} {t : Token}
    (h : Holds items outer before) (ht : t.kept = ((.opening, "("), some l.position))
    (hinner : flattenAll l.items.reverse = inner.map Token.kept) :
    Holds items (l :: outer) (before ++ t :: inner)

variable {items : List SExpr} {lists : List OpenList}

theorem kind_of_kept {lexeme : Lexeme} {p : Option Position} (h : t.kept = (lexeme, p)) :
    t.kind = lexeme.1 := congrArg (fun k ↦ k.1.1) h

/-- The place of an opening bracket is kept, since errors are reported there. -/
theorem position_of_kept {text : String} {p : Position}
    (h : t.kept = ((.opening, text), some p)) : t.position = p := by
  have hkind : t.kind = .opening := kind_of_kept h
  have hplace : (if t.kind = .closing then none else some t.position) = some p :=
    congrArg Prod.snd h
  rw [hkind, if_neg (by decide)] at hplace
  exact Option.some_inj.1 hplace

/-- As many brackets are open as there are open lists. -/
theorem Holds.closable (h : Holds items lists ts) : Closable ts ∧ opened ts = lists.length := by
  induction h with
  | finished h =>
    have hbalanced := balanced_of_flattenAll_eq h
    exact ⟨hbalanced.closable, hbalanced.opened_eq⟩
  | inside h ht hinner ih =>
    obtain ⟨hclosable, hopened⟩ := ih
    have hkind := kind_of_kept ht
    have hbalanced := balanced_of_flattenAll_eq hinner
    refine ⟨hclosable.append_closable (closable_cons_of_opening hkind hbalanced.closable), ?_⟩
    rw [opened_append, opened_cons, hopened, hbalanced.opened_eq, hkind, List.length_cons]
    simp [TokenKind.opens]

/-- A finished item goes behind those that are there. -/
theorem Holds.add {b : Builder} (h : Holds b.items b.openLists ts) {e : SExpr}
    (he : e.flatten = us.map Token.kept) :
    Holds (b.add e).items (b.add e).openLists (ts ++ us) := by
  obtain ⟨lists, items⟩ := b
  have hadd (es : List SExpr) {vs : List Token} (hvs : flattenAll es.reverse = vs.map Token.kept) :
      flattenAll (e :: es).reverse = (vs ++ us).map Token.kept := by
    rw [List.reverse_cons, flattenAll_append, hvs, List.map_append, ← he, flattenAll, flattenAll,
      List.append_nil]
  cases h with
  | finished h => exact .finished (hadd items h)
  | inside h ht hinner =>
    rename_i l outer before inner t
    rw [List.append_assoc]
    exact .inside h ht (hadd l.items hinner)

/-- Whether brackets have the texts that brackets have. -/
def Bracketed (t : Token) : Prop :=
  (t.kind = .opening → t.text = "(") ∧ (t.kind = .closing → t.text = ")")

/-- What the parser has in hand behind one more token. -/
theorem Holds.step {b b' : Builder} (h : Holds b.items b.openLists ts) (ht : Bracketed t)
    (hstep : b.step t = .ok b') : Holds b'.items b'.openLists (ts ++ [t]) := by
  obtain ⟨kind, text, p⟩ := t
  cases kind with
  | word | quotation =>
    cases hstep
    exact h.add rfl
  | opening =>
    cases hstep
    obtain rfl : text = "(" := ht.1 rfl
    exact .inside h rfl rfl
  | closing =>
    obtain rfl : text = ")" := ht.2 rfl
    obtain ⟨lists, items⟩ := b
    cases h with
    | finished h => cases hstep
    | inside h ht hinner =>
      rename_i l outer before inner t
      cases hstep
      rw [List.append_assoc]
      refine Holds.add (b := ⟨outer, items⟩) h ?_
      rw [flatten, hinner, List.cons_append, List.map_cons, List.map_append, ht]
      rfl

/-- The only token that is not taken is a closing bracket outside of all lists. -/
theorem exists_of_step_error {b : Builder} {e : SyntaxError} (h : b.step t = .error e) :
    b.openLists = [] ∧ t.kind = .closing ∧ e = ⟨.unmatchedClosing, t.position⟩ := by
  obtain ⟨lists, items⟩ := b
  obtain ⟨kind, text, p⟩ := t
  cases kind with
  | word | quotation | opening => cases h
  | closing =>
    cases lists with
    | nil =>
      cases h
      exact ⟨rfl, rfl, rfl⟩
    | cons => cases h

/-! ### Errors -/

/-- Whether an error is at the first closing bracket that closes nothing, or else at the innermost
bracket that is still open. -/
inductive Unmatched : List Token → SyntaxError → Prop
  | closing {before after : List Token} {t : Token} (h : Balanced before) (ht : t.kind = .closing) :
    Unmatched (before ++ t :: after) ⟨.unmatchedClosing, t.position⟩
  | opening {before after : List Token} {t : Token} (h : Closable (before ++ t :: after))
    (ht : t.kind = .opening) (hafter : Balanced after) :
    Unmatched (before ++ t :: after) ⟨.unmatchedOpening, t.position⟩

/-- Each of the two errors is evidence against balance. -/
theorem Unmatched.not_balanced {e : SyntaxError} (h : Unmatched ts e) : ¬ Balanced ts := by
  cases h with
  | closing h ht => exact fun hbalanced ↦ not_closable_of_closing h ht hbalanced.closable
  | opening h ht hafter =>
    rename_i before after t
    intro hbalanced
    have hbefore := h before (t :: after) rfl
    have hzero := hbalanced.opened_eq
    rw [opened_append, opened_cons, hafter.opened_eq, ht, TokenKind.opens] at hzero
    omega

/-- Tokens are taken one after the other, up to the first closing bracket that closes nothing. -/
theorem Holds.foldlM {b : Builder} (h : Holds b.items b.openLists before)
    (hts : ∀ t ∈ ts, Bracketed t) :
    (∃ b', ts.foldlM Builder.step b = .ok b' ∧ Holds b'.items b'.openLists (before ++ ts)) ∨
      ∃ e, ts.foldlM Builder.step b = .error e ∧ Unmatched (before ++ ts) e := by
  induction ts generalizing b before with
  | nil => exact .inl ⟨b, rfl, by rwa [List.append_nil]⟩
  | cons t rest ih =>
    obtain ⟨ht, hrest⟩ := List.forall_mem_cons.1 hts
    rw [List.foldlM_cons]
    cases hstep : b.step t with
    | error e =>
      obtain ⟨hlists, hkind, rfl⟩ := exists_of_step_error hstep
      obtain ⟨hclosable, hopened⟩ := h.closable
      rw [hlists] at hopened
      exact .inr ⟨_, rfl, .closing ⟨hclosable, hopened⟩ hkind⟩
    | ok next =>
      have hnext := ih (h.step ht hstep) hrest
      rw [List.append_assoc] at hnext
      exact hnext

/-- **Tokens are parsed just if they are balanced**, to items that are these tokens when they are
written out, and otherwise the error is at the bracket that has no other. -/
theorem ofTokens_cases (hts : ∀ t ∈ ts, Bracketed t) :
    (∃ items, ofTokens ts = .ok items ∧ flattenAll items = ts.map Token.kept) ∨
      ∃ e, ofTokens ts = .error e ∧ Unmatched ts e := by
  have hstart : Holds Builder.start.items Builder.start.openLists [] := .finished rfl
  rcases hstart.foldlM hts with ⟨b, hrun, hb⟩ | ⟨e, hrun, he⟩
  · rw [List.nil_append] at hb
    have hparse : ofTokens ts = b.finish := by rw [ofTokens, hrun]; rfl
    rw [hparse]
    have hclosable := hb.closable.1
    obtain ⟨lists, items⟩ := b
    cases hb with
    | finished h => exact .inl ⟨items.reverse, rfl, h⟩
    | inside h ht hinner =>
      rename_i l outer before inner t
      refine .inr ⟨⟨.unmatchedOpening, l.position⟩, rfl, ?_⟩
      rw [← position_of_kept ht]
      exact .opening hclosable (kind_of_kept ht) (balanced_of_flattenAll_eq hinner)
  · refine .inr ⟨e, ?_, he⟩
    rw [ofTokens, hrun]
    rfl

/-! ### Texts -/

/-- The scanner makes brackets of the two bracket characters only. -/
theorem bracketed_of_lexed {place : List Char → Position} {before rest : List Char}
    (h : Lexed place before rest ts) :
    ∀ t ∈ ts, Bracketed t := by
  induction h with
  | nil => nofun
  | blank _ _ ih | comment _ _ _ ih => exact ih
  | @token before written rest t ts hplace hwritten hend h ih =>
    refine List.forall_mem_cons.2 ⟨?_, ih⟩
    obtain ⟨kind, text, p⟩ := t
    cases hwritten with
    | opening => exact ⟨fun _ ↦ rfl, nofun⟩
    | closing => exact ⟨nofun, fun _ ↦ rfl⟩
    | word | quotation => exact ⟨nofun, nofun⟩

/-- **The parser accepts just the texts with balanced brackets, and loses nothing**: what it builds
is, written out, the tokens of the text with their texts and places. The error for any other text is
at the first closing bracket that closes nothing, or else at the innermost bracket that is still
open. The tokens themselves are all there is in a text but blanks and comments, and each has the
place of its first character, as 32 bits hold it. That is the place itself wherever no line and no
column of the text is too large for them. -/
theorem parse_balanced {text : String} {ts : List Token} (h : tokens text = .ok ts) :
    ((∃ items, parse text = .ok items) ↔ Balanced ts) ∧
      (∀ items, parse text = .ok items → flattenAll items = ts.map Token.kept) ∧
      (∀ e, parse text = .error e → Unmatched ts e) ∧
      Lexed .behind [] text.toList ts ∧
      (PlacesFit text.toList → Lexed .counted [] text.toList ts) := by
  have hlexed := tokens_eq_ok_iff.1 h
  have hplaces : Lexed .behind [] text.toList ts ∧
      (PlacesFit text.toList → Lexed .counted [] text.toList ts) :=
    ⟨hlexed, fun hfit ↦ hlexed.replace fun _ ↦ Position.behind_eq_counted hfit⟩
  have hparse : parse text = ofTokens ts := by rw [parse, h]; rfl
  rw [hparse]
  rcases ofTokens_cases (bracketed_of_lexed hlexed) with ⟨items, hrun, hitems⟩ | ⟨e, hrun, he⟩
  · rw [hrun]
    refine ⟨⟨fun _ ↦ balanced_of_flattenAll_eq hitems, fun _ ↦ ⟨items, rfl⟩⟩, ?_, ?_, hplaces⟩
    · rintro _ ⟨⟩
      exact hitems
    · rintro _ ⟨⟩
  · rw [hrun]
    refine ⟨⟨?_, fun hbalanced ↦ (he.not_balanced hbalanced).elim⟩, ?_, ?_, hplaces⟩
    · rintro ⟨_, ⟨⟩⟩
    · rintro _ ⟨⟩
    · rintro _ ⟨⟩
      exact he

/-- A bracket in a string and one in a comment do not count, and lines are counted through both. -/
theorem parse_balanced_two_lists :
    let text := "(a\n \"(\n\") ; )\n()"
    let ts : List Token := [⟨.opening, "(", ⟨1, 1⟩⟩, ⟨.word, "a", ⟨1, 2⟩⟩,
      ⟨.quotation, "(\n", ⟨2, 2⟩⟩, ⟨.closing, ")", ⟨3, 2⟩⟩, ⟨.opening, "(", ⟨4, 1⟩⟩,
      ⟨.closing, ")", ⟨4, 2⟩⟩]
    tokens text = .ok ts ∧ Balanced ts ∧ PlacesFit text.toList ∧ Lexed .counted [] text.toList ts ∧
      ∃ items, parse text = .ok items ∧ flattenAll items = ts.map Token.kept := by
  intro text ts
  have htokens : tokens text = .ok ts := by
    dsimp only [text, ts]
    rfl
  let items : List SExpr :=
    [list ⟨1, 1⟩ [word "a" ⟨1, 2⟩, quotation "(\n" ⟨2, 2⟩], list ⟨4, 1⟩ []]
  have hparse : parse text = .ok items := by
    dsimp only [text, items]
    rfl
  have hfit : PlacesFit text.toList := placesFit_of_length_lt (by decide)
  obtain ⟨hiff, hitems, -, -, hlexed⟩ := parse_balanced htokens
  exact ⟨htokens, hiff.1 ⟨items, hparse⟩, hfit, hlexed hfit, items, hparse, hitems items hparse⟩

/-- Of two brackets that are never closed the inner one is reported, although it comes later. -/
example : parse "((a) (b c" = .error ⟨.unmatchedOpening, ⟨1, 6⟩⟩ := rfl

end SExpr

end NaturalDeduction
