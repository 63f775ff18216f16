import NaturalDeduction.Proofs.Scanning

/-!
# Where tokens stand

What is scanned is all there is: a text consists of blanks, comments and the written forms of its
tokens, in their order, and every token has the place behind the characters that stand in front of
it (`Lexed`). That place is counted here from the characters themselves, and not step by step: its
line is one more than the line feeds in front of it, and its column is one more than the characters
behind the last of them (`Position.counted`).

The scanner counts in 32 bits, so the places that it finds are the counted ones up to a multiple of
2³² (`Position.behind`). They are the counted ones themselves in every text in which no count
overflows (`PlacesFit`), and so in every text of fewer than 2³² - 1 characters.

The judgement keeps both sides of a token in view. What stands in front of it gives the place. What
stands behind it ends a word or a comment, so that neither can be cut in two.

The scanner is inside of something when it is stopped between two characters. What the characters
still to come must be then is `ScanMode.Goes`, with one case for each mode; a run is read from its
end to its start (`exists_goes`).

Main definitions and statements:

* `Position.counted`, `Position.behind`: the place without and with the width of a machine word.
* `Lexed`: what the tokens of a text are, with the way to count places as a parameter.
* `exists_goes`, `run_of_lexed`: the scanner finds tokens that are lexed, and no others.
* `tokens_eq_ok_iff`: so they are determined by the text.
-/

namespace NaturalDeduction

open Scanner

/-! ### Places -/

/-- The place behind some characters from the start of a text. -/
def Position.counted (before : List Char) : Position :=
  ⟨before.count '\n' + 1, (before.reverse.takeWhile (· != '\n')).length + 1⟩

/-- The place behind some characters from the start of a text, as far as 32 bits can hold it. -/
def Position.behind (before : List Char) : Position :=
  ⟨(counted before).line % width, (counted before).column % width⟩

/-- One more character: a line feed begins a line, any other adds a column. -/
theorem Position.counted_append_singleton (before : List Char) (c : Char) :
    counted (before ++ [c]) =
      if c = '\n' then ⟨(counted before).line + 1, 1⟩
      else ⟨(counted before).line, (counted before).column + 1⟩ := by
  rw [counted, List.count_append, List.reverse_append, List.reverse_singleton,
    List.singleton_append, List.takeWhile_cons]
  by_cases hc : c = '\n'
  · subst hc
    rfl
  · have hcount : [c].count '\n' = 0 := List.count_eq_zero.2 (by simpa using Ne.symm hc)
    have hne : (c != '\n') = true := bne_iff_ne.2 hc
    rw [if_neg hc, if_pos hne, hcount, List.length_cons]
    rfl

/-- The scanner counts on in 32 bits, and the remainder of a place is the place of the remainder. -/
theorem Position.behind_append_singleton (before : List Char) (c : Char) :
    behind (before ++ [c]) = (behind before).after c := by
  rw [behind, counted_append_singleton, after]
  split
  · exact congrArg (Position.mk · 1) (Nat.mod_add_mod _ _ _).symm
  · exact congrArg (Position.mk _) (Nat.mod_add_mod _ _ _).symm

/-- So the scanner goes on from a place as from any other. -/
theorem Position.behind_append (before cs : List Char) :
    behind (before ++ cs) = cs.foldl .after (behind before) := by
  induction cs generalizing before with
  | nil => rw [List.append_nil]; rfl
  | cons c cs ih => rw [List.append_cons, ih, behind_append_singleton]; rfl

/-- Whether all places of a text can be counted in 32 bits. -/
def PlacesFit (text : List Char) : Prop :=
  ∀ before, before <+: text →
    (Position.counted before).line < Position.width ∧
      (Position.counted before).column < Position.width

/-- All places of a text can be counted if there are not too many characters. -/
theorem placesFit_of_length_lt {text : List Char} (h : text.length + 1 < Position.width) :
    PlacesFit text := by
  intro before hbefore
  have hlength := hbefore.length_le
  have hline : before.count '\n' ≤ before.length := List.count_le_length
  have hcolumn := (List.takeWhile_sublist (· != '\n') (l := before.reverse)).length_le
  rw [List.length_reverse] at hcolumn
  simp only [Position.counted]
  omega

/-- Where every count fits, it is its own remainder. -/
theorem Position.behind_eq_counted {text before : List Char} (h : PlacesFit text)
    (hbefore : before <+: text) : behind before = counted before := by
  obtain ⟨hline, hcolumn⟩ := h before hbefore
  rw [behind, Nat.mod_eq_of_lt hline, Nat.mod_eq_of_lt hcolumn]

/-! ### Written forms

These are the texts that a token can be written as. A string can be written in several ways, since a
backslash may stand in front of any character that it does not change.
-/

/-- Whether the characters between the quotes of a string stand for some contents. -/
inductive Unescapes : List Char → List Char → Prop
  | nil : Unescapes [] []
  | plain {c : Char} {cs ds : List Char} (hquote : c ≠ '"') (hbackslash : c ≠ '\\')
    (h : Unescapes cs ds) : Unescapes (c :: cs) (c :: ds)
  | escape (c : Char) {cs ds : List Char} (h : Unescapes cs ds) :
    Unescapes ('\\' :: c :: cs) (unescape c :: ds)

/-- Whether characters are the written form of a token of some kind with some text. -/
inductive TokenKind.Writes : TokenKind → String → List Char → Prop
  | opening : Writes .opening "(" ['(']
  | closing : Writes .closing ")" [')']
  | word {text : String} (h : IsWord text) : Writes .word text text.toList
  | quotation {text : String} {cs : List Char} (h : Unescapes cs text.toList) :
    Writes .quotation text ('"' :: cs ++ ['"'])

/-- Whether the second characters, which stand behind the first, are blanks, comments and the
written forms of some tokens, each with the place where it begins. -/
inductive Lexed (place : List Char → Position) : List Char → List Char → List Token → Prop
  | nil (before : List Char) : Lexed place before [] []
  | blank {before rest : List Char} {ts : List Token} {c : Char} (hc : isBlank c = true)
    (h : Lexed place (before ++ [c]) rest ts) : Lexed place before (c :: rest) ts
  | comment {before body rest : List Char} {ts : List Token} (hbody : ∀ c ∈ body, c ≠ '\n')
    (hend : ∀ c ∈ rest.head?, c = '\n') (h : Lexed place (before ++ ';' :: body) rest ts) :
    Lexed place before (';' :: body ++ rest) ts
  | token {before : List Char} (written : List Char) {rest : List Char} {t : Token}
    {ts : List Token} (hplace : t.position = place before)
    (hwritten : t.kind.Writes t.text written)
    (hend : t.kind = .word → ∀ c ∈ rest.head?, isDelimiter c = true)
    (h : Lexed place (before ++ written) rest ts) : Lexed place before (written ++ rest) (t :: ts)

/-- It makes no difference how places are counted if the counts agree in front of every token. -/
theorem Lexed.replace {place place' : List Char → Position} {before rest : List Char}
    {ts : List Token} (h : Lexed place before rest ts)
    (hplaces : ∀ cs, cs <+: before ++ rest → place cs = place' cs) :
    Lexed place' before rest ts := by
  induction h with
  | nil before => exact .nil before
  | blank hc h ih => exact .blank hc (ih (by simpa using hplaces))
  | comment hbody hend h ih => exact .comment hbody hend (ih (by simpa using hplaces))
  | token written hplace hwritten hend h ih =>
    rw [hplaces _ (List.prefix_append _ _)] at hplace
    exact .token written hplace hwritten hend (ih (by simpa using hplaces))

/-! ### What is still to come -/

/-- Whether characters, which stand behind others, end the string that begins at some place and has
been read so far, so that these tokens are scanned from there on. -/
def EndsString (before rest : List Char) (ts : List Token) (start : Position) (read : List Char) :
    Prop :=
  ∃ cs ds rest' ts', rest = cs ++ '"' :: rest' ∧ Unescapes cs ds ∧
    ts = ⟨.quotation, String.ofList (read.reverse ++ ds), start⟩ :: ts' ∧
    Lexed .behind (before ++ (cs ++ ['"'])) rest' ts'

/-- Whether characters, which stand behind others, complete what a scanner is inside of, so that
these tokens are scanned from there on. -/
def ScanMode.Goes (before rest : List Char) (ts : List Token) : ScanMode → Prop
  | .between => Lexed .behind before rest ts
  | .comment => ∃ body rest', rest = body ++ rest' ∧ (∀ c ∈ body, c ≠ '\n') ∧
      (∀ c ∈ rest'.head?, c = '\n') ∧ Lexed .behind (before ++ body) rest' ts
  | .word start read => ∃ more rest' ts', rest = more ++ rest' ∧
      (∀ c ∈ more, isDelimiter c = false) ∧ (∀ c ∈ rest'.head?, isDelimiter c = true) ∧
      ts = ⟨.word, String.ofList (read.reverse ++ more), start⟩ :: ts' ∧
      Lexed .behind (before ++ more) rest' ts'
  | .quotation start read => EndsString before rest ts start read
  | .escape start read => ∃ c rest', rest = c :: rest' ∧
      EndsString (before ++ [c]) rest' ts start (unescape c :: read)

namespace Scanner

variable {before rest : List Char} {ts new : List Token} {c : Char}

/-- A character between tokens is a blank, begins a comment or begins a token. -/
theorem exists_lexed_of_enter
    (h : (enter ts (.behind before) c).2.Goes (before ++ [c]) rest new) :
    ∃ new', (enter ts (.behind before) c).1.reverse ++ new = ts.reverse ++ new' ∧
      Lexed .behind before (c :: rest) new' := by
  unfold enter at h ⊢
  split
  -- a comment
  · rename_i hc
    subst hc
    obtain ⟨body, rest, rfl, hbody, hend, hrest⟩ := h
    rw [List.append_assoc] at hrest
    exact ⟨new, rfl, .comment hbody hend hrest⟩
  rename_i hsemicolon
  rw [if_neg hsemicolon] at h
  split
  -- a blank
  · rename_i hc
    rw [if_pos hc] at h
    exact ⟨new, rfl, .blank hc h⟩
  rename_i hblank
  rw [if_neg hblank] at h
  split
  -- an opening bracket
  · rename_i hc
    subst hc
    refine ⟨⟨.opening, "(", .behind before⟩ :: new, ?_, ?_⟩
    · rw [List.reverse_cons, List.append_assoc]
      rfl
    · exact Lexed.token ['('] rfl .opening nofun h
  rename_i hopening
  rw [if_neg hopening] at h
  split
  -- a closing bracket
  · rename_i hc
    subst hc
    refine ⟨⟨.closing, ")", .behind before⟩ :: new, ?_, ?_⟩
    · rw [List.reverse_cons, List.append_assoc]
      rfl
    · exact Lexed.token [')'] rfl .closing nofun h
  rename_i hclosing
  rw [if_neg hclosing] at h
  split
  -- a string
  · rename_i hc
    subst hc
    obtain ⟨cs, ds, rest, ts', rfl, hunescapes, rfl, hrest⟩ := h
    refine ⟨_, rfl, ?_⟩
    have hwritten : '"' :: (cs ++ '"' :: rest) = ('"' :: cs ++ ['"']) ++ rest := by simp
    rw [hwritten]
    rw [List.append_assoc] at hrest
    rw [← String.toList_ofList (l := ds)] at hunescapes
    exact .token _ rfl (.quotation hunescapes) nofun hrest
  -- a word
  · rename_i hquote
    rw [if_neg hquote] at h
    obtain ⟨more, rest, ts', rfl, hmore, hend, rfl, hrest⟩ := h
    refine ⟨_, rfl, ?_⟩
    have hword : IsWord (String.ofList (c :: more)) := by
      refine ⟨by simp, ?_⟩
      rw [String.toList_ofList]
      exact List.forall_mem_cons.2 ⟨by simp [isDelimiter, *], hmore⟩
    have hwritten : TokenKind.Writes .word (String.ofList (c :: more)) (c :: more) := by
      simpa using TokenKind.Writes.word hword
    rw [List.append_assoc] at hrest
    exact Lexed.token (c :: more) rfl hwritten (fun _ ↦ hend) hrest

/-- What completes a scanner behind a character completes it, together with the character, in front
of it. -/
theorem exists_goes_of_step {s : Scanner} (hplace : s.position = .behind before)
    (h : (s.step c).mode.Goes (before ++ [c]) rest new) :
    ∃ new', (s.step c).tokens.reverse ++ new = s.tokens.reverse ++ new' ∧
      s.mode.Goes before (c :: rest) new' := by
  obtain ⟨ts, mode, position⟩ := s
  obtain rfl : position = .behind before := hplace
  cases mode with
  | between => exact exists_lexed_of_enter h
  | comment =>
    refine ⟨new, rfl, ?_⟩
    simp only [step] at h
    split at h
    · rename_i hc
      subst hc
      refine ⟨[], '\n' :: rest, rfl, List.forall_mem_nil _, ?_, ?_⟩
      · rintro d ⟨⟩
        rfl
      · rw [List.append_nil]
        exact .blank (by decide) h
    · rename_i hc
      obtain ⟨body, rest, rfl, hbody, hend, hrest⟩ := h
      rw [List.append_assoc] at hrest
      exact ⟨c :: body, rest, rfl, List.forall_mem_cons.2 ⟨hc, hbody⟩, hend, hrest⟩
  | word start read =>
    simp only [step] at h ⊢
    split at h
    -- the word is finished
    · rename_i hc
      rw [if_pos hc]
      obtain ⟨new', htokens, hlexed⟩ := exists_lexed_of_enter h
      refine ⟨finished .word start read :: new', ?_, [], c :: rest, new', rfl,
        List.forall_mem_nil _, ?_, ?_, ?_⟩
      · rw [htokens, List.reverse_cons, List.append_assoc]
        rfl
      · exact isDelimiter_of_mem_head? hc
      · rw [List.append_nil]
        rfl
      · rwa [List.append_nil]
    · rename_i hc
      rw [if_neg hc]
      obtain ⟨more, rest, ts', rfl, hmore, hend, rfl, hrest⟩ := h
      rw [List.append_assoc] at hrest
      refine ⟨_, rfl, c :: more, rest, ts', rfl, ?_, hend, ?_, hrest⟩
      · exact List.forall_mem_cons.2 ⟨Bool.eq_false_iff.2 hc, hmore⟩
      · rw [List.reverse_cons, List.append_assoc]
        rfl
  | quotation start read =>
    simp only [step] at h ⊢
    split at h
    -- the string is finished
    · rename_i hc
      subst hc
      refine ⟨finished .quotation start read :: new, ?_, [], [], rest, new, rfl, .nil, ?_, h⟩
      · rw [if_pos rfl, List.reverse_cons, List.append_assoc]
        rfl
      · rw [List.append_nil]
        rfl
    rename_i hquote
    rw [if_neg hquote]
    split at h
    -- an escape
    · rename_i hc
      subst hc
      rw [if_pos rfl]
      obtain ⟨c, rest, rfl, cs, ds, rest, ts', rfl, hunescapes, rfl, hrest⟩ := h
      refine ⟨_, rfl, '\\' :: c :: cs, unescape c :: ds, rest, ts', rfl, .escape c hunescapes, ?_,
        ?_⟩
      · rw [List.reverse_cons, List.append_assoc]
        rfl
      · rwa [List.append_assoc, List.append_assoc] at hrest
    · rename_i hbackslash
      rw [if_neg hbackslash]
      obtain ⟨cs, ds, rest, ts', rfl, hunescapes, rfl, hrest⟩ := h
      refine ⟨_, rfl, c :: cs, c :: ds, rest, ts', rfl, .plain hquote hbackslash hunescapes, ?_, ?_⟩
      · rw [List.reverse_cons, List.append_assoc]
        rfl
      · rwa [List.append_assoc] at hrest
  | escape start read => exact ⟨new, rfl, c, rest, rfl, h⟩

/-- Where a scan ends well, the characters that were still to come completed what it was inside of.
-/
theorem exists_goes {s : Scanner} {cs before : List Char} {ts : List Token}
    (hplace : s.position = .behind before) (h : (s.run cs).finish = .ok ts) :
    ∃ new, ts = s.tokens.reverse ++ new ∧ s.mode.Goes before cs new := by
  induction cs generalizing s before with
  | nil =>
    obtain ⟨tokens, mode, position⟩ := s
    cases mode with
    | between =>
      cases h
      exact ⟨[], (List.append_nil _).symm, .nil before⟩
    | comment =>
      cases h
      exact ⟨[], (List.append_nil _).symm, [], [], rfl, nofun, nofun, .nil _⟩
    | word start read =>
      cases h
      refine ⟨[finished .word start read], List.reverse_cons, [], [], [], rfl, nofun, nofun, ?_,
        .nil _⟩
      rw [List.append_nil]
      rfl
    | quotation | escape => cases h
  | cons c cs ih =>
    have hstep : (s.step c).position = .behind (before ++ [c]) := by
      rw [Position.behind_append_singleton, ← hplace]
      rfl
    obtain ⟨new, hts, hgoes⟩ := ih hstep h
    obtain ⟨new', htokens, hgoes'⟩ := exists_goes_of_step hplace hgoes
    exact ⟨new', hts.trans htokens, hgoes'⟩

end Scanner

/-! ### What is scanned from a text -/

namespace Scanner

variable {before rest cs ds read : List Char} {old ts : List Token} {start p : Position}

/-- A comment is passed over up to the line feed that ends it. -/
theorem run_comment (h : ∀ c ∈ cs, c ≠ '\n') :
    (⟨old, .comment, p⟩ : Scanner).run cs = ⟨old, .comment, cs.foldl .after p⟩ := by
  refine run_collecting (m := fun _ ↦ .comment) (fun c hc _ p ↦ ?_) [] p
  simp only [step, h c hc, if_false]

/-- In a string the scanner collects what the escapes stand for. -/
theorem run_string (h : Unescapes cs ds) :
    (⟨old, .quotation start read, p⟩ : Scanner).run cs =
      ⟨old, .quotation start (ds.reverse ++ read), cs.foldl .after p⟩ := by
  induction h generalizing read p with
  | nil => rfl
  | @plain c cs ds hquote hbackslash h ih =>
    have hstep : (⟨old, .quotation start read, p⟩ : Scanner).step c =
        ⟨old, .quotation start (c :: read), p.after c⟩ := by
      simp only [step, hquote, hbackslash, if_false]
    show ((⟨old, .quotation start read, p⟩ : Scanner).step c).run cs = _
    rw [hstep, ih, List.reverse_cons, List.append_assoc]
    rfl
  | @escape c cs ds h ih =>
    show (⟨old, .quotation start (unescape c :: read), (p.after '\\').after c⟩ : Scanner).run cs = _
    rw [ih, List.reverse_cons, List.append_assoc]
    rfl

/-- At the end of a text and before a delimiter it makes no difference whether the last word is
finished already. -/
theorem finish_run_settle {s : Scanner} (h : ∀ c ∈ rest.head?, isDelimiter c = true) :
    (s.settle.run rest).finish = (s.run rest).finish := by
  cases rest with
  | nil =>
    obtain ⟨old, mode, p⟩ := s
    cases mode <;> rfl
  | cons c rest =>
    show ((s.settle.step c).run rest).finish = ((s.step c).run rest).finish
    rw [step_settle s (h c rfl)]

/-- The written form of a token is scanned as the token, if a word does not go on behind it. -/
theorem run_writes {t : Token} (hplace : t.position = .behind before)
    (hwritten : t.kind.Writes t.text cs)
    (hend : t.kind = .word → ∀ c ∈ rest.head?, isDelimiter c = true) :
    ((⟨old, .between, .behind before⟩ : Scanner).run (cs ++ rest)).finish =
      ((⟨t :: old, .between, .behind (before ++ cs)⟩ : Scanner).run rest).finish := by
  obtain ⟨kind, text, p⟩ := t
  obtain rfl : p = .behind before := hplace
  rw [run_append]
  cases hwritten with
  | opening =>
    rw [Position.behind_append]
    rfl
  | closing =>
    rw [Position.behind_append]
    rfl
  | word hword =>
    obtain ⟨c, cs, hcons⟩ := List.exists_cons_of_ne_nil hword.ne_nil
    have hchars := hword.not_delimiter
    rw [hcons] at hchars ⊢
    obtain ⟨hc, hcs⟩ := List.forall_mem_cons.1 hchars
    have hrun : (⟨old, .between, .behind before⟩ : Scanner).run (c :: cs) =
        ⟨old, .word (.behind before) (cs.reverse ++ [c]), .behind (before ++ c :: cs)⟩ := by
      show ((⟨old, .between, .behind before⟩ : Scanner).step c).run cs = _
      rw [step_between rfl hc, run_word hcs, Position.behind_append]
      rfl
    have hfinished : finished .word (.behind before) (cs.reverse ++ [c]) =
        ⟨.word, text, .behind before⟩ := by
      rw [finished, List.reverse_append, List.reverse_reverse, List.reverse_singleton,
        List.singleton_append, ← hcons, String.ofList_toList]
    rw [hrun, ← finish_run_settle (hend rfl), ← hfinished]
    rfl
  -- the quotes belong to the token, and the escapes between them are resolved
  | @quotation text cs hunescapes =>
    have hrun : (⟨old, .between, .behind before⟩ : Scanner).run ('"' :: cs ++ ['"']) =
        ⟨finished .quotation (.behind before) text.toList.reverse :: old, .between,
          .behind (before ++ ('"' :: cs ++ ['"']))⟩ := by
      show (⟨old, .quotation (.behind before) [], (Position.behind before).after '"'⟩ :
        Scanner).run (cs ++ ['"']) = _
      rw [run_append, run_string hunescapes, List.append_nil, Position.behind_append,
        List.cons_append, List.foldl_cons, List.foldl_append]
      rfl
    rw [hrun, finished, List.reverse_reverse, String.ofList_toList]

/-- What is lexed is scanned: by recursion on the judgement, one token at a time. -/
theorem run_of_lexed (h : Lexed .behind before rest ts) (old : List Token) :
    ((⟨old, .between, .behind before⟩ : Scanner).run rest).finish = .ok (old.reverse ++ ts) := by
  induction h generalizing old with
  | nil => exact congrArg Except.ok (List.append_nil _).symm
  | @blank before rest ts c hc h ih =>
    have hstep : (⟨old, .between, .behind before⟩ : Scanner).step c =
        ⟨old, .between, .behind (before ++ [c])⟩ := by
      rw [step_blank rfl hc, Position.behind_append_singleton]
    show (((⟨old, .between, .behind before⟩ : Scanner).step c).run rest).finish = _
    rw [hstep, ih]
  | @comment before body rest ts hbody hend h ih =>
    have hrun : (⟨old, .between, .behind before⟩ : Scanner).run (';' :: body) =
        ⟨old, .comment, .behind (before ++ ';' :: body)⟩ := by
      show (⟨old, .comment, (Position.behind before).after ';'⟩ : Scanner).run body = _
      rw [run_comment hbody, Position.behind_append]
      rfl
    rw [run_append, hrun, ← ih]
    -- A comment ends with the text, or with a line feed that is a blank between tokens.
    cases rest with
    | nil => rfl
    | cons c rest =>
      obtain rfl : c = '\n' := hend c rfl
      rfl
  | @token before written rest t ts hplace hwritten hend h ih =>
    rw [run_writes hplace hwritten hend, ih, List.reverse_cons, List.append_assoc]
    rfl

end Scanner

/-- **A text scans as some tokens just if it is made of them**, with every token at the place where
it begins. -/
theorem tokens_eq_ok_iff {text : String} {ts : List Token} :
    tokens text = .ok ts ↔ Lexed .behind [] text.toList ts := by
  refine ⟨fun h ↦ ?_, fun h ↦ run_of_lexed h []⟩
  have hstart : Scanner.start.position = .behind [] := rfl
  obtain ⟨new, hts, hgoes⟩ := exists_goes hstart h
  rw [hts]
  exact hgoes

end NaturalDeduction
