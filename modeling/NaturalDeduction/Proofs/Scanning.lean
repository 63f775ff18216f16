import NaturalDeduction.SExpr.Basic

/-!
# What is scanned

The tokens of a text, places aside, are put together from those of its parts. Characters *scan as* a
list of lexemes if they add them to what was scanned before, whenever they are read between tokens.
A word lasts until a delimiter comes, so what follows another text must begin with one
(`Scans.append`), unless the other text ends with a token that cannot go on.

A quoted string is read back if each of its characters is: those that are written by number are not,
nor are the carriage return and the character zero, whose escapes the scanner does not know. What it
reads there instead is `Quoted.reread`, and it is never the end of the string (`scans_encode`).

In the other direction, every word that is ever scanned is a *word*: it has at least one character,
and no delimiter (`isWord_of_mem_tokens`).

Main definitions and statements:

* `Scans`: the lexemes that characters add, wherever they are read between tokens. It says nothing
  about places, so texts can be put together.
* `Scans.append`: and they are put together at delimiters.
* `Quoted.reread`: what a written character is read as between quotes.
* `scans_encode`: a written string is one token, whatever is in it.
-/

namespace NaturalDeduction

/-- A token without its place. -/
abbrev Lexeme := TokenKind × String

/-- What a token is, wherever it is. -/
def Token.lexeme (t : Token) : Lexeme := (t.kind, t.text)

/-- Whether a text is scanned as one word. -/
structure IsWord (text : String) : Prop where
  ne_nil : text.toList ≠ []
  not_delimiter : ∀ c ∈ text.toList, Scanner.isDelimiter c = false

/-- The characters are gone through as a list, since what holds of every member of a list may also
be decided for every character there is. -/
instance (text : String) : Decidable (IsWord text) :=
  decidable_of_iff (text.toList ≠ [] ∧ text.toList.all fun c ↦ !Scanner.isDelimiter c)
    ⟨fun h ↦ ⟨h.1, by simpa using h.2⟩, fun h ↦ ⟨h.1, by simpa using h.2⟩⟩

namespace Scanner

/-! ### Between tokens

A word is finished by what comes behind it, so a scanner that is inside a word has a token which is
not on its list yet. `settle` puts it there, and lexemes are those of the settled scanner.
-/

/-- The scanner with the word finished that it is inside of. -/
def settle (s : Scanner) : Scanner :=
  match s.mode with
  | .word start read => { s with tokens := finished .word start read :: s.tokens, mode := .between }
  | _ => s

/-- The lexemes so far, with the word that the scanner is inside of. -/
def lexemes (s : Scanner) : List Lexeme := s.settle.tokens.reverse.map Token.lexeme

/-- Between tokens there is nothing to settle. -/
theorem settle_eq_self {s : Scanner} (h : s.mode = .between) : s.settle = s := by
  rw [settle, h]

/-- The end of a text ends a word or a comment, but not a string. -/
theorem finish_eq {s : Scanner} (h : s.settle.mode = .between) :
    s.finish = .ok s.settle.tokens.reverse := by
  obtain ⟨tokens, mode, position⟩ := s
  cases mode with
  | between | word => rfl
  | comment | quotation | escape => cases h

/-- Before a delimiter it makes no difference whether the last word is finished already. -/
theorem step_settle (s : Scanner) {c : Char} (h : isDelimiter c = true) :
    s.settle.step c = s.step c := by
  obtain ⟨tokens, mode, position⟩ := s
  cases mode with
  | word start read => simp only [settle, step, h, if_true]
  | between | comment | quotation | escape => rfl

/-- Between tokens, the lexemes are those of the tokens. -/
theorem lexemes_of_between {s : Scanner} (h : s.mode = .between) :
    s.lexemes = s.tokens.reverse.map Token.lexeme := by
  rw [lexemes, settle_eq_self h]

/-- Whether characters that are read between tokens add some lexemes, and end there or in a word. -/
def Scans (cs : List Char) (ls : List Lexeme) : Prop :=
  ∀ s : Scanner, s.mode = .between →
    (s.run cs).settle.mode = .between ∧ (s.run cs).lexemes = s.lexemes ++ ls

variable {cs ds : List Char} {ls ms : List Lexeme}

/-- A delimiter settles what came before it, so it makes no difference if that was settled already.
-/
theorem settle_run_settle {s : Scanner} (hs : s.settle.mode = .between)
    (hds : ∀ d ∈ ds.head?, isDelimiter d = true) :
    (s.settle.run ds).settle = (s.run ds).settle := by
  cases ds with
  | nil => exact settle_eq_self hs
  | cons d ds =>
    show ((s.settle.step d).run ds).settle = ((s.step d).run ds).settle
    rw [step_settle s (hds d rfl)]

/-- Texts scan one behind the other if the second one begins with a delimiter. -/
theorem Scans.append (h : Scans cs ls) (h' : Scans ds ms)
    (hds : ∀ d ∈ ds.head?, isDelimiter d = true) : Scans (cs ++ ds) (ls ++ ms) := by
  intro s hs
  obtain ⟨hmode, hlexemes⟩ := h s hs
  obtain ⟨hmode', hlexemes'⟩ := h' (s.run cs).settle hmode
  rw [settle_run_settle hmode hds] at hmode'
  rw [lexemes, settle_run_settle hmode hds, lexemes_of_between hmode] at hlexemes'
  rw [run_append]
  refine ⟨hmode', ?_⟩
  rw [lexemes, hlexemes', ← lexemes, hlexemes, List.append_assoc]

/-- The condition for a text that is known to begin with a delimiter. -/
theorem isDelimiter_of_mem_head? {c : Char} (hc : isDelimiter c = true) :
    ∀ d ∈ (c :: cs).head?, isDelimiter d = true := by
  rintro d ⟨⟩
  exact hc

/-- What comes in front of the rest need not be a word. -/
theorem Scans.cons {c : Char} {l : List Lexeme}
    (hstep : ∀ s : Scanner, s.mode = .between →
      (s.step c).mode = .between ∧ (s.step c).lexemes = s.lexemes ++ l)
    (h : Scans cs ls) : Scans (c :: cs) (l ++ ls) := by
  intro s hs
  obtain ⟨hmode, hlexemes⟩ := hstep s hs
  obtain ⟨hmode', hlexemes'⟩ := h (s.step c) hmode
  exact ⟨hmode', by rw [← List.append_assoc, ← hlexemes]; exact hlexemes'⟩

/-- No characters add no lexemes. -/
theorem Scans.nil : Scans [] [] := fun _ hs ↦
  ⟨(congrArg mode (settle_eq_self hs)).trans hs, (List.append_nil _).symm⟩

/-! ### Blanks and brackets -/

/-- White space ends a token and begins none. -/
theorem step_blank {s : Scanner} (hs : s.mode = .between) {c : Char} (hc : isBlank c = true) :
    s.step c = ⟨s.tokens, .between, s.position.after c⟩ := by
  have hne : c ≠ ';' := by
    rintro rfl
    exact absurd hc (by decide)
  simp only [step, hs, enter, hne, if_false, hc, if_true]

/-- White space may stand in front of any text. -/
theorem Scans.blank (h : Scans cs ls) {c : Char} (hc : isBlank c = true) : Scans (c :: cs) ls := by
  refine Scans.cons (l := []) (fun s hs ↦ ?_) h
  rw [step_blank hs hc, lexemes_of_between rfl, lexemes_of_between hs, List.append_nil]
  exact ⟨rfl, rfl⟩

theorem Scans.blanks (h : Scans cs ls) {bs : List Char} (hbs : ∀ b ∈ bs, isBlank b = true) :
    Scans (bs ++ cs) ls := by
  induction bs with
  | nil => exact h
  | cons b bs ih =>
    obtain ⟨hb, hrest⟩ := List.forall_mem_cons.1 hbs
    exact (ih hrest).blank hb

/-- A character that is a token by itself. -/
theorem Scans.sign {c : Char} {kind : TokenKind} {text : String}
    (hstep : ∀ s : Scanner, s.mode = .between →
      s.step c = ⟨⟨kind, text, s.position⟩ :: s.tokens, .between, s.position.after c⟩)
    (h : Scans cs ls) : Scans (c :: cs) ((kind, text) :: ls) := by
  refine Scans.cons (l := [(kind, text)]) (fun s hs ↦ ?_) h
  rw [hstep s hs, lexemes_of_between rfl, lexemes_of_between hs]
  exact ⟨rfl, by simp [Token.lexeme]⟩

/-- Brackets are tokens by themselves, whatever comes next. -/
theorem Scans.opening (h : Scans cs ls) : Scans ('(' :: cs) ((.opening, "(") :: ls) :=
  .sign (fun s hs ↦ by simp only [step, hs]; rfl) h

theorem Scans.closing (h : Scans cs ls) : Scans (')' :: cs) ((.closing, ")") :: ls) :=
  .sign (fun s hs ↦ by simp only [step, hs]; rfl) h

theorem Scans.append_closing (h : Scans cs ls) :
    Scans (cs ++ [')']) (ls ++ [(.closing, ")")]) := by
  exact h.append Scans.nil.closing (isDelimiter_of_mem_head? (by decide))

/-- A blank ends a word. -/
theorem Scans.append_blank (h : Scans cs ls) (h' : Scans ds ms) :
    Scans (cs ++ ' ' :: ds) (ls ++ ms) :=
  h.append (h'.blank (by decide)) (isDelimiter_of_mem_head? (by decide))

/-! ### Words -/

/-- In a mode `m` that collects characters, all characters are collected if each of them is. -/
theorem run_collecting {m : List Char → ScanMode} {ts : List Token}
    (h : ∀ c ∈ cs, ∀ read p, (⟨ts, m read, p⟩ : Scanner).step c = ⟨ts, m (c :: read), p.after c⟩)
    (read : List Char) (p : Position) :
    (⟨ts, m read, p⟩ : Scanner).run cs = ⟨ts, m (cs.reverse ++ read), cs.foldl .after p⟩ := by
  induction cs generalizing read p with
  | nil => rfl
  | cons c cs ih =>
    obtain ⟨hc, hcs⟩ := List.forall_mem_cons.1 h
    show ((⟨ts, m read, p⟩ : Scanner).step c).run cs = _
    rw [hc, ih hcs, List.reverse_cons, List.append_assoc]
    rfl

/-- The characters of a word are collected in reverse. -/
theorem run_word {ts : List Token} {start : Position} {read : List Char} {p : Position}
    (h : ∀ c ∈ cs, isDelimiter c = false) :
    (⟨ts, .word start read, p⟩ : Scanner).run cs =
      ⟨ts, .word start (cs.reverse ++ read), cs.foldl .after p⟩ := by
  refine run_collecting (fun c hc read p ↦ ?_) read p
  simp only [step, h c hc, Bool.false_eq_true, if_false]

/-- What is no delimiter begins a word. -/
theorem step_between {s : Scanner} (hs : s.mode = .between) {c : Char}
    (hc : isDelimiter c = false) :
    s.step c = ⟨s.tokens, .word s.position [c], s.position.after c⟩ := by
  simp only [isDelimiter, Bool.or_eq_false_iff, beq_eq_false_iff_ne] at hc
  obtain ⟨⟨⟨⟨hblank, hopen⟩, hclose⟩, hquote⟩, hsemicolon⟩ := hc
  simp only [step, hs, enter, hblank, hopen, hclose, hquote, hsemicolon, if_false,
    Bool.false_eq_true]

end Scanner

open Scanner

/-- A word is scanned as itself. -/
theorem IsWord.scans {text : String} (h : IsWord text) : Scans text.toList [(.word, text)] := by
  intro s hs
  obtain ⟨hne, hchars⟩ := h
  obtain ⟨c, cs, hcons⟩ := List.exists_cons_of_ne_nil hne
  rw [hcons] at hchars ⊢
  obtain ⟨hc, hcs⟩ := List.forall_mem_cons.1 hchars
  have htext : String.ofList (cs.reverse ++ [c]).reverse = text := by
    rw [List.reverse_append, List.reverse_reverse, List.reverse_singleton, List.singleton_append,
      ← hcons, String.ofList_toList]
  have hrun : s.run (c :: cs) = (s.step c).run cs := rfl
  rw [hrun, step_between hs hc, run_word hcs]
  refine ⟨rfl, ?_⟩
  rw [lexemes, lexemes_of_between hs, settle]
  simp only [finished, htext, List.reverse_cons, List.map_append, List.map_cons, List.map_nil,
    Token.lexeme]

/-! ### Quoted strings -/

/-- The characters of a number are digits of its base. -/
theorem exists_digitChar_of_mem_toDigits {base n : Nat} (hbase : 1 < base) {c : Char}
    (h : c ∈ Nat.toDigits base n) : ∃ d < base, c = Nat.digitChar d := by
  induction n using Nat.strongRecOn with
  | ind n ih =>
    rcases Nat.lt_or_ge n base with hn | hn
    · rw [Nat.toDigits_of_lt_base hn] at h
      exact ⟨n, hn, List.mem_singleton.1 h⟩
    · rw [Nat.toDigits_of_base_le hbase hn, List.mem_append, List.mem_singleton] at h
      rcases h with h | h
      · exact ih (n / base) (Nat.div_lt_self (by omega) hbase) h
      · exact ⟨n % base, Nat.mod_lt _ (by omega), h⟩

namespace Quoted

/-- Whether a character is written by itself or with an escape that is read back. -/
def IsPlain (c : Char) : Prop := c = '\n' ∨ c = '\t' ∨ CodePoints.unprintable.contains c = false

instance (c : Char) : Decidable (IsPlain c) := inferInstanceAs (Decidable (_ ∨ _ ∨ _))

/-- The printable characters of ASCII are not written by number. -/
theorem isPlain_of_ascii {c : Char} (hlow : 0x20 ≤ c.toNat) (hhigh : c.toNat ≤ 0x7e) :
    IsPlain c := by
  have hchanges : CodePoints.unprintable.changes =
      0x0 :: 0x20 :: 0x7f :: CodePoints.unprintable.changes.drop 3 := rfl
  refine .inr (.inr ?_)
  rw [CodePoints.contains, hchanges, CodePoints.containsFrom, if_neg (by omega),
    CodePoints.containsFrom, if_neg (by omega), CodePoints.containsFrom, if_pos (by omega)]
  rfl

/-- What is read where a character was written between quotes. Of an escape that is not known only
the backslash is left out. -/
def reread (c : Char) : List Char :=
  if IsPlain c then [c]
  else if c = '\r' then ['r']
  else if c = '\x00' then ['0']
  else 'u' :: ('\x7b' :: Nat.toDigits 16 c.toNat ++ ['\x7d'])

/-- A plain character is read back. -/
theorem reread_of_isPlain {c : Char} (h : IsPlain c) : reread c = [c] := if_pos h

theorem flatMap_reread_of_isPlain {cs : List Char} (h : ∀ c ∈ cs, IsPlain c) :
    cs.flatMap reread = cs := by
  induction cs with
  | nil => rfl
  | cons c cs ih =>
    obtain ⟨hc, hcs⟩ := List.forall_mem_cons.1 h
    rw [List.flatMap_cons, reread_of_isPlain hc, ih hcs, List.singleton_append]

/-- The letters of the escapes of two characters, each with what it stands for. -/
def shortEscapes : List (Char × Char) :=
  [('"', '"'), ('\\', '\\'), ('n', '\n'), ('t', '\t'), ('r', '\r'), ('0', '\x00')]

/-- What can be written for a character: a short escape, its number, or itself. -/
inductive Escapes : Char → List Char → Prop
  | short {letter c : Char} (h : (letter, c) ∈ shortEscapes) : Escapes c ['\\', letter]
  | number (c : Char) : Escapes c ('\\' :: 'u' :: '\x7b' :: (Nat.toDigits 16 c.toNat ++ ['\x7d']))
  | plain {c : Char} (h : ∀ p ∈ shortEscapes, c ≠ p.2) : Escapes c [c]

/-- **What is written for a character** can be. -/
theorem escapes (c : Char) : Escapes c (escape c) := by
  unfold escape
  split
  next hc => subst hc; exact .short (by decide)
  split
  next hc => subst hc; exact .short (by decide)
  split
  next hc => subst hc; exact .short (by decide)
  split
  next hc => subst hc; exact .short (by decide)
  split
  next hc => subst hc; exact .short (by decide)
  split
  next hc => subst hc; exact .short (by decide)
  split
  next => exact .number c
  next => exact .plain (by simp [shortEscapes, *])

/-- The number of a character has neither quotes nor backslashes in it. -/
theorem ne_of_mem_number {n : Nat} {c : Char}
    (h : c ∈ '\x7b' :: Nat.toDigits 16 n ++ ['\x7d']) : c ≠ '"' ∧ c ≠ '\\' := by
  rcases List.mem_append.1 h with h | h
  · rcases List.mem_cons.1 h with rfl | h
    · decide
    · obtain ⟨d, hd, rfl⟩ := exists_digitChar_of_mem_toDigits (by decide) h
      have hall : ∀ d < 16, Nat.digitChar d ≠ '"' ∧ Nat.digitChar d ≠ '\\' := by decide
      exact hall d hd
  · obtain rfl := List.mem_singleton.1 h
    decide

end Quoted

namespace Scanner

variable {cs : List Char} {ts : List Token} {start : Position} {read : List Char}

/-- In a string, all but the quote and the backslash stand for themselves. -/
theorem run_unescaped (h : ∀ c ∈ cs, c ≠ '"' ∧ c ≠ '\\') (p : Position) :
    (⟨ts, .quotation start read, p⟩ : Scanner).run cs =
      ⟨ts, .quotation start (cs.reverse ++ read), cs.foldl .after p⟩ := by
  refine run_collecting (fun c hc read p ↦ ?_) read p
  simp only [step, h c hc, if_false]

/-- What the escape of a character stands for. -/
theorem run_escape (c : Char) (p : Position) :
    ∃ q, (⟨ts, .quotation start read, p⟩ : Scanner).run (Quoted.escape c) =
      ⟨ts, .quotation start ((Quoted.reread c).reverse ++ read), q⟩ := by
  unfold Quoted.escape
  split
  next hc => subst hc; rw [Quoted.reread_of_isPlain (by decide)]; exact ⟨_, rfl⟩
  split
  next hc => subst hc; rw [Quoted.reread_of_isPlain (by decide)]; exact ⟨_, rfl⟩
  split
  next hc => subst hc; rw [Quoted.reread_of_isPlain (by decide)]; exact ⟨_, rfl⟩
  split
  next hc => subst hc; rw [Quoted.reread_of_isPlain (by decide)]; exact ⟨_, rfl⟩
  next hquote hbackslash hn ht =>
    unfold Quoted.reread
    split
    next hc => subst hc; rw [if_neg (by decide)]; exact ⟨_, rfl⟩
    next hr =>
      split
      next hc => subst hc; rw [if_neg (by decide)]; exact ⟨_, rfl⟩
      next hzero =>
        split
        next hnumber =>
          have hplain : ¬Quoted.IsPlain c := by
            simp [Quoted.IsPlain, hn, ht, hnumber]
          rw [if_neg hplain]
          -- the backslash takes the letter as it is, and all that follows is read as it stands
          let number := '\x7b' :: Nat.toDigits 16 c.toNat ++ ['\x7d']
          have hnumber : ∀ d ∈ number, d ≠ '"' ∧ d ≠ '\\' := fun d hd ↦ Quoted.ne_of_mem_number hd
          have hrun : (⟨ts, .quotation start ('u' :: read), (p.after '\\').after 'u'⟩ : Scanner).run
              number = _ := run_unescaped hnumber _
          exact ⟨_, hrun.trans (by rw [List.reverse_cons, List.append_assoc]; rfl)⟩
        next hprintable =>
          have hplain : Quoted.IsPlain c := .inr (.inr (Bool.eq_false_iff.2 hprintable))
          rw [if_pos hplain]
          refine ⟨p.after c, ?_⟩
          show (⟨ts, .quotation start read, p⟩ : Scanner).step c = _
          simp only [step, hquote, hbackslash, if_false]
          rfl

/-- What is written for a string is collected as what it is read back as. -/
theorem run_quotation (cs : List Char) (p : Position) :
    ∃ q, (⟨ts, .quotation start read, p⟩ : Scanner).run (cs.flatMap Quoted.escape) =
      ⟨ts, .quotation start ((cs.flatMap Quoted.reread).reverse ++ read), q⟩ := by
  induction cs generalizing read p with
  | nil => exact ⟨p, rfl⟩
  | cons c cs ih =>
    obtain ⟨q, hq⟩ := run_escape c p
    obtain ⟨q', hq'⟩ := ih q
    refine ⟨q', ?_⟩
    rw [List.flatMap_cons, run_append, hq, hq', List.flatMap_cons, List.reverse_append,
      List.append_assoc]

/-- A written string is always scanned as one string again. -/
theorem scans_encode (cs : List Char) :
    Scans (Quoted.encode cs) [(.quotation, String.ofList (cs.flatMap Quoted.reread))] := by
  intro s hs
  have hopen : s.step '"' = ⟨s.tokens, .quotation s.position [], s.position.after '"'⟩ := by
    simp only [step, hs]
    rfl
  obtain ⟨q, hq⟩ : ∃ q, (⟨s.tokens, .quotation s.position [], s.position.after '"'⟩ : Scanner).run
      (cs.flatMap Quoted.escape) =
        ⟨s.tokens, .quotation s.position ((cs.flatMap Quoted.reread).reverse ++ []), q⟩ :=
    run_quotation cs _
  have hrun : s.run (Quoted.encode cs) =
      ⟨finished .quotation s.position (cs.flatMap Quoted.reread).reverse :: s.tokens, .between,
        q.after '"'⟩ := by
    show ((s.step '"').run (cs.flatMap Quoted.escape ++ ['"'])) = _
    rw [hopen, run_append, hq, List.append_nil]
    rfl
  rw [hrun, lexemes_of_between rfl, lexemes_of_between hs]
  exact ⟨rfl, by simp [finished, Token.lexeme]⟩

/-- So a plain string is read back. -/
theorem scans_encode_of_isPlain (h : ∀ c ∈ cs, Quoted.IsPlain c) :
    Scans (Quoted.encode cs) [(.quotation, String.ofList cs)] := by
  have hscans := scans_encode cs
  rwa [Quoted.flatMap_reread_of_isPlain h] at hscans

end Scanner

/-! ### Whole texts -/

/-- A text that scans as lexemes has tokens with these lexemes, wherever they stand. -/
theorem exists_tokens_of_scans {text : String} {ls : List Lexeme} (h : Scans text.toList ls) :
    ∃ ts, tokens text = .ok ts ∧ ts.map Token.lexeme = ls := by
  obtain ⟨hmode, hlexemes⟩ := h .start rfl
  exact ⟨_, finish_eq hmode, hlexemes⟩

/-! ### Words that were scanned -/

/-- Whether what was read of a word is not empty, and has no delimiter. -/
def ScanMode.Worded : ScanMode → Prop
  | .word _ read => read ≠ [] ∧ ∀ c ∈ read, Scanner.isDelimiter c = false
  | _ => True

namespace Scanner

/-- Whether the words that a scanner has finished are words, and so is the one it is inside of. -/
structure Worded (s : Scanner) : Prop where
  tokens : ∀ t ∈ s.tokens, t.kind = .word → IsWord t.text
  mode : s.mode.Worded

/-- What was collected as a word is one. -/
theorem isWord_of_read {read : List Char} (h : read ≠ [] ∧ ∀ c ∈ read, isDelimiter c = false) :
    IsWord (String.ofList read.reverse) := by
  refine ⟨?_, ?_⟩ <;> rw [String.toList_ofList]
  · exact fun hnil ↦ h.1 (List.reverse_eq_nil_iff.1 hnil)
  · exact fun c hc ↦ h.2 c (List.mem_reverse.1 hc)

theorem worded_enter {ts : List Token} (h : ∀ t ∈ ts, t.kind = .word → IsWord t.text)
    (p q : Position) (c : Char) : Worded ⟨(enter ts p c).1, (enter ts p c).2, q⟩ := by
  unfold enter
  split
  · exact ⟨h, trivial⟩
  split
  · exact ⟨h, trivial⟩
  split
  · exact ⟨List.forall_mem_cons.2 ⟨nofun, h⟩, trivial⟩
  split
  · exact ⟨List.forall_mem_cons.2 ⟨nofun, h⟩, trivial⟩
  split
  · exact ⟨h, trivial⟩
  · refine ⟨h, List.cons_ne_nil c [], fun d hd ↦ ?_⟩
    rw [List.mem_singleton.1 hd]
    simp [isDelimiter, *]

/-- Each further character keeps it a word or ends it. -/
theorem worded_step {s : Scanner} (h : s.Worded) (c : Char) : (s.step c).Worded := by
  obtain ⟨ts, mode, p⟩ := s
  obtain ⟨htokens, hmode⟩ := h
  cases mode with
  | between => exact worded_enter htokens _ _ c
  | comment =>
    refine ⟨htokens, ?_⟩
    simp only [step]
    split <;> trivial
  | word start read =>
    simp only [step]
    split
    · refine worded_enter (List.forall_mem_cons.2 ⟨fun _ ↦ ?_, htokens⟩) _ _ c
      exact isWord_of_read hmode
    · rename_i hc
      refine ⟨htokens, List.cons_ne_nil c read, List.forall_mem_cons.2 ⟨?_, hmode.2⟩⟩
      exact Bool.eq_false_iff.2 hc
  | quotation start read =>
    simp only [step]
    split
    · exact ⟨List.forall_mem_cons.2 ⟨nofun, htokens⟩, trivial⟩
    · split <;> exact ⟨htokens, trivial⟩
  | escape start read => exact ⟨htokens, trivial⟩

theorem worded_run {s : Scanner} (h : s.Worded) (cs : List Char) : (s.run cs).Worded := by
  induction cs generalizing s with
  | nil => exact h
  | cons c cs ih => exact ih (worded_step h c)

/-- At the end of the text the last word is complete. -/
theorem isWord_of_mem_finish {s : Scanner} (h : s.Worded) {ts : List Token}
    (hts : s.finish = .ok ts)
    {t : Token} (ht : t ∈ ts) (hkind : t.kind = .word) : IsWord t.text := by
  obtain ⟨tokens, mode, p⟩ := s
  obtain ⟨htokens, hmode⟩ := h
  cases mode with
  | between | comment =>
    cases hts
    exact htokens t (List.mem_reverse.1 ht) hkind
  | word start read =>
    cases hts
    rcases List.mem_cons.1 (List.mem_reverse.1 ht) with rfl | ht
    · exact isWord_of_read hmode
    · exact htokens t ht hkind
  | quotation | escape => cases hts

end Scanner

/-- **Every word of a text is a word.** -/
theorem isWord_of_mem_tokens {text : String} {ts : List Token} (hts : tokens text = .ok ts)
    {t : Token} (ht : t ∈ ts) (hkind : t.kind = .word) : IsWord t.text := by
  have hstart : Scanner.start.Worded := ⟨fun t ht ↦ absurd ht List.not_mem_nil, trivial⟩
  exact isWord_of_mem_finish (worded_run hstart text.toList) hts ht hkind

end NaturalDeduction
