import NaturalDeduction.Proofs.Parsing

/-!
# Telling s-expressions by what is printed

Two s-expressions whose words are words, and that are printed the same, are the same but for their
places (`SExpr.unplaced_eq_of_print_eq`). What is parsed from the printed text does not show that:
strings are printed with escapes that the scanner does not know, and different strings can be read
back as one. But no escape begins another, and none begins with a quote, so a printed string tells
its characters and where it ends.

The same holds of every part of a printed text. It is stated of an s-expression with more text
behind it that does not go on with a word: the text tells the s-expression and the rest
(`SExpr.print_append_inj`).

Main definitions and statements:

* `Quoted.Escapes.append_inj`: escapes form a prefix code, and none begins with the quote that
  ends a string.
* `SExpr.firstKind`: what kind of token a printed form begins with, which is the first thing that
  the text tells.
* `SExpr.print_append_inj`: by recursion on the s-expression, with the rest of the text as a
  parameter.
-/

namespace NaturalDeduction

open Scanner

/-- A text tells where its first part ends if a character that the part does not have comes next. -/
theorem append_inj_of_head? {p : Char → Bool} {as bs cs ds : List Char}
    (has : ∀ c ∈ as, p c = false) (hbs : ∀ c ∈ bs, p c = false) (hcs : ∀ c ∈ cs.head?, p c = true)
    (hds : ∀ c ∈ ds.head?, p c = true) (h : as ++ cs = bs ++ ds) : as = bs ∧ cs = ds := by
  have htake : ∀ {as cs : List Char}, (∀ c ∈ as, p c = false) → (∀ c ∈ cs.head?, p c = true) →
      (as ++ cs).takeWhile (fun c ↦ !p c) = as := by
    intro as cs has hcs
    rw [List.takeWhile_append_of_pos fun c hc ↦ by rw [has c hc]; rfl]
    cases cs with
    | nil => exact List.append_nil as
    | cons c cs => rw [List.takeWhile_cons, hcs c rfl]; exact List.append_nil as
  obtain rfl : as = bs := by rw [← htake has hcs, h, htake hbs hds]
  exact ⟨rfl, List.append_cancel_left h⟩

/-! ### Strings -/

/-- The hexadecimal digits of a number tell the number. -/
theorem eq_of_toDigits_eq {n m : Nat} (h : Nat.toDigits 16 n = Nat.toDigits 16 m) : n = m := by
  have hdigit : ∀ k < 16, ∀ l < 16, Nat.digitChar k = Nat.digitChar l → k = l := by decide
  induction n using Nat.strongRecOn generalizing m with
  | ind n ih =>
    rcases Nat.lt_or_ge n 16 with hn | hn <;> rcases Nat.lt_or_ge m 16 with hm | hm
    · rw [Nat.toDigits_of_lt_base hn, Nat.toDigits_of_lt_base hm] at h
      exact hdigit n hn m hm (List.cons.inj h).1
    · rw [Nat.toDigits_of_lt_base hn, Nat.toDigits_of_base_le (by decide) hm] at h
      have hlength := congrArg List.length h
      simp at hlength
    · rw [Nat.toDigits_of_base_le (by decide) hn, Nat.toDigits_of_lt_base hm] at h
      have hlength := congrArg List.length h
      simp at hlength
    · rw [Nat.toDigits_of_base_le (by decide) hn, Nat.toDigits_of_base_le (by decide) hm] at h
      obtain ⟨hrest, hlast⟩ := List.append_inj' h rfl
      have hquotient : n / 16 = m / 16 := ih (n / 16) (by omega) hrest
      have hremainder : n % 16 = m % 16 := hdigit _ (Nat.mod_lt n (by decide)) _
        (Nat.mod_lt m (by decide)) (List.cons.inj hlast).1
      omega

namespace Quoted

variable {c d : Char} {xs ys as bs : List Char}

/-- No escape begins with a quote. -/
theorem Escapes.ne_quote (h : Escapes c xs) : xs ++ as ≠ '"' :: bs := by
  cases h with
  | short | number => exact fun heq ↦ absurd (List.cons.inj heq).1 (by decide)
  | plain hne => exact fun heq ↦ hne ('"', '"') (by decide) (List.cons.inj heq).1

/-- **No escape begins another**, and every character has its own. -/
theorem Escapes.append_inj (h : Escapes c xs) (h' : Escapes d ys) (heq : xs ++ as = ys ++ bs) :
    c = d ∧ as = bs := by
  have hletter : ∀ p ∈ shortEscapes, p.1 ≠ 'u' := by decide
  have hbackslash : ('\\', '\\') ∈ shortEscapes := by decide
  cases h with
  | short hc =>
    cases h' with
    | short hd =>
      have hshort : ∀ p ∈ shortEscapes, ∀ q ∈ shortEscapes, p.1 = q.1 → p.2 = q.2 := by decide
      obtain ⟨hletter, hrest⟩ := List.cons.inj (List.cons.inj heq).2
      exact ⟨hshort _ hc _ hd hletter, hrest⟩
    | number => exact absurd (List.cons.inj (List.cons.inj heq).2).1 (hletter _ hc)
    | plain hne => exact absurd (List.cons.inj heq).1.symm (hne _ hbackslash)
  | number =>
    cases h' with
    | short hd => exact absurd (List.cons.inj (List.cons.inj heq).2).1.symm (hletter _ hd)
    | number =>
      have hbrace : ∀ {n : Nat}, ∀ e ∈ Nat.toDigits 16 n, (e == '\x7d') = false := by
        intro n e he
        obtain ⟨k, hk, rfl⟩ := exists_digitChar_of_mem_toDigits (by decide) he
        have hall : ∀ k < 16, (Nat.digitChar k == '\x7d') = false := by decide
        exact hall k hk
      simp only [List.cons_append, List.append_assoc, List.nil_append, List.cons.injEq,
        true_and] at heq
      obtain ⟨hnumber, hrest⟩ := append_inj_of_head? (p := (· == '\x7d')) hbrace hbrace
        (by rintro _ ⟨⟩; rfl) (by rintro _ ⟨⟩; rfl) heq
      exact ⟨Char.toNat_inj.1 (eq_of_toDigits_eq hnumber), (List.cons.inj hrest).2⟩
    | plain hne => exact absurd (List.cons.inj heq).1.symm (hne _ hbackslash)
  | plain hne =>
    cases h' with
    | short | number => exact absurd (List.cons.inj heq).1 (hne _ hbackslash)
    | plain => exact List.cons.inj heq

/-- What is written between quotes tells the characters. -/
theorem flatMap_escape_append_inj {cs ds : List Char}
    (h : cs.flatMap escape ++ '"' :: as = ds.flatMap escape ++ '"' :: bs) : cs = ds ∧ as = bs := by
  induction cs generalizing ds with
  | nil =>
    cases ds with
    | nil => exact ⟨rfl, (List.cons.inj h).2⟩
    | cons d ds =>
      rw [List.flatMap_cons, List.append_assoc] at h
      exact absurd h.symm (escapes d).ne_quote
  | cons c cs ih =>
    rw [List.flatMap_cons, List.append_assoc] at h
    cases ds with
    | nil => exact absurd h (escapes c).ne_quote
    | cons d ds =>
      rw [List.flatMap_cons, List.append_assoc] at h
      obtain ⟨rfl, hrest⟩ := (escapes c).append_inj (escapes d) h
      obtain ⟨rfl, hend⟩ := ih hrest
      exact ⟨rfl, hend⟩

end Quoted

/-! ### S-expressions

Lists end with a bracket and items are told apart by spaces, so the rest of the text has to be
carried along: it begins with a space or a bracket wherever an item ends.
-/

namespace SExpr

/-- The characters of items, a space in front of each. -/
def spaced (xs : List SExpr) : List Char := xs.flatMap fun x ↦ ' ' :: x.print.toList

/-- Items behind the first one are printed with a space in front. -/
theorem spaced_cons (x : SExpr) (rest : List SExpr) :
    spaced (x :: rest) = ' ' :: (x.print.toList ++ spaced rest) := List.flatMap_cons

/-- The first item has no space in front of it. -/
theorem toList_printItems_cons (x : SExpr) (rest : List SExpr) :
    (printItems (x :: rest)).toList = x.print.toList ++ spaced rest := by
  induction rest generalizing x with
  | nil => rw [printItems, spaced, List.flatMap_nil, List.append_nil]
  | cons y rest ih =>
    rw [printItems.eq_3 _ _ (List.cons_ne_nil y rest), String.toList_append, String.toList_append,
      ih, spaced_cons, List.append_assoc]
    rfl

theorem toList_print_list (position : Position) (items : List SExpr) :
    (list position items).print.toList = '(' :: ((printItems items).toList ++ [')']) := by
  rw [print, String.toList_append, String.toList_append, List.append_assoc]
  rfl

theorem toList_print_quotation (contents : String) (position : Position) :
    (quotation contents position).print.toList =
      '"' :: (contents.toList.flatMap Quoted.escape ++ ['"']) := by
  rw [print, quoted, String.toList_ofList]
  rfl

/-- The sort of token that a character begins. -/
def kindOf (c : Char) : TokenKind :=
  if c = '(' then .opening else if c = ')' then .closing else if c = '"' then .quotation else .word

/-- The sort of token that an s-expression begins with. -/
def firstKind : SExpr → TokenKind
  | word _ _ => .word
  | quotation _ _ => .quotation
  | list _ _ => .opening

/-- What begins with no delimiter begins with a word. -/
theorem kindOf_eq_word {c : Char} (h : isDelimiter c = false) : kindOf c = .word := by
  simp only [isDelimiter, Bool.or_eq_false_iff, beq_eq_false_iff_ne] at h
  obtain ⟨⟨⟨⟨-, hopen⟩, hclose⟩, hquote⟩, -⟩ := h
  rw [kindOf, if_neg hopen, if_neg hclose, if_neg hquote]

/-- The first character that is printed tells the sort of the first token. -/
theorem exists_print_append {x : SExpr} (hx : x.Worded) (as : List Char) :
    ∃ c rest, x.print.toList ++ as = c :: rest ∧ kindOf c = x.firstKind := by
  cases hx with
  | word position h =>
    obtain ⟨c, rest, hcons⟩ := List.exists_cons_of_ne_nil h.ne_nil
    refine ⟨c, rest ++ as, ?_, kindOf_eq_word (h.not_delimiter c (hcons ▸ List.mem_cons_self))⟩
    rw [print, hcons]
    rfl
  | quotation contents position =>
    rw [toList_print_quotation]
    exact ⟨'"', _, rfl, rfl⟩
  | list position h =>
    rw [toList_print_list]
    exact ⟨'(', _, rfl, rfl⟩

/-- Two texts that are the same begin with the same kind of token. -/
theorem firstKind_eq {x y : SExpr} (hx : x.Worded) (hy : y.Worded) {as bs : List Char}
    (h : x.print.toList ++ as = y.print.toList ++ bs) : x.firstKind = y.firstKind := by
  obtain ⟨c, rest, hcons, hc⟩ := exists_print_append hx as
  obtain ⟨d, rest', hcons', hd⟩ := exists_print_append hy bs
  rw [hcons, hcons'] at h
  rw [← hc, ← hd, (List.cons.inj h).1]

/-- What is printed does not begin with a closing bracket. -/
theorem print_append_ne {x : SExpr} (hx : x.Worded) (as bs : List Char) :
    x.print.toList ++ as ≠ ')' :: bs := by
  intro h
  obtain ⟨c, rest, hcons, hc⟩ := exists_print_append hx as
  rw [hcons] at h
  obtain ⟨rfl, -⟩ := List.cons.inj h
  cases x <;> cases hc

/-- Whether the printed form of an s-expression tells it from all others, and where it ends. -/
def Tells (x : SExpr) : Prop :=
  ∀ {y : SExpr} {as bs : List Char}, y.Worded → (∀ c ∈ as.head?, isDelimiter c = true) →
    (∀ c ∈ bs.head?, isDelimiter c = true) → x.print.toList ++ as = y.print.toList ++ bs →
      x.unplaced = y.unplaced ∧ as = bs

/-- By induction on the items: a space goes on, and the closing bracket ends both lists at once. -/
theorem spaced_append_inj {xs ys : List SExpr} {as bs : List Char} (hxs : ∀ x ∈ xs, x.Tells)
    (hys : ∀ y ∈ ys, y.Worded) (h : spaced xs ++ ')' :: as = spaced ys ++ ')' :: bs) :
    xs.map unplaced = ys.map unplaced ∧ as = bs := by
  have hends : ∀ (zs : List SExpr) (cs : List Char),
      ∀ c ∈ (spaced zs ++ ')' :: cs).head?, isDelimiter c = true := by
    intro zs cs
    cases zs with
    | nil => exact isDelimiter_of_mem_head? (by decide)
    | cons z zs =>
      rw [spaced_cons, List.cons_append]
      exact isDelimiter_of_mem_head? (by decide)
  induction xs generalizing ys with
  | nil =>
    cases ys with
    | nil => exact ⟨rfl, (List.cons.inj h).2⟩
    | cons y ys => exact absurd (List.cons.inj h).1 (by decide)
  | cons x xs ih =>
    cases ys with
    | nil => exact absurd (List.cons.inj h).1 (by decide)
    | cons y ys =>
      obtain ⟨hx, hxs⟩ := List.forall_mem_cons.1 hxs
      obtain ⟨hy, hys⟩ := List.forall_mem_cons.1 hys
      rw [spaced_cons, spaced_cons, List.cons_append, List.cons_append, List.append_assoc,
        List.append_assoc] at h
      obtain ⟨hfirst, hrest⟩ := hx hy (hends xs as) (hends ys bs) (List.cons.inj h).2
      obtain ⟨hothers, hend⟩ := ih hxs hys hrest
      exact ⟨List.cons_eq_cons.2 ⟨hfirst, hothers⟩, hend⟩

/-- The items of a list, of which the first has no space in front. -/
theorem printItems_append_inj {xs ys : List SExpr} {as bs : List Char} (hxs : ∀ x ∈ xs, x.Tells)
    (hworded : ∀ x ∈ xs, x.Worded) (hys : ∀ y ∈ ys, y.Worded)
    (h : (printItems xs).toList ++ ')' :: as = (printItems ys).toList ++ ')' :: bs) :
    xs.map unplaced = ys.map unplaced ∧ as = bs := by
  cases xs with
  | nil =>
    cases ys with
    | nil => exact ⟨rfl, (List.cons.inj h).2⟩
    | cons y ys =>
      rw [toList_printItems_cons, List.append_assoc] at h
      exact absurd h.symm (print_append_ne (hys y List.mem_cons_self) _ _)
  | cons x xs =>
    cases ys with
    | nil =>
      rw [toList_printItems_cons, List.append_assoc] at h
      exact absurd h (print_append_ne (hworded x List.mem_cons_self) _ _)
    | cons y ys =>
      refine spaced_append_inj hxs hys ?_
      rw [toList_printItems_cons, toList_printItems_cons, List.append_assoc, List.append_assoc] at h
      rw [spaced_cons, spaced_cons, List.cons_append, List.cons_append, List.append_assoc,
        List.append_assoc, h]

/-- **What is printed for an s-expression tells it**, places aside, **and where it ends**. -/
theorem print_append_inj {x : SExpr} (hx : x.Worded) : x.Tells := by
  intro y as bs hy has hbs h
  have hkind := firstKind_eq hx hy h
  induction hx generalizing y as bs with
  | word position hword =>
    cases hy with
    | word position' hword' =>
      obtain ⟨htext, hrest⟩ :=
        append_inj_of_head? hword.not_delimiter hword'.not_delimiter has hbs h
      exact ⟨by rw [unplaced, unplaced, String.toList_inj.1 htext], hrest⟩
    | quotation | list => cases hkind
  | quotation contents position =>
    cases hy with
    | quotation contents' position' =>
      rw [toList_print_quotation, toList_print_quotation, List.cons_append, List.cons_append,
        List.append_assoc, List.append_assoc] at h
      obtain ⟨hchars, hrest⟩ := Quoted.flatMap_escape_append_inj (List.cons.inj h).2
      exact ⟨by rw [unplaced, unplaced, String.toList_inj.1 hchars], hrest⟩
    | word | list => cases hkind
  | list position hitems ih =>
    rename_i items
    cases hy with
    | list position' hitems' =>
      rw [toList_print_list, toList_print_list, List.cons_append, List.cons_append,
        List.append_assoc, List.append_assoc] at h
      have htells : ∀ x ∈ items, x.Tells := fun x hx _ _ _ hy has hbs h ↦
        ih x hx hy has hbs h (firstKind_eq (hitems x hx) hy h)
      obtain ⟨hall, hrest⟩ := printItems_append_inj htells hitems hitems' (List.cons.inj h).2
      refine ⟨?_, hrest⟩
      rw [unplaced, unplaced, unplacedAll_eq_map, unplacedAll_eq_map, hall]
    | word | quotation => cases hkind

/-- **S-expressions that are printed the same are the same**, places aside, if their words are
words. -/
theorem unplaced_eq_of_print_eq {x y : SExpr} (hx : x.Worded) (hy : y.Worded)
    (h : x.print = y.print) : x.unplaced = y.unplaced :=
  have hends : ∀ c ∈ ([] : List Char).head?, isDelimiter c = true := nofun
  (print_append_inj hx hy hends hends (congrArg (·.toList ++ []) h)).1

end SExpr

end NaturalDeduction
