import NaturalDeduction.Proofs.Columns
import NaturalDeduction.Proofs.Legibility

/-!
# Where lines are broken

What is printed for an expression differs from what it would be on one endless line only in the
places that are broken: with one space for each line break and the indentation behind it, it is the
same text. If that text fits on one line it is printed as it is. A line with a place in it that
could have been broken, and was not, ends within the width (`Expression.print_breaks_lines`).

A line that is printed begins with its indentation and the brackets of lists that are broken, goes
on with one piece of text or one list that fits, and ends with the brackets of lists that end there.
A list is printed on its line only if it fits there together with these last brackets, and
`Layout.place` is told how many they are.

The printed lines are described by what they are made of and not by positions in the text. `lines`
cuts the ink at its line breaks, `Opening` says how a line begins, and `LineFits` when it ends
within the width. The column that `Layout.place` carries along is the width of the line so far,
which is where the widths of texts come in (`Tidy.measure_flat`).

Main definitions and statements:

* `unbroken`: the text with its breaks taken out.
* `Layout.Tidy`: no piece has white space that could be taken for a break.
* `Layout.Opening`, `Layout.LineFits`: how a line begins, and when it ends within the width.
* `Layout.place_lines`: the lines of a layout that is placed at a column.
* `Expression.print_breaks_lines`: what is said above of whole expressions.
-/

namespace NaturalDeduction

/-! ### Text on one line -/

/-- Characters with every line break replaced by one space. The spaces that a line begins with are
left out; `atStart` says whether that holds of the next character. -/
def unbrokenFrom (atStart : Bool) : List Char → List Char
  | [] => []
  | c :: rest =>
    if c = '\n' then ' ' :: unbrokenFrom true rest
    else if atStart && c == ' ' then unbrokenFrom true rest
    else c :: unbrokenFrom false rest

/-- A text with each line break, and the indentation behind it, replaced by one space. -/
def unbroken (text : String) : String := String.ofList (unbrokenFrom false text.toList)

theorem unbrokenFrom_newline (atStart : Bool) (cs : List Char) :
    unbrokenFrom atStart ('\n' :: cs) = ' ' :: unbrokenFrom true cs := rfl

theorem unbrokenFrom_indentation (n : Nat) (cs : List Char) :
    unbrokenFrom true (List.replicate n ' ' ++ cs) = unbrokenFrom true cs := by
  induction n with
  | zero => rfl
  | succ n ih => exact ih

/-- Text without a line break is as it is. -/
theorem unbrokenFrom_append {cs : List Char} (h : '\n' ∉ cs) (ds : List Char) :
    unbrokenFrom false (cs ++ ds) = cs ++ unbrokenFrom false ds := by
  induction cs with
  | nil => rfl
  | cons c cs ih =>
    obtain ⟨hc, hcs⟩ := not_or.1 fun hmem ↦ h (List.mem_cons.2 hmem)
    rw [List.cons_append, unbrokenFrom, if_neg (Ne.symm hc), Bool.false_and,
      if_neg Bool.noConfusion, ih hcs]
    rfl

/-- Text without line breaks stays as it is at the start of a line too, unless it begins with a
space. -/
theorem unbrokenFrom_cons {c : Char} (hc : c ≠ '\n' ∧ c ≠ ' ') (atStart : Bool) (cs : List Char) :
    unbrokenFrom atStart (c :: cs) = c :: unbrokenFrom false cs := by
  rw [unbrokenFrom, if_neg hc.1, beq_false_of_ne hc.2, Bool.and_false, if_neg Bool.noConfusion]

/-- What is on the page if a place is not broken. -/
def Ink.closed : Ink → Ink
  | newline _ => gap
  | i => i

namespace Layout

/-! ### Tidy layouts -/

/-- Whether all pieces stay on their lines and do not look like indentation. -/
inductive Tidy : Layout → Prop
  | piece {s : String} (hline : ∀ c ∈ s.toList, c ≠ '\n' ∧ c ≠ '\r')
    (hstart : s.toList.head? ≠ some ' ') : Tidy (.piece s)
  | list {head : Layout} {items : List Layout} (hhead : head.Tidy) (hitems : ∀ l ∈ items, l.Tidy) :
    Tidy (.list head items)

/-- A list is tidy if its head and its items are. -/
theorem tidy_list {head : Layout} {items : List Layout} :
    (list head items).Tidy ↔ head.Tidy ∧ ∀ l ∈ items, l.Tidy :=
  ⟨fun h ↦ by cases h with | list hhead hitems => exact ⟨hhead, hitems⟩, fun h ↦ .list h.1 h.2⟩

/-- The characters of a list on one line. -/
theorem inkChars_flat_list (head : Layout) (items : List Layout) :
    inkChars (flat (list head items)) =
      '(' :: (inkChars (flat head) ++ (inkChars (flatItems items) ++ [')'])) := by
  rw [flat, inkChars_append, inkChars_append, inkChars_cons, List.append_assoc, List.append_assoc]
  rfl

/-- On one line, items have a space in front. -/
theorem inkChars_flatItems_cons (l : Layout) (rest : List Layout) :
    inkChars (flatItems (l :: rest)) = ' ' :: (inkChars (flat l) ++ inkChars (flatItems rest)) := by
  rw [flatItems, List.cons_append, inkChars_cons, inkChars_append]
  rfl

/-- What is tidy is written on one line. -/
theorem Tidy.flat_line {l : Layout} (h : l.Tidy) :
    ∀ c ∈ inkChars (flat l), c ≠ '\n' ∧ c ≠ '\r' := by
  induction l with
  | piece s =>
    cases h with
    | piece hline hstart =>
      rw [flat, inkChars_piece]
      exact hline
  | list head items ihhead ihitems =>
    obtain ⟨hhead, hitems⟩ := tidy_list.1 h
    have hall : ∀ c ∈ inkChars (flatItems items), c ≠ '\n' ∧ c ≠ '\r' := by
      clear h
      induction items with
      | nil => exact List.forall_mem_nil _
      | cons l rest ih =>
        obtain ⟨hl, hrest⟩ := List.forall_mem_cons.1 hitems
        obtain ⟨ihl, ihrest⟩ := List.forall_mem_cons.1 ihitems
        rw [inkChars_flatItems_cons, List.forall_mem_cons, List.forall_mem_append]
        exact ⟨by decide, ihl hl, ih ihrest hrest⟩
    rw [inkChars_flat_list, List.forall_mem_cons, List.forall_mem_append, List.forall_mem_append]
    exact ⟨by decide, ihhead hhead, hall, List.forall_mem_singleton.2 (by decide)⟩

/-! ### The width on one line -/

/-- Characters before which text is measured by itself. -/
def Parted (cs : List Char) : Prop := ∀ c ∈ cs.head?, IsSeparator c

/-- Widths add up in front of a separator. -/
theorem measure_append {cs ds : List Char} (h : Parted ds) :
    (measure (cs ++ ds)).1 = (measure cs).1 + (measure ds).1 := by
  cases ds with
  | nil => rw [List.append_nil, measure_nil, Int.add_zero]
  | cons d ds => exact (measure_append_cons (h d rfl) cs ds).1

/-- Separators in front add one column each. -/
theorem measure_separators {cs : List Char} (h : ∀ c ∈ cs, IsSeparator c) (ds : List Char) :
    (measure (cs ++ ds)).1 = cs.length + (measure ds).1 := by
  induction cs with
  | nil => exact (Int.zero_add _).symm
  | cons c cs ih =>
    obtain ⟨hc, hcs⟩ := List.forall_mem_cons.1 h
    rw [List.cons_append, measure_cons_separator hc, ih hcs, List.length_cons]
    dsimp only
    omega

/-- Items on one line begin with a space, so widths add up in front of them. -/
theorem parted_flatItems_append {items : List Layout} {ds : List Char} (h : Parted ds) :
    Parted (inkChars (flatItems items) ++ ds) := by
  cases items with
  | nil => exact h
  | cons l rest =>
    rw [inkChars_flatItems_cons]
    rintro _ ⟨⟩
    exact .inr (.inr rfl)

/-- The width that decides where lines are broken is the width of the text on one line. -/
theorem Tidy.measure_flat {l : Layout} (h : l.Tidy) :
    (measure (inkChars (flat l))).1 = flatWidth l := by
  induction l with
  | piece s =>
    cases h with
    | piece hline hstart =>
      rw [flat, inkChars_piece, flatWidth, textWidth_eq_measure hline]
  | list head items ihhead ihitems =>
    obtain ⟨hhead, hitems⟩ := tidy_list.1 h
    have hall : (measure (inkChars (flatItems items) ++ [')'])).1 = flatItemsWidth items + 1 := by
      clear h
      induction items with
      | nil => rfl
      | cons l rest ih =>
        obtain ⟨hl, hrest⟩ := List.forall_mem_cons.1 hitems
        obtain ⟨ihl, ihrest⟩ := List.forall_mem_cons.1 ihitems
        rw [inkChars_flatItems_cons, List.cons_append, List.append_assoc,
          measure_cons_separator (.inr (.inr rfl)),
          measure_append (parted_flatItems_append (by rintro _ ⟨⟩; exact .inr (.inl rfl))), ihl hl,
          ih ihrest hrest, flatItemsWidth]
        push_cast
        omega
    rw [inkChars_flat_list, measure_cons_separator (.inl rfl),
      measure_append (parted_flatItems_append (by rintro _ ⟨⟩; exact .inr (.inl rfl))),
      ihhead hhead, hall, flatWidth]
    push_cast
    omega

/-- What fits on one line is printed on it. -/
theorem ink_eq_flat {l : Layout} (h : flatWidth l ≤ pageWidth) : ink l = flat l := by
  cases l with
  | piece s => rfl
  | list head items => rw [ink, place, if_pos (by omega)]

/-! ### Breaks are spaces -/

/-- On one line no place is broken. -/
theorem newline_notMem_flat (l : Layout) (indent : Nat) : .newline indent ∉ flat l := by
  induction l with
  | piece s => simp [flat]
  | list head items ihhead ihitems =>
    have hitems : .newline indent ∉ flatItems items := by
      induction items with
      | nil => exact List.not_mem_nil
      | cons l rest ih =>
        obtain ⟨hl, hrest⟩ := List.forall_mem_cons.1 ihitems
        simp [flatItems, hl, ih hrest]
    simp [flat, ihhead, hitems]

/-- On one line there is no place that could be broken. -/
theorem map_closed_flat (l : Layout) : (flat l).map Ink.closed = flat l := by
  refine (List.map_congr_left fun i hi ↦ ?_).trans (List.map_id (flat l))
  cases i with
  | newline indent => exact absurd hi (newline_notMem_flat l indent)
  | piece | gap => rfl

/-- **The places that are broken are places to break of the flat form**, and none of these is
lost. -/
theorem map_closed_place (l : Layout) (width indent closers column : Nat) :
    (place width indent closers column l).1.map Ink.closed = flat l := by
  induction l generalizing indent closers column with
  | piece s => rfl
  | list head items ihhead ihitems =>
    have hitems : ∀ closers column,
        (placeItems width indent closers column items).1.map Ink.closed = flatItems items := by
      intro closers
      induction items with
      | nil => exact fun _ ↦ rfl
      | cons l rest ih =>
        obtain ⟨hl, hrest⟩ := List.forall_mem_cons.1 ihitems
        intro column
        rw [placeItems]
        dsimp only
        rw [List.map_append, List.map_cons, hl, ih hrest, flatItems]
        rfl
    rw [place]
    split
    · exact map_closed_flat _
    · dsimp only
      rw [List.map_append, List.map_append, List.map_cons, ihhead, hitems, flat]
      rfl

/-- What is printed on one line has no break to take out. Whether a line just began is no longer
known behind it, since it may be empty. -/
theorem unbrokenFrom_flat {l : Layout} (h : l.Tidy) (atStart : Bool) (cs : List Char) :
    ∃ next, unbrokenFrom atStart (inkChars (flat l) ++ cs) =
      inkChars (flat l) ++ unbrokenFrom next cs := by
  cases l with
  | piece s =>
    cases h with
    | piece hline hstart =>
      rw [flat, inkChars_piece]
      rcases hs : s.toList with _ | ⟨c, rest⟩
      · exact ⟨atStart, rfl⟩
      · rw [hs] at hline hstart
        obtain ⟨hc, hrest⟩ := List.forall_mem_cons.1 hline
        refine ⟨false, ?_⟩
        rw [List.cons_append, unbrokenFrom_cons ⟨hc.1, fun h ↦ hstart (congrArg some h)⟩,
          unbrokenFrom_append fun hmem ↦ (hrest _ hmem).1 rfl]
        rfl
  | list head items =>
    have hline := h.flat_line
    rw [inkChars_flat_list] at hline ⊢
    refine ⟨false, ?_⟩
    rw [List.cons_append, unbrokenFrom_cons (by decide), unbrokenFrom_append]
    · rfl
    · exact fun hmem ↦ (hline _ (List.mem_cons_of_mem _ hmem)).1 rfl

/-- A line break is printed with its indentation. -/
theorem inkChars_newline (indent : Nat) (ink : List Ink) :
    inkChars (.newline indent :: ink) = '\n' :: (List.replicate indent ' ' ++ inkChars ink) := by
  rw [inkChars_cons]
  simp [Ink.text]

/-- The characters of items, each on a line of its own, read as they are on one line. -/
theorem unbrokenFrom_placeItems {items : List Layout} {width : Nat}
    (h : ∀ l ∈ items, ∀ indent closers column atStart cs, ∃ next,
      unbrokenFrom atStart (inkChars (place width indent closers column l).1 ++ cs) =
        inkChars (flat l) ++ unbrokenFrom next cs)
    (indent closers column : Nat) (atStart : Bool) (cs : List Char) : ∃ next,
    unbrokenFrom atStart (inkChars (placeItems width indent closers column items).1 ++ cs) =
      inkChars (flatItems items) ++ unbrokenFrom next cs := by
  induction items generalizing column atStart with
  | nil => exact ⟨atStart, rfl⟩
  | cons l rest ih =>
    obtain ⟨hl, hrest⟩ := List.forall_mem_cons.1 h
    rw [placeItems]
    dsimp only
    rw [List.cons_append, inkChars_newline, inkChars_append, inkChars_flatItems_cons]
    simp only [List.cons_append, List.append_assoc, unbrokenFrom_newline, unbrokenFrom_indentation]
    obtain ⟨next, hnext⟩ := hl _ _ _ true _
    obtain ⟨next', hnext'⟩ := ih hrest _ next
    rw [hnext, hnext']
    exact ⟨next', rfl⟩

/-- Within any width, what is printed reads as it does on one line. -/
theorem unbrokenFrom_place {l : Layout} (h : l.Tidy) (width indent closers column : Nat)
    (atStart : Bool) (cs : List Char) : ∃ next,
    unbrokenFrom atStart (inkChars (place width indent closers column l).1 ++ cs) =
      inkChars (flat l) ++ unbrokenFrom next cs := by
  induction l generalizing indent closers column atStart cs with
  | piece s =>
    rw [place]
    exact unbrokenFrom_flat h atStart cs
  | list head items ihhead ihitems =>
    obtain ⟨hhead, hitems⟩ := tidy_list.1 h
    rw [place]
    split
    · exact unbrokenFrom_flat h atStart cs
    · dsimp only
      rw [inkChars_append, inkChars_append, inkChars_cons, inkChars_piece, inkChars_flat_list]
      simp only [List.append_assoc, List.cons_append]
      show ∃ next, unbrokenFrom atStart ('(' :: (_ ++ (_ ++ ')' :: cs))) = _
      obtain ⟨next, hnext⟩ := ihhead hhead _ _ _ false _
      obtain ⟨next', hnext'⟩ := unbrokenFrom_placeItems
        (fun l hl indent closers column atStart cs ↦
          ihitems l hl (hitems l hl) indent closers column atStart cs) _ _ _ next _
      rw [unbrokenFrom_cons (by decide), hnext, hnext', unbrokenFrom_cons (by decide)]
      exact ⟨false, rfl⟩

/-! ### Lines

A line is as long as the column that the layout was placed at, and what was put there. To know that
it fits, one has to know what comes behind: the brackets of the lists that end there are counted in
advance, as the closers.
-/

/-- The indentation of a line. -/
def indentation (n : Nat) : List Ink := [.piece (String.ofList (List.replicate n ' '))]

/-- The lines of ink that stands behind the beginning of a line. -/
def linesFrom (line : List Ink) : List Ink → List (List Ink)
  | [] => [line]
  | .newline n :: rest => line :: linesFrom (indentation n) rest
  | i :: rest => linesFrom (line ++ [i]) rest

/-- The lines of ink, each with its indentation. -/
def lines (ink : List Ink) : List (List Ink) := linesFrom [] ink

/-- Ink that is no line break goes to the line. -/
theorem linesFrom_cons {i : Ink} (hi : ∀ n, i ≠ .newline n) (line rest : List Ink) :
    linesFrom line (i :: rest) = linesFrom (line ++ [i]) rest := linesFrom.eq_3 line i rest hi

/-- So does any ink without one. -/
theorem linesFrom_append {ink : List Ink} (h : ∀ n, .newline n ∉ ink) (line rest : List Ink) :
    linesFrom line (ink ++ rest) = linesFrom (line ++ ink) rest := by
  induction ink generalizing line with
  | nil => rw [List.append_nil, List.nil_append]
  | cons i ink ih =>
    have hi : ∀ n, i ≠ .newline n := fun n heq ↦ h n (heq ▸ List.mem_cons_self)
    rw [List.cons_append, linesFrom_cons hi, ih fun n hmem ↦ h n (List.mem_cons_of_mem i hmem),
      List.append_assoc]
    rfl

/-- There is always a first line. -/
theorem exists_linesFrom_eq_cons (line ink : List Ink) :
    ∃ first others, linesFrom line ink = first :: others := by
  induction ink generalizing line with
  | nil => exact ⟨line, [], rfl⟩
  | cons i rest ih =>
    cases i with
    | newline n => exact ⟨line, _, rfl⟩
    | piece | gap => exact ih _

theorem inkChars_indentation (n : Nat) : inkChars (indentation n) = List.replicate n ' ' := by
  rw [indentation, inkChars_piece, String.toList_ofList]

/-- The lines, with line breaks in between, are what is printed. -/
theorem intercalate_linesFrom (line ink : List Ink) :
    ['\n'].intercalate ((linesFrom line ink).map inkChars) = inkChars line ++ inkChars ink := by
  induction ink generalizing line with
  | nil => simp [linesFrom, List.intercalate, inkChars]
  | cons i rest ih =>
    cases i with
    | newline n =>
      have hrest := ih (indentation n)
      obtain ⟨first, others, hlines⟩ := exists_linesFrom_eq_cons (indentation n) rest
      rw [linesFrom, hlines, List.map_cons, List.map_cons, List.intercalate_cons_cons,
        ← List.map_cons, ← hlines, hrest, inkChars_newline, inkChars_indentation]
      simp
    | piece | gap =>
      rw [linesFrom_cons (by simp), ih, inkChars_append, inkChars_cons _ rest, List.append_assoc,
        inkChars_cons _ []]
      simp [inkChars]

/-- Brackets that end lists. -/
def closing (n : Nat) : List Ink := List.replicate n (.piece ")")

theorem inkChars_closing (n : Nat) : inkChars (closing n) = List.replicate n ')' := by
  induction n with
  | zero => rfl
  | succ n ih =>
    rw [closing, List.replicate_succ, inkChars_cons, List.replicate_succ, ← ih]
    rfl

/-- Whether a line begins with indentation and brackets, and with nothing else, up to a column. -/
structure Opening (column : Nat) (line : List Ink) : Prop where
  closed : .gap ∉ line
  separators : ∀ c ∈ inkChars line, IsSeparator c
  length : (inkChars line).length = column

/-- A line begins with its indentation. -/
theorem opening_indentation (n : Nat) : Opening n (indentation n) where
  closed := by simp [indentation]
  separators := by
    rw [inkChars_indentation]
    exact fun c hc ↦ .inr (.inr (List.eq_of_mem_replicate hc))
  length := by rw [inkChars_indentation, List.length_replicate]

/-- It goes on beginning with the bracket of a list that is broken. -/
theorem Opening.bracket {column : Nat} {line : List Ink} (h : Opening column line) :
    Opening (column + 1) (line ++ [.piece "("]) where
  closed := by simpa using h.closed
  separators := by
    rw [inkChars_append, List.forall_mem_append]
    exact ⟨h.separators, List.forall_mem_singleton.2 (.inl rfl)⟩
  length := by
    rw [inkChars_append, List.length_append, h.length]
    rfl

/-- Whether a line is one line, and ends within a width if there is a place in it that could have
been broken. -/
structure LineFits (width : Nat) (line : List Ink) : Prop where
  unbroken : ∀ c ∈ inkChars line, c ≠ '\n' ∧ c ≠ '\r'
  fits : .gap ∈ line → textWidth (print line) ≤ width

/-- Whether ink begins with a line break, if at all, and has only lines that fit behind it. -/
def Continues (width : Nat) (ink : List Ink) : Prop :=
  ink = [] ∨ ∃ n rest, ink = .newline n :: rest ∧
    ∀ line ∈ linesFrom (indentation n) rest, LineFits width line

/-- Ink that continues a line that fits gives lines that fit. -/
theorem Continues.lines {width : Nat} {ink line : List Ink} (h : Continues width ink)
    (hline : LineFits width line) : ∀ l ∈ linesFrom line ink, LineFits width l := by
  rcases h with rfl | ⟨n, rest, rfl, hrest⟩
  · exact List.forall_mem_singleton.2 hline
  · exact List.forall_mem_cons.2 ⟨hline, hrest⟩

/-- Between its opening and the brackets at its end, a line holds one thing that is not broken. -/
theorem Tidy.lineFits {l : Layout} (h : l.Tidy) {width column closers : Nat} {line : List Ink}
    (hline : Opening column line)
    (hfits : .gap ∈ flat l → column + flatWidth l + closers ≤ width) :
    LineFits width (line ++ flat l ++ closing closers) := by
  have hunbroken : ∀ c ∈ inkChars (line ++ flat l ++ closing closers), c ≠ '\n' ∧ c ≠ '\r' := by
    rw [inkChars_append, inkChars_append, List.forall_mem_append, List.forall_mem_append,
      inkChars_closing]
    refine ⟨⟨fun c hc ↦ ?_, h.flat_line⟩, fun c hc ↦ ?_⟩
    · rcases hline.separators c hc with rfl | rfl | rfl <;> decide
    · rw [List.eq_of_mem_replicate hc]
      decide
  refine ⟨hunbroken, fun hgap ↦ ?_⟩
  have hflat : .gap ∈ flat l := by
    rcases List.mem_append.1 hgap with hgap | hgap
    · exact (List.mem_append.1 hgap).resolve_left hline.closed
    · cases List.eq_of_mem_replicate hgap
  have hclosing : Parted (List.replicate closers ')') := by
    cases closers with
    | zero => nofun
    | succ n => rintro _ ⟨⟩; exact .inr (.inl rfl)
  have hwidth : (measure (inkChars (line ++ flat l ++ closing closers))).1 =
      column + flatWidth l + closers := by
    have hclosers : (measure (List.replicate closers ')' ++ [])).1 = closers + 0 := by
      rw [measure_separators fun c hc ↦ .inr (.inl (List.eq_of_mem_replicate hc)),
        List.length_replicate, measure_nil]
    rw [List.append_nil] at hclosers
    rw [inkChars_append, inkChars_append, inkChars_closing, List.append_assoc,
      measure_separators hline.separators, measure_append hclosing, h.measure_flat, hclosers,
      hline.length]
    omega
  have htext : (textWidth (print (line ++ flat l ++ closing closers)) : Int) = _ :=
    textWidth_eq_measure (by rw [toList_print]; exact hunbroken)
  rw [toList_print, hwidth] at htext
  have := hfits hflat
  omega

/-- What is written on one line makes one line with what is around it. -/
theorem Tidy.flat_lines {l : Layout} (h : l.Tidy) {width column closers : Nat}
    {line rest : List Ink} (hline : Opening column line) (hrest : Continues width rest)
    (hfits : .gap ∈ flat l → column + flatWidth l + closers ≤ width) :
    ∀ line' ∈ linesFrom line (flat l ++ closing closers ++ rest), LineFits width line' := by
  have hnone : ∀ n, .newline n ∉ flat l ++ closing closers := fun n hmem ↦ by
    rcases List.mem_append.1 hmem with hmem | hmem
    · exact newline_notMem_flat l n hmem
    · cases List.eq_of_mem_replicate hmem
  rw [linesFrom_append hnone, ← List.append_assoc]
  exact hrest.lines (h.lineFits hline hfits)

/-- Every item begins a line. -/
theorem placeItems_continues {items : List Layout} {width : Nat}
    (h : ∀ l ∈ items, ∀ indent closers column {line rest : List Ink}, Opening column line →
      Continues width rest →
      ∀ line' ∈ linesFrom line ((place width indent closers column l).1 ++ closing closers ++ rest),
        LineFits width line')
    (hne : items ≠ []) (indent closers column : Nat) {rest : List Ink}
    (hrest : Continues width rest) : Continues width
      ((placeItems width indent closers column items).1 ++ closing closers ++ rest) := by
  induction items generalizing column with
  | nil => exact absurd rfl hne
  | cons l others ih =>
    obtain ⟨hl, hothers⟩ := List.forall_mem_cons.1 h
    rw [placeItems]
    dsimp only
    rw [List.cons_append, List.cons_append, List.cons_append]
    refine .inr ⟨_, _, rfl, ?_⟩
    cases others with
    | nil =>
      simp only [placeItems, List.append_nil]
      exact hl _ _ _ (opening_indentation _) hrest
    | cons next more =>
      -- No brackets end lists behind an item that is not the last one.
      have hlines := hl (indent + 2) 0 (indent + 2) (opening_indentation _)
        (ih hothers (List.cons_ne_nil next more) (place width (indent + 2) 0 (indent + 2) l).2)
      simpa only [List.isEmpty_cons, Bool.false_eq_true, if_false, Bool.false_and, closing,
        List.replicate_zero, List.append_nil, List.append_assoc] using hlines

/-- **Every line with a place that could have been broken ends within the width**, wherever what is
printed stands. -/
theorem place_lines {l : Layout} (h : l.Tidy) {width : Nat} (indent closers column : Nat)
    {line rest : List Ink} (hline : Opening column line) (hrest : Continues width rest) :
    ∀ line' ∈ linesFrom line ((place width indent closers column l).1 ++ closing closers ++ rest),
      LineFits width line' := by
  induction l generalizing indent closers column line rest with
  | piece s =>
    rw [place]
    exact h.flat_lines hline hrest fun hgap ↦ by simp [flat] at hgap
  | list head items ihhead ihitems =>
    obtain ⟨hhead, hitems⟩ := tidy_list.1 h
    rw [place]
    split
    · rename_i hfits
      exact h.flat_lines hline hrest fun _ ↦ hfits
    have hlast : ∀ ink : List Ink, ink ++ [.piece ")"] ++ closing closers ++ rest =
        ink ++ closing (closers + 1) ++ rest := fun ink ↦ by
      simp [closing, List.replicate_succ]
    dsimp only
    rw [hlast, List.cons_append, List.cons_append, List.cons_append, linesFrom_cons (by simp)]
    cases items with
    | nil =>
      simp only [placeItems, List.isEmpty_nil, if_true, List.append_nil]
      exact ihhead hhead (indent + 2) (closers + 1) (column + 1) hline.bracket hrest
    | cons l others =>
      have hothers := placeItems_continues (fun l hl indent closers column _ _ hline hrest ↦
        ihitems l hl (hitems l hl) indent closers column hline hrest) (List.cons_ne_nil l others)
        indent (closers + 1) (place width (indent + 2) 0 (column + 1) head).2 hrest
      have hlines := ihhead hhead (indent + 2) 0 (column + 1) hline.bracket hothers
      simpa only [List.isEmpty_cons, Bool.false_eq_true, if_false, closing, List.replicate_zero,
        List.append_nil, List.append_assoc] using hlines

end Layout

/-! ### Expressions without white space in their names -/

/-- That there is no white space in a text can be decided. -/
theorem forall_not_blank_iff {cs : List Char} :
    (∀ c ∈ cs, isBlank c = false) ↔ cs.all (!isBlank ·) = true := by
  simp

/-- Whether the name of a symbol, or the hint of a variable or a hole, has no white space in it. -/
def Atom.Unspaced : Atom → Prop
  | symbol name => ∀ c ∈ name.toList, isBlank c = false
  | var v => ∀ c ∈ v.hint.toList, isBlank c = false
  | hole v => ∀ c ∈ v.hint.toList, isBlank c = false
  | text _ => True
  | number _ => True

instance (a : Atom) : Decidable a.Unspaced :=
  match a with
  | .symbol name => decidable_of_iff (name.toList.all (!isBlank ·)) forall_not_blank_iff.symm
  | .var v | .hole v => decidable_of_iff (v.hint.toList.all (!isBlank ·)) forall_not_blank_iff.symm
  | .text _ | .number _ => inferInstanceAs (Decidable True)

/-- Whether no symbol and no hint has white space in it. -/
abbrev Expression.Unspaced (e : Expression) : Prop :=
  e.MadeOf Atom.Unspaced fun v ↦ ∀ c ∈ v.hint.toList, isBlank c = false

/-- What is no white space is none of the three characters that a line is made of. -/
theorem ne_of_isBlank_eq_false {c : Char} (h : isBlank c = false) :
    c ≠ '\n' ∧ c ≠ '\r' ∧ c ≠ ' ' := by
  refine ⟨?_, ?_, ?_⟩ <;>
  · rintro rfl
    revert h
    decide

/-- White space ends a word, so a word has none. -/
theorem IsWord.not_blank {text : String} (h : IsWord text) :
    ∀ c ∈ text.toList, isBlank c = false := by
  intro c hc
  have hdelimiter := h.not_delimiter c hc
  simp only [Scanner.isDelimiter, Bool.or_eq_false_iff] at hdelimiter
  exact hdelimiter.1.1.1.1

/-- The text of a variable has none if its hint has none. -/
theorem Variable.text_not_blank {v : Variable} (h : ∀ c ∈ v.hint.toList, isBlank c = false) :
    ∀ c ∈ v.text.toList, isBlank c = false := by
  have hsuffix : ∀ c ∈ (Variable.mk "x" v.id).text.toList, isBlank c = false :=
    (IsWord.text (show IsWord "x" by decide)).not_blank
  rw [toList_text] at hsuffix ⊢
  intro c hc
  rcases List.mem_append.1 hc with hc | hc
  · exact h c hc
  · exact hsuffix c (List.mem_append_right _ hc)

/-- What is written for a character between quotes is on one line. -/
theorem Quoted.ne_of_mem_escape {c d : Char} (h : d ∈ escape c) : d ≠ '\n' ∧ d ≠ '\r' := by
  have hescapes := escapes c
  generalize escape c = written at h hescapes
  cases hescapes with
  | short hletter =>
    have hshort : ∀ p ∈ shortEscapes, p.1 ≠ '\n' ∧ p.1 ≠ '\r' := by decide
    simp only [List.mem_cons, List.not_mem_nil, or_false] at h
    rcases h with rfl | rfl
    · decide
    · exact hshort _ hletter
  | number =>
    simp only [List.mem_cons, List.mem_append, List.not_mem_nil, or_false] at h
    rcases h with rfl | rfl | rfl | h | rfl
    · decide
    · decide
    · decide
    · obtain ⟨k, hk, rfl⟩ := exists_digitChar_of_mem_toDigits (by decide) h
      have hall : ∀ k < 16, Nat.digitChar k ≠ '\n' ∧ Nat.digitChar k ≠ '\r' := by decide
      exact hall k hk
    · decide
  | plain hne =>
    obtain rfl := List.mem_singleton.1 h
    exact ⟨hne ('n', '\n') (by decide), hne ('r', '\r') (by decide)⟩

namespace Layout

/-- A piece without white space has nothing in it that could be taken for a break. -/
theorem tidy_piece {s : String} (h : ∀ c ∈ s.toList, isBlank c = false) : (piece s).Tidy := by
  refine .piece (fun c hc ↦ ?_) fun hhead ↦ ?_
  · obtain ⟨hfeed, hreturn, -⟩ := ne_of_isBlank_eq_false (h c hc)
    exact ⟨hfeed, hreturn⟩
  · exact (ne_of_isBlank_eq_false (h ' ' (List.mem_of_mem_head? hhead))).2.2 rfl

/-- Nor has a string, in which line breaks are printed as escapes. -/
theorem tidy_quoted (contents : String) : (piece (quoted contents)).Tidy := by
  refine .piece ?_ ?_ <;> rw [quoted, String.toList_ofList, Quoted.encode]
  · rw [List.cons_append, List.forall_mem_cons, List.forall_mem_append, List.forall_mem_singleton,
      List.forall_mem_flatMap]
    exact ⟨by decide, fun c _ d hd ↦ Quoted.ne_of_mem_escape hd, by decide⟩
  · simp

/-- A list of names has the characters of the names, and spaces. -/
theorem mem_toList_intercalate {ss : List String} {c : Char}
    (h : c ∈ (" ".intercalate ss).toList) : c = ' ' ∨ ∃ s ∈ ss, c ∈ s.toList := by
  rw [String.toList_intercalate] at h
  induction ss with
  | nil => cases h
  | cons s rest ih =>
    cases rest with
    | nil => exact .inr ⟨s, List.mem_cons_self, by simpa using h⟩
    | cons t rest =>
      rw [List.map_cons, List.map_cons, List.intercalate_cons_cons, ← List.map_cons] at h
      rcases List.mem_append.1 h with h | h
      · rcases List.mem_append.1 h with h | h
        · exact .inr ⟨s, List.mem_cons_self, h⟩
        · exact .inl (List.mem_singleton.1 h)
      · exact (ih h).imp_right fun ⟨u, hu, hc⟩ ↦ ⟨u, List.mem_cons_of_mem s hu, hc⟩

/-- So the head of a binder is tidy; the spaces between its names are no places to break. -/
theorem tidy_binderHead (kind : BinderKind) {vs : List Variable}
    (h : ∀ v ∈ vs, ∀ c ∈ v.hint.toList, isBlank c = false) :
    (Expression.binderHead kind vs).Tidy := by
  have hkeyword : ∀ c ∈ kind.keyword.toList, c ≠ '\n' ∧ c ≠ '\r' := by
    intro c hc
    obtain ⟨hfeed, hreturn, -⟩ :=
      ne_of_isBlank_eq_false ((Expression.isWord_keyword kind).not_blank c hc)
    exact ⟨hfeed, hreturn⟩
  have hvs : ∀ c ∈ (" ".intercalate (vs.map Variable.text)).toList, c ≠ '\n' ∧ c ≠ '\r' := by
    intro c hc
    rcases mem_toList_intercalate hc with rfl | ⟨s, hs, hc⟩
    · decide
    · obtain ⟨v, hv, rfl⟩ := List.mem_map.1 hs
      obtain ⟨hfeed, hreturn, -⟩ := ne_of_isBlank_eq_false (Variable.text_not_blank (h v hv) c hc)
      exact ⟨hfeed, hreturn⟩
  refine .piece ?_ ?_ <;> rw [Expression.toList_binderHead]
  · rw [List.forall_mem_append, List.forall_mem_cons, List.forall_mem_cons, List.forall_mem_append,
      List.forall_mem_singleton]
    exact ⟨hkeyword, by decide, by decide, hvs, by decide⟩
  · cases kind <;> simp [BinderKind.keyword]

end Layout

namespace Expression

open Layout

/-- **What is printed for names without white space is tidy.** -/
theorem tidy_layout {e : Expression} (h : e.Unspaced) : e.layout.Tidy := by
  refine layoutInduction (P := fun l e ↦ e.Unspaced → l.Tidy)
    ?atom ?binders ?rules ?equals ?unit ?application e h
  case atom =>
    intro a h
    have ha := madeOf_atom.1 h
    cases a with
    | symbol name => exact tidy_piece ha
    | text contents => exact tidy_quoted contents
    | number q => exact tidy_piece (isWord_canonical q).not_blank
    | var v => exact tidy_piece (Variable.text_not_blank ha)
    | hole v =>
      refine tidy_piece ?_
      rw [Atom.print, String.toList_append, List.forall_mem_append]
      exact ⟨forall_not_blank_iff.2 (by decide), Variable.text_not_blank ha⟩
  case binders =>
    intro kind vs l e hne ih h
    obtain ⟨hvs, he⟩ := madeOf_binders.1 h
    exact .list (tidy_binderHead kind hvs) (List.forall_mem_singleton.2 (ih he))
  case rules =>
    intro items parts hlength ih h
    have hne : parts ≠ [] := List.length_pos_iff.1 (by omega)
    exact .list (tidy_piece (forall_not_blank_iff.2 (by decide)))
      (forall_of_forall₂ ih ((forall_parts_iff (fun _ _ ↦ madeOf_implies) hne).1 h))
  case equals =>
    intro l l' a b ih ih' h
    obtain ⟨ha, hb⟩ := madeOf_equals.1 h
    exact .list (tidy_piece (forall_not_blank_iff.2 (by decide)))
      (List.forall_mem_cons.2 ⟨ih ha, List.forall_mem_singleton.2 (ih' hb)⟩)
  case unit => exact fun _ ↦ tidy_piece (forall_not_blank_iff.2 (by decide))
  case application =>
    intro head rest e es ihhead ihrest h
    obtain ⟨he, hes⟩ := List.forall_mem_cons.1 (madeOf_application.1 h)
    exact .list (ihhead he) (forall_of_forall₂ ihrest hes)

/-- Broken or not, what is printed reads as it does on one line. -/
theorem unbroken_print {e : Expression} (h : e.Unspaced) :
    unbroken e.print = Layout.print e.layout.flat := by
  obtain ⟨next, hnext⟩ := unbrokenFrom_place (tidy_layout h) pageWidth 0 0 0 false []
  rw [List.append_nil, unbrokenFrom, List.append_nil] at hnext
  rw [unbroken, print, toList_print, ink, hnext, ← toList_print, String.ofList_toList]

/-- **Layout only chooses line breaks.** If no symbol and no hint has white space in it, then with
one space for every line break and the indentation behind it, what is printed is the text on one
line, which has a place to break wherever a line is or could be broken; it is that text if that is
at most 80 columns wide; and no line that is wider than 80 columns has a place that could have been
broken. -/
theorem print_breaks_lines {e : Expression} (h : e.Unspaced) :
    let flat := Layout.print e.layout.flat
    let lines := Layout.lines e.layout.ink
    unbroken e.print = flat ∧ (textWidth flat ≤ 80 → e.print = flat) ∧
      e.layout.ink.map Ink.closed = e.layout.flat ∧
      e.print = "\n".intercalate (lines.map Layout.print) ∧
      ∀ line ∈ lines, '\n' ∉ (Layout.print line).toList ∧
        (80 < textWidth (Layout.print line) → .gap ∉ line) := by
  intro flat lines
  have htidy := tidy_layout h
  refine ⟨unbroken_print h, fun hwidth ↦ ?_, map_closed_place _ _ _ _ _, ?_, fun line hline ↦ ?_⟩
  · have htext : (textWidth (Layout.print e.layout.flat) : Int) = _ :=
      textWidth_eq_measure (by rw [toList_print]; exact htidy.flat_line)
    rw [toList_print, htidy.measure_flat] at htext
    rw [print, ink_eq_flat (Int.ofNat_le.1 (htext ▸ Int.ofNat_le.2 hwidth))]
  · refine String.toList_inj.1 ?_
    rw [String.toList_intercalate, List.map_map, print, toList_print]
    have hlines := intercalate_linesFrom [] e.layout.ink
    have hchars : String.toList ∘ Layout.print = inkChars := funext toList_print
    rw [hchars]
    exact hlines.symm
  · have hopening : Opening 0 [] := ⟨List.not_mem_nil, List.forall_mem_nil _, rfl⟩
    have hplace : ∀ line ∈ linesFrom [] (e.layout.ink ++ closing 0 ++ []),
        LineFits pageWidth line := place_lines htidy 0 0 0 hopening (.inl rfl)
    rw [List.append_nil, closing, List.replicate_zero, List.append_nil] at hplace
    have hfits := hplace line hline
    refine ⟨fun hmem ↦ ?_, fun hwide hgap ↦ Nat.not_le.2 hwide (hfits.fits hgap)⟩
    rw [toList_print] at hmem
    exact (hfits.unbroken _ hmem).1 rfl

/-- A list that is broken around one that is not, and a symbol that is too long for its line. -/
theorem print_breaks_lines_long_symbol :
    let long (n : Nat) (c : Char) := symbol (String.ofList (List.replicate n c))
    let e := call "f" [call "g" [long 30 'a', long 30 'b'], long 90 'c']
    e.Unspaced ∧
      e.print = "(f\n  (g " ++ String.ofList (List.replicate 30 'a') ++ " " ++
        String.ofList (List.replicate 30 'b') ++ ")\n  " ++ String.ofList (List.replicate 90 'c') ++
        ")" ∧
      unbroken e.print = Layout.print e.layout.flat ∧
      ∀ line ∈ Layout.lines e.layout.ink, 80 < textWidth (Layout.print line) → .gap ∉ line := by
  intro long e
  have hunspaced : e.Unspaced := ⟨by decide +kernel, nofun⟩
  have hbreaks := print_breaks_lines hunspaced
  exact ⟨hunspaced, by decide +kernel, hbreaks.1, fun line hline ↦ (hbreaks.2.2.2.2 line hline).2⟩

end Expression

end NaturalDeduction
