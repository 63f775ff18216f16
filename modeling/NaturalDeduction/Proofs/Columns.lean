import NaturalDeduction.Text.Width

/-!
# Widths add up at brackets and spaces

The width of a text is not the sum of the widths of its characters, since neighbours can be shown as
one. A bracket or a space is never part of that, whatever stands behind it. So the widths of the
texts in front of it and behind it add up (`measure_append_cons`), and a line of brackets, spaces
and pieces of text is as wide as these together.

A character can add a negative number of columns where it takes in what stands behind it. It never
takes more than was there: `Sequel.owed` says how much can still be taken, and that much has been
counted already (`owed_le_measure`).

Main definitions and statements:

* `IsSeparator`: the characters that end whatever stands in front of them.
* `Sequel.owed`: how many columns a character in front can still take from what was measured.
* `measure_append_cons`: widths add up at a separator.
* `textWidth_eq_measure`: what the printer calls the width of a text is its measure.

The tables of wide, unseen and joining characters are looked at in one place only: none of them has
an ASCII character. Everything else is about how the measure is carried from the end of a text to
its start.
-/

namespace NaturalDeduction

/-- A set of code points is given by where membership changes, so it has nothing below the first
change. -/
theorem CodePoints.contains_of_lt {s : CodePoints} {n : Nat} {rest : List Nat} {c : Char}
    (hs : s.changes = n :: rest) (hc : c.toNat < n) : s.contains c = false := by
  rw [contains, hs, containsFrom, if_pos hc]

/-! ### ASCII characters -/

section Ascii

variable {c : Char}

/-- One column for each ASCII character: all tables of wide and unseen characters begin further up.
-/
theorem charWidth_of_ascii (hc : c.toNat < 0x80) : charWidth c = 1 := by
  have hzero : CodePoints.zeroWidth.contains c = false :=
    CodePoints.contains_of_lt rfl (by omega)
  have hwide : CodePoints.wide.contains c = false := CodePoints.contains_of_lt rfl (by omega)
  rw [charWidth, if_neg (by omega), hzero, hwide]
  rfl

/-- No ASCII character is a picture, nor a part of one. -/
theorem pictures_of_ascii (hc : c.toNat < 0x80) : CodePoints.pictures.contains c = false :=
  CodePoints.contains_of_lt rfl (by omega)

theorem isFlagLetter_of_ascii (hc : c.toNat < 0x80) : Emoji.isFlagLetter c.toNat = false := by
  simp [Emoji.isFlagLetter]
  omega

theorem isTone_of_ascii (hc : c.toNat < 0x80) : Emoji.isTone c.toNat = false := by
  simp [Emoji.isTone]
  omega

theorem isConsonant_of_ascii (hc : c.toNat < 0x80) : Ligature.isConsonant c.toNat = false := by
  simp [Ligature.isConsonant]
  omega

theorem Emoji.join?_of_ascii (hc : c.toNat < 0x80) (e : Emoji) : e.join? c = none := by
  have htoned : CodePoints.tonedPictures.contains c = false :=
    CodePoints.contains_of_lt rfl (by omega)
  have hjoiner : c.toNat ≠ zeroWidthJoiner := by
    unfold zeroWidthJoiner
    omega
  cases e with
  | picture => simp [join?, hjoiner]
  | tone => simp [join?, htoned, hjoiner]
  | flagLetters => simp [join?, isFlagLetter_of_ascii hc, hjoiner]
  | joiner =>
    rw [join?, joinJoiner?]
    split
    · omega
    · omega
    · simp [isFlagLetter_of_ascii hc, isTone_of_ascii hc, pictures_of_ascii hc]
  | key => rfl
  | tags => rw [join?, joinTags?, if_neg (by omega), if_neg (by omega), if_neg (by omega)]

theorem Ligature.join?_of_ascii (hc : c.toNat < 0x80) (l : Ligature) : l.join? c = none := by
  have hlam : isLam c.toNat = false := by
    simp [isLam]
    omega
  have hconsonant := isConsonant_of_ascii hc
  unfold join?
  split <;> grind

theorem Ligature.through?_of_ascii (hc : c.toNat < 0x80) (l : Ligature) :
    l.through? c false = none := by
  have hmark : isHiddenMark c.toNat = false := by
    simp [isHiddenMark]
    omega
  unfold through?
  rw [if_neg (by unfold zeroWidthJoiner; omega)]
  cases l <;> simp [hmark]

/-- No ASCII character is shown as one with what stands behind it. -/
theorem Sequel.join?_of_ascii (hc : c.toNat < 0x80) (s : Sequel) : s.join? c = none := by
  have hzero : CodePoints.zeroWidth.contains c = false :=
    CodePoints.contains_of_lt rfl (by omega)
  cases s with
  | plain | lineFeed => rfl
  | emoji e => rw [join?, e.join?_of_ascii hc, Option.map_none]
  | ligature l =>
    simp only [join?, hzero, l.through?_of_ascii hc, l.join?_of_ascii hc, Option.map_none]

/-- Nothing is taken in by an ASCII character. -/
theorem Sequel.ofChar_of_ascii (hc : c.toNat < 0x80) : Sequel.ofChar c = .plain := by
  have hemoji : Emoji.ofChar? c = none := by
    simp [Emoji.ofChar?, isFlagLetter_of_ascii hc, isTone_of_ascii hc, pictures_of_ascii hc]
  have hligature : Ligature.ofChar? c = none := by
    have hkhmer : Ligature.isKhmerLetter c.toNat = false := by
      simp [Ligature.isKhmerLetter]
      omega
    have halef : Ligature.isAlef c.toNat = false := by
      simp [Ligature.isAlef]
      omega
    rw [Ligature.ofChar?]
    split <;> first | omega | simp [hkhmer, halef, isConsonant_of_ascii hc]
  rw [ofChar, hemoji, hligature]

/-- An ASCII character counts for itself, whatever stands behind it. Line breaks are different, as
two of them may count as one. -/
theorem Behind.addUnselected_of_ascii (hc : c.toNat < 0x80) (hfeed : c ≠ '\n') (hreturn : c ≠ '\r')
    (s : Sequel) : addUnselected c s = (1, nothing) := by
  have hne {d : Char} (hd : c ≠ d) : c.toNat ≠ d.toNat := fun h ↦ hd (Char.toNat_inj.1 h)
  unfold addUnselected
  split
  · exact absurd ‹_› (hne hfeed)
  · exact absurd ‹_› (hne hreturn)
  · omega
  · omega
  · omega
  · rw [s.join?_of_ascii hc]
    dsimp only
    rw [charWidth_of_ascii hc, Sequel.ofChar_of_ascii hc]
    rfl

/-- Whether a character is a bracket or a space. -/
def IsSeparator (c : Char) : Prop := c = '(' ∨ c = ')' ∨ c = ' '

/-- A bracket or a space takes one column, and nothing in front of it is shown as one with it. -/
theorem Behind.add_separator (hc : IsSeparator c) (b : Behind) : b.add c = (1, nothing) := by
  have hplain : ∀ s, addUnselected c s = (1, nothing) := by
    intro s
    rcases hc with rfl | rfl | rfl <;>
      exact addUnselected_of_ascii (by decide) (by decide) (by decide) s
  have htwo : CodePoints.twoFormed.contains c = false := by
    rcases hc with rfl | rfl | rfl <;> decide
  have hnarrow : isNarrowAsText c = false := by
    rw [isNarrowAsText, htwo]
    rfl
  have hmark : isQuotationMark c = false := by
    rcases hc with rfl | rfl | rfl <;> decide
  rw [add, htwo, hnarrow, hmark]
  simp only [Bool.false_eq_true, if_false, hplain]
  split <;> rfl

end Ascii

/-! ### What can still be taken -/

/-- A Khmer letter has a column of its own, which is what a sign in front of it can take. -/
theorem charWidth_of_isKhmerLetter {c : Char} (h : Ligature.isKhmerLetter c.toNat = true) :
    1 ≤ charWidth c := by
  have hrange : 0x1780 ≤ c.toNat ∧ c.toNat ≤ 0x17af := by
    simp only [Ligature.isKhmerLetter, Bool.and_eq_true, decide_eq_true_eq] at h
    exact h.1
  have hzero : CodePoints.zeroWidth.contains c = false := by
    have hall : ∀ k < 0x30,
        CodePoints.containsFrom false (0x1780 + k) CodePoints.zeroWidth.changes = false := by
      decide +kernel
    have hc := hall (c.toNat - 0x1780) (by omega)
    rwa [Nat.add_sub_cancel' hrange.1] at hc
  rw [charWidth, if_neg (by omega), hzero, if_neg (by decide)]
  split <;> decide

/-- The columns that a character in front may take in. -/
def Sequel.owed : Sequel → Int
  | emoji (.flagLetters true count) => count % 2
  | ligature .khmerLetter | ligature .joinedConsonant => 1
  | _ => 0

namespace Sequel

/-- What can still be taken is a number of columns, and not negative. -/
theorem owed_nonneg (s : Sequel) : 0 ≤ s.owed := by
  unfold owed
  split <;> omega

/-- A selector may end what stands behind it, and begins nothing. -/
theorem owed_behindSelector_le (s : Sequel) : s.behindSelector.owed ≤ s.owed := by
  unfold behindSelector
  split
  · split
    · exact Int.le_refl _
    · exact owed_nonneg _
  · exact owed_nonneg s

/-- So it is with the selector for pictures. -/
theorem owed_behindPictureSelector_le (s : Sequel) : s.behindPictureSelector.owed ≤ s.owed := by
  unfold behindPictureSelector
  split
  · split
    · exact Int.le_refl _
    · exact owed_nonneg _
  · exact owed_behindSelector_le s

/-- Joining to a picture takes at most what the picture owes, and what it leaves owed it has
counted. -/
theorem owed_emoji_join? {e e' : Emoji} {c : Char} {w : Int} (h : e.join? c = some (w, e')) :
    (emoji e').owed ≤ w + (emoji e).owed := by
  cases e with
  | picture =>
    rw [Emoji.join?] at h
    split at h <;> cases h
    decide
  | tone =>
    rw [Emoji.join?] at h
    split at h
    · cases h
      decide
    · split at h <;> cases h
      decide
  | flagLetters joined count =>
    rw [Emoji.join?] at h
    split at h
    · cases h
      -- two letters make a flag, so what is owed depends on whether their number is odd
      cases joined with
      | false => show (0 : Int) ≤ 1 + 0; decide
      | true =>
        show ((count + 1 : Nat) : Int) % 2 ≤ (if count % 2 = 1 then -1 else 3) + (count : Int) % 2
        split <;> omega
    · split at h <;> cases h
      have := owed_nonneg (emoji (.flagLetters joined count))
      show (0 : Int) ≤ 0 + _
      omega
  | joiner =>
    rw [Emoji.join?, Emoji.joinJoiner?] at h
    split at h
    · cases h; decide
    · cases h; decide
    · split at h
      · cases h; decide
      · split at h
        · cases h; decide
        · split at h <;> cases h
          decide
  | key => cases h
  | tags letters digits =>
    -- the letters of a tag take no columns, and what comes of them owes nothing
    have hsome : w = 0 ∧ (emoji e').owed = 0 := by
      rw [Emoji.join?, Emoji.joinTags?] at h
      split at h
      · split at h <;> cases h
        exact ⟨rfl, rfl⟩
      · split at h
        · split at h <;> cases h
          exact ⟨rfl, rfl⟩
        · split at h
          · split at h <;> cases h
            exact ⟨rfl, rfl⟩
          · cases h
    rw [hsome.1, hsome.2]
    exact Int.le_refl 0

/-- The same for ligatures, which owe one column between a sign and its letter. -/
theorem owed_ligature_join? {l : Ligature} {l' : Option Ligature} {c : Char} {w : Int}
    (h : l.join? c = some (w, l')) :
    ((l'.map ligature).getD plain).owed ≤ w + (ligature l).owed := by
  unfold Ligature.join? at h
  split at h <;> grind [owed]

/-- What a ligature passes over does not change what it owes. -/
theorem owed_ligature_through? {l l' : Ligature} {c : Char} {unseen : Bool}
    (h : l.through? c unseen = some l') : (ligature l').owed ≤ (ligature l).owed := by
  unfold Ligature.through? at h
  split at h
  · cases l <;> cases h <;> exact Int.le_refl _
  · cases l <;> dsimp only at h <;> split at h <;> cases h <;> exact Int.le_refl _

/-- Only a Khmer letter is owed for itself, and it takes a column. -/
theorem owed_ofChar_le (c : Char) : (ofChar c).owed ≤ charWidth c := by
  have hwidth : (0 : Int) ≤ charWidth c := Int.natCast_nonneg _
  unfold ofChar
  split
  · rename_i e he
    unfold Emoji.ofChar? at he
    split at he
    · cases he; exact hwidth
    · split at he
      · cases he; exact hwidth
      · split at he <;> cases he
        exact hwidth
  · rename_i l hl
    unfold Ligature.ofChar? at hl
    split at hl
    case h_8 =>
      split at hl
      · cases hl; exact hwidth
      · split at hl
        · rename_i hkhmer
          cases hl
          exact Int.ofNat_le.2 (charWidth_of_isKhmerLetter hkhmer)
        · split at hl <;> cases hl
          exact hwidth
    all_goals
      cases hl
      exact hwidth
  · exact hwidth

/-- The two kinds of sequel together. -/
theorem owed_join? {s s' : Sequel} {c : Char} {w : Int} (h : s.join? c = some (w, s')) :
    s'.owed ≤ w + s.owed := by
  cases s with
  | plain | lineFeed => cases h
  | emoji e =>
    obtain ⟨⟨w', e'⟩, he, heq⟩ := Option.map_eq_some_iff.1 h
    cases heq
    exact owed_emoji_join? he
  | ligature l =>
    rw [join?] at h
    split at h
    · cases h
      have hthrough := owed_ligature_through? ‹_›
      omega
    · obtain ⟨⟨w', l'⟩, hl, heq⟩ := Option.map_eq_some_iff.1 h
      cases heq
      exact owed_ligature_join? hl

end Sequel

namespace Behind

/-- One character in front: what is owed is covered by what was added. -/
theorem owed_addUnselected_le (c : Char) (s : Sequel) :
    (addUnselected c s).2.sequel.owed ≤ (addUnselected c s).1 + s.owed := by
  have hs := s.owed_nonneg
  unfold addUnselected
  split
  · show (0 : Int) ≤ 1 + s.owed
    omega
  · show (0 : Int) ≤ (if s = .lineFeed then 0 else 1) + s.owed
    split <;> omega
  · have := s.owed_behindPictureSelector_le
    show s.behindPictureSelector.owed ≤ 0 + s.owed
    omega
  · have := s.owed_behindSelector_le
    show s.behindSelector.owed ≤ 0 + s.owed
    omega
  · have := s.owed_behindSelector_le
    show s.behindSelector.owed ≤ 0 + s.owed
    omega
  · split
    · exact Sequel.owed_join? ‹_›
    · have := Sequel.owed_ofChar_le c
      show (Sequel.ofChar c).owed ≤ charWidth c + s.owed
      omega

/-- A character takes no more than is owed, and what is owed behind it is counted with it. -/
theorem owed_add_le (c : Char) (b : Behind) :
    (b.add c).2.sequel.owed ≤ (b.add c).1 + b.sequel.owed := by
  have hb := b.sequel.owed_nonneg
  unfold add
  split
  · split
    · show (0 : Int) ≤ (if b.sequel.isJoined then 0 else 2) + b.sequel.owed
      split <;> omega
    · have := b.sequel.owed_behindSelector_le
      have := owed_addUnselected_le c b.sequel.behindSelector
      omega
  · split
    · show (0 : Int) ≤ 1 + b.sequel.owed
      omega
    · exact owed_addUnselected_le c b.sequel
  · split
    · show (0 : Int) ≤ 2 + b.sequel.owed
      omega
    · exact owed_addUnselected_le c b.sequel
  · exact owed_addUnselected_le c b.sequel

end Behind

/-! ### Texts -/

/-- What can still be taken has been counted. -/
theorem owed_le_measure (cs : List Char) : (measure cs).2.sequel.owed ≤ (measure cs).1 := by
  induction cs with
  | nil => exact Int.le_refl 0
  | cons c cs ih =>
    have := Behind.owed_add_le c (measure cs).2
    rw [measure_cons]
    dsimp only
    omega

/-- So no text has a negative width, although characters have. -/
theorem measure_nonneg (cs : List Char) : 0 ≤ (measure cs).1 :=
  Int.le_trans (Sequel.owed_nonneg _) (owed_le_measure cs)

/-- A separator in front adds one column and forgets what stands behind it. -/
theorem measure_cons_separator {c : Char} (hc : IsSeparator c) (cs : List Char) :
    measure (c :: cs) = (1 + (measure cs).1, .nothing) := by
  rw [measure_cons, Behind.add_separator hc]

/-- What is in front of a bracket or a space takes what it takes alone. -/
theorem measure_append_cons {d : Char} (hd : IsSeparator d) (cs ds : List Char) :
    (measure (cs ++ d :: ds)).1 = (measure cs).1 + (measure (d :: ds)).1 ∧
      (measure (cs ++ d :: ds)).2 = (measure cs).2 := by
  induction cs with
  | nil =>
    rw [List.nil_append, measure_nil, measure_cons_separator hd]
    exact ⟨(Int.zero_add _).symm, rfl⟩
  | cons c cs ih =>
    rw [List.cons_append, measure_cons, measure_cons, ih.1, ih.2]
    exact ⟨(Int.add_assoc _ _ _).symm, rfl⟩

/-- A line of ASCII characters is as wide as it is long. -/
theorem measure_of_ascii {cs : List Char} (h : ∀ c ∈ cs, c.toNat < 0x80 ∧ c ≠ '\n' ∧ c ≠ '\r') :
    measure cs = ((cs.length : Int), Behind.nothing) := by
  induction cs with
  | nil => rfl
  | cons c cs ih =>
    obtain ⟨⟨hascii, hfeed, hreturn⟩, hcs⟩ := List.forall_mem_cons.1 h
    have hadd : Behind.nothing.add c = (1, .nothing) :=
      Behind.addUnselected_of_ascii hascii hfeed hreturn .plain
    rw [measure_cons, ih hcs, hadd, List.length_cons]
    simp [Int.add_comm]

/-- A text on one line is as wide as it measures, whether its characters are counted or not. -/
theorem textWidth_eq_measure {text : String} (h : ∀ c ∈ text.toList, c ≠ '\n' ∧ c ≠ '\r') :
    (textWidth text : Int) = (measure text.toList).1 := by
  unfold textWidth
  split
  · rename_i hascii
    have hall := List.all_eq_true.1 hascii
    rw [measure_of_ascii fun c hc ↦ ⟨of_decide_eq_true (hall c hc), h c hc⟩, String.length_toList]
  · exact Int.toNat_of_nonneg (measure_nonneg _)

end NaturalDeduction
