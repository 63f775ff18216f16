import NaturalDeduction.Text.CodePoints

/-!
# Blank characters

The characters with the Unicode property `White_Space`. They separate words; no other character
does so without being a token of its own.
-/

namespace NaturalDeduction

/-- The 25 characters with the property `White_Space`. -/
def CodePoints.whiteSpace : CodePoints where
  changes :=
    [0x9, 0xe, 0x20, 0x21, 0x85, 0x86, 0xa0, 0xa1, 0x1680, 0x1681, 0x2000, 0x200b, 0x2028, 0x202a,
      0x202f, 0x2030, 0x205f, 0x2060, 0x3000, 0x3001]

/-- Whether a character separates words. -/
def isBlank (c : Char) : Bool := CodePoints.whiteSpace.contains c

theorem isBlank_of_isWhitespace {c : Char} (h : c.isWhitespace = true) : isBlank c = true := by
  simp only [Char.isWhitespace, Bool.or_eq_true, decide_eq_true_eq] at h
  rcases h with ((rfl | rfl) | rfl) | rfl <;> decide

end NaturalDeduction
