import NaturalDeduction.Text.Emoji

/-!
# Ligatures

Letters that their scripts draw as one. Text is looked at from its end to its start, so a ligature
is known by its last letter, which waits for the one in front of it. Marks that are not shown may
stand between the letters, but not between Kirat Rai vowel signs. In most scripts a joiner may do so
too, and some ligatures form only across a joiner.
-/

namespace NaturalDeduction

/-- Characters of no width that end the reach of an Arabic letter, unlike the marks above and below
it. -/
def CodePoints.separating : CodePoints where
  changes :=
    [0x605, 0x606, 0x890, 0x892, 0x8e2, 0x8e3, 0x9be, 0x9bf, 0x9d7, 0x9d8, 0xb3e, 0xb3f, 0xb57,
      0xb58, 0xbbe, 0xbbf, 0xbd7, 0xbd8, 0xcc0, 0xcc1, 0xcc2, 0xcc3, 0xcc7, 0xcc9, 0xcca, 0xccc,
      0xcd5, 0xcd7, 0xd3e, 0xd3f, 0xd4e, 0xd4f, 0xd57, 0xd58, 0xdcf, 0xdd0, 0xddf, 0xde0, 0x1160,
      0x1200, 0x1715, 0x1716, 0x1734, 0x1735, 0x180e, 0x180f, 0x1b35, 0x1b36, 0x1b3b, 0x1b3c,
      0x1b3d, 0x1b3e, 0x1b43, 0x1b45, 0x1baa, 0x1bab, 0x1bf2, 0x1bf4, 0x200c, 0x200e, 0x2065,
      0x206a, 0x302e, 0x3030, 0x3164, 0x3165, 0xa8fa, 0xa8fb, 0xa953, 0xa954, 0xa9c0, 0xa9c1,
      0xd7b0, 0xd7c7, 0xd7cb, 0xd7fc, 0xffa0, 0xffa1, 0xfff0, 0xfff9, 0x111c0, 0x111c1, 0x111c2,
      0x111c4, 0x11235, 0x11236, 0x1133e, 0x1133f, 0x1134d, 0x1134e, 0x11357, 0x11358, 0x113b8,
      0x113b9, 0x113c2, 0x113c3, 0x113c5, 0x113c6, 0x113c7, 0x113ca, 0x113cf, 0x113d0, 0x113d1,
      0x113d2, 0x114b0, 0x114b1, 0x114bd, 0x114be, 0x115af, 0x115b0, 0x116b6, 0x116b7, 0x11930,
      0x11931, 0x1193d, 0x1193e, 0x1193f, 0x11940, 0x11941, 0x11942, 0x11a84, 0x11a8a, 0x11d46,
      0x11d47, 0x11f02, 0x11f03, 0x11f41, 0x11f42, 0x16ff0, 0x16ff2, 0x1d127, 0x1d129, 0x1d165,
      0x1d167, 0x1d16d, 0x1d173, 0x1d250, 0x1d253, 0x1d25b, 0x1d25d, 0x1d25f, 0x1d260, 0x1d280,
      0x1d282, 0xe0000, 0xe0001, 0xe0002, 0xe0020, 0xe0080, 0xe0100, 0xe01f0, 0xe1000]

/-- What stands behind a character, as far as a ligature can be made of both. `joined` says that a
joiner has been met in front of the letter. -/
inductive Ligature where
  /-- An Arabic alef, which a lam in front takes in. -/
  | alef
  /-- A Hebrew lamed. -/
  | lamed (joined : Bool)
  /-- A Khmer letter that has a form below the line. -/
  | khmerLetter
  /-- A Buginese ya. -/
  | ya (joined : Bool)
  /-- A Buginese vowel sign in front of a joiner and a ya. -/
  | vowelSignYa
  /-- A Tifinagh consonant. -/
  | consonant (joined : Bool)
  /-- A Tifinagh consonant with the sign in front of it that joins consonants. -/
  | joinedConsonant
  /-- One of the Lisu tone letters that end a combination. -/
  | toneLetter
  /-- An Old Turkic letter i. -/
  | orkhonI (joined : Bool)
  /-- The Kirat Rai vowel sign e. -/
  | vowelSignE
  /-- The Kirat Rai vowel sign ai, or two signs e. -/
  | vowelSignAi
  deriving DecidableEq, Inhabited

namespace Ligature

/-- Whether a code point is an Arabic alef. -/
def isAlef (n : Nat) : Bool :=
  [0x622, 0x623, 0x625, 0x627, 0x671, 0x672, 0x673, 0x675, 0x773, 0x774].contains n ||
    (0x870 ≤ n && n ≤ 0x882)

/-- Whether a code point is an Arabic lam. -/
def isLam (n : Nat) : Bool :=
  [0x644, 0x6b5, 0x6b6, 0x6b7, 0x6b8, 0x76a, 0x8a6, 0x8c7].contains n

/-- Whether a code point is a Tifinagh consonant. -/
def isConsonant (n : Nat) : Bool := (0x2d31 ≤ n && n ≤ 0x2d65) || n = 0x2d6f

/-- Whether a code point is a Khmer letter that has a form below the line. -/
def isKhmerLetter (n : Nat) : Bool :=
  0x1780 ≤ n && n ≤ 0x17af &&
    [0x1780, 0x1781, 0x1782, 0x1784, 0x1785, 0x1786, 0x1787, 0x1789, 0x178a, 0x178b, 0x178c, 0x178e,
      0x178f, 0x1790, 0x1791, 0x1792, 0x1793, 0x1795, 0x1796, 0x1797, 0x1798, 0x179b, 0x179c,
      0x179d, 0x17a0, 0x17a2, 0x17a7, 0x17ab, 0x17ac, 0x17af].contains n

/-- What a character is for the characters in front of it. -/
def ofChar? (c : Char) : Option Ligature :=
  match c.toNat with
  | 0x5dc => some (lamed false)
  | 0x1a10 => some (ya false)
  | 0xa4fc | 0xa4fd => some toneLetter
  | 0x10c03 => some (orkhonI false)
  | 0x16d67 => some vowelSignE
  | 0x16d68 => some vowelSignAi
  | n =>
    if isAlef n then some alef
    else if isKhmerLetter n then some khmerLetter
    else if isConsonant n then some (consonant false)
    else none

/-! ### Marks in between -/

/-- Whether a code point is a mark that is not shown. -/
def isHiddenMark (n : Nat) : Bool :=
  n = 0x34f || n = 0x17b4 || n = 0x17b5 || (0x180b ≤ n && n ≤ 0x180d) || n = 0x180f ||
    (0xfe00 ≤ n && n ≤ 0xfe0f) || (0xe0100 ≤ n && n ≤ 0xe01ef)

/-- Whether marks may stand inside of the ligature. -/
def spansMarks : Ligature → Bool
  | vowelSignE | vowelSignAi => false
  | _ => true

/-- The ligature with a joiner in front of what has been met of it, if it goes on there. -/
def withJoiner? : Ligature → Option Ligature
  | alef | vowelSignE | vowelSignAi => none
  | lamed _ => some (lamed true)
  | ya _ => some (ya true)
  | consonant _ => some (consonant true)
  | orkhonI _ => some (orkhonI true)
  | l => some l

/-- The ligature with a character in front of it that is no part of it but does not end it either.
`unseen` says whether the character has no width; an alef reaches across all marks. -/
def through? (l : Ligature) (c : Char) (unseen : Bool) : Option Ligature :=
  if c.toNat = zeroWidthJoiner then l.withJoiner?
  else
    match l with
    | alef => if unseen && !CodePoints.separating.contains c then some alef else none
    | l => if l.spansMarks && isHiddenMark c.toNat then some l else none

/-! ### Letters -/

/-- The columns that a character adds if it is part of the ligature, and what more of it is to
come. -/
def join? (l : Ligature) (c : Char) : Option (Int × Option Ligature) :=
  let n := c.toNat
  match l with
  | alef => if isLam n then some (0, none) else none
  | lamed true => if n = 0x5d0 then some (0, none) else none
  | khmerLetter => if n = 0x17d2 then some (-1, none) else none
  | ya true => if n = 0x1a17 then some (0, some vowelSignYa) else none
  | vowelSignYa => if n = 0x1a15 then some (0, none) else none
  | consonant joined =>
    if n = 0x2d7f then some (1, some joinedConsonant)
    else if joined && isConsonant n then some (0, none)
    else none
  | joinedConsonant => if isConsonant n then some (-1, none) else none
  | toneLetter => if 0xa4f8 ≤ n ∧ n ≤ 0xa4fb then some (0, none) else none
  | orkhonI true => if n = 0x10c32 then some (0, none) else none
  | vowelSignE =>
    if n = 0x16d67 then some (0, some vowelSignAi)
    else if n = 0x16d68 then some (1, some vowelSignE)
    else if n = 0x16d63 ∨ n = 0x16d69 then some (0, none)
    else none
  | vowelSignAi => if n = 0x16d63 then some (0, none) else none
  | lamed false | ya false | orkhonI false => none

end Ligature

end NaturalDeduction
