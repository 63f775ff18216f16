import Mathlib.Data.Nat.Digits.Defs
import Mathlib.Data.Rat.Lemmas
import NaturalDeduction.Expression.Basic
import NaturalDeduction.Proofs.DecimalPlaces

/-!
# The canonical text of a number is read as the number

The three forms of text share a shape: behind the sign of the number comes a numeral that is read as
its absolute value (`Renders`). For a decimal that needs the fact that its places make the number
whole. Then the units in the last place are the numerator times a cofactor of the denominator, so
nothing is cut off, and the zeros in front of the digits of a small number do not change what they
denote.

A numeral begins with a digit, and the text holds nothing but digits, a minus sign, a point and a
slash (`isNumeral_of_mem_canonicalChars`). So no other sort of word is ever taken for it.

Main definitions and statements:

* `Renders`: the sign, and a numeral for the absolute value.
* `unsigned?_pointed`: a point with its places is read as a fraction of a power of ten.
* `IsCanonical.renders`: each form of the canonical text renders its number.
* `parse?_of_canonical?`, `parse?_canonical`: so the text is read as the number, whether or not
  the two loops could count its places.
-/

namespace NaturalDeduction

namespace Number

variable {q : Rat}

/-- Whether a character can stand in the text of a number. -/
def IsNumeral (c : Char) : Prop := c.isDigit = true ∨ c = '-' ∨ c = '.' ∨ c = '/'

/-! ### Digits -/

/-- Digits are read as the number that they denote. -/
theorem natural?_eq {cs : List Char} (hne : cs ≠ []) (hdigits : ∀ c ∈ cs, c.isDigit = true) :
    natural? cs = some (Nat.ofDigitChars 10 cs 0) :=
  if_pos ⟨hne, List.all_eq_true.2 hdigits⟩

theorem isDigit_of_mem_toDigits {n : Nat} {c : Char} (h : c ∈ Nat.toDigits 10 n) :
    c.isDigit = true :=
  Nat.isDigit_of_mem_toDigits (by decide) (by decide) h

/-- So a number is read back from its digits. -/
theorem natural?_toDigits (n : Nat) : natural? (Nat.toDigits 10 n) = some n := by
  rw [natural?_eq Nat.toDigits_ne_nil fun c ↦ isDigit_of_mem_toDigits,
    Nat.ofDigitChars_ten_toDigits]

theorem isDigit_of_mem_padLeft {width : Nat} {cs : List Char} (h : ∀ c ∈ cs, c.isDigit = true) :
    ∀ c ∈ padLeft width cs, c.isDigit = true := by
  intro c hc
  rcases List.mem_append.1 hc with hc | hc
  · rw [List.eq_of_mem_replicate hc]
    rfl
  · exact h c hc

theorem le_length_padLeft (width : Nat) (cs : List Char) : width ≤ (padLeft width cs).length := by
  rw [padLeft, List.length_append, List.length_replicate]
  omega

theorem ofDigitChars_padLeft (width : Nat) (cs : List Char) :
    Nat.ofDigitChars 10 (padLeft width cs) 0 = Nat.ofDigitChars 10 cs 0 := by
  rw [padLeft, Nat.ofDigitChars_append, Nat.ofDigitChars_replicate_zero, Nat.mul_zero]

/-- A text is split at the first mark. -/
theorem splitOnce_append_cons {mark : Char} {l r : List Char} (h : mark ∉ l) :
    splitOnce mark (l ++ mark :: r) = some (l, r) := splitOnce_eq_some_iff.2 ⟨rfl, h⟩

theorem splitOnce_eq_none {mark : Char} {cs : List Char} (h : mark ∉ cs) :
    splitOnce mark cs = none := by
  rw [Option.eq_none_iff_forall_ne_some]
  rintro ⟨l, r⟩ hsplit
  obtain ⟨rfl, -⟩ := splitOnce_eq_some_iff.1 hsplit
  exact h (by simp)

/-- A mark that is not a digit is not among digits. -/
theorem notMem_of_isDigit {mark : Char} {cs : List Char} (hmark : mark.isDigit = false)
    (h : ∀ c ∈ cs, c.isDigit = true) : mark ∉ cs := fun hmem ↦ by
  rw [h mark hmem] at hmark
  cases hmark

/-! ### The three forms -/

/-- A numeral is not empty. -/
theorem exists_digit_of_natural? {cs : List Char} {n : Nat} (h : natural? cs = some n) :
    ∃ c rest, cs = c :: rest ∧ c.isDigit = true := by
  unfold natural? at h
  split at h
  · rename_i hcs
    cases cs with
    | nil => exact absurd rfl hcs.1
    | cons c rest => exact ⟨c, rest, rfl, List.all_eq_true.1 hcs.2 c List.mem_cons_self⟩
  · cases h

/-- Only text that begins with a digit is a number without sign. -/
theorem exists_digit_of_unsigned? {cs : List Char} {q : Rat} (h : unsigned? cs = some q) :
    ∃ c rest, cs = c :: rest ∧ c.isDigit = true := by
  unfold unsigned? at h
  split at h
  · rename_i above below hsplit
    obtain ⟨p, hp, -⟩ := Option.bind_eq_some_iff.1 h
    obtain ⟨c, rest, rfl, hc⟩ := exists_digit_of_natural? hp
    exact ⟨c, _, (splitOnce_eq_some_iff.1 hsplit).1, hc⟩
  · split at h
    · rename_i whole fraction hsplit
      obtain ⟨-, -, h⟩ := Option.bind_eq_some_iff.1 h
      obtain ⟨n, hn, -⟩ := Option.bind_eq_some_iff.1 h
      obtain ⟨c, rest, rfl, hc⟩ := exists_digit_of_natural? hn
      exact ⟨c, _, (splitOnce_eq_some_iff.1 hsplit).1, hc⟩
    · obtain ⟨_, hn, -⟩ := Option.map_eq_some_iff.1 h
      obtain ⟨n, hn, -⟩ := Option.bind_eq_some_iff.1 hn
      exact exists_digit_of_natural? hn

theorem unsigned?_quotient (p : Nat) {q : Nat} (hq : q ≠ 0) :
    unsigned? (Nat.toDigits 10 p ++ '/' :: Nat.toDigits 10 q) = some (mkRat p q) := by
  have hslash : '/' ∉ Nat.toDigits 10 p := notMem_of_isDigit rfl fun c ↦ isDigit_of_mem_toDigits
  rw [unsigned?, splitOnce_append_cons hslash]
  simp [natural?_toDigits, hq]

theorem unsigned?_toDigits (n : Nat) : unsigned? (Nat.toDigits 10 n) = some (n : Rat) := by
  have hdigits : ∀ c ∈ Nat.toDigits 10 n, c.isDigit = true := fun c ↦ isDigit_of_mem_toDigits
  rw [unsigned?, splitOnce_eq_none (notMem_of_isDigit rfl hdigits)]
  dsimp only
  rw [splitOnce_eq_none (notMem_of_isDigit rfl hdigits)]
  simp [natural?_toDigits]

/-- Digits with a point are read as long as the places are as many as can be counted. -/
theorem unsigned?_point {whole fraction : List Char} (hwhole : whole ≠ [])
    (hfraction : fraction ≠ [])
    (hdigits : ∀ c ∈ whole ++ fraction, c.isDigit = true) (hplaces : fraction.length ≤ maxPlaces) :
    unsigned? (whole ++ '.' :: fraction) =
      some (mkRat (Nat.ofDigitChars 10 (whole ++ fraction) 0) (10 ^ fraction.length)) := by
  obtain ⟨hwholeDigits, hfractionDigits⟩ := List.forall_mem_append.1 hdigits
  have hslash : '/' ∉ whole ++ '.' :: fraction := by
    have hl : '/' ∉ whole := notMem_of_isDigit rfl hwholeDigits
    have hr : '/' ∉ fraction := notMem_of_isDigit rfl hfractionDigits
    simp [hl, hr]
  rw [unsigned?, splitOnce_eq_none hslash]
  dsimp only
  rw [splitOnce_append_cons (notMem_of_isDigit rfl hwholeDigits)]
  simp [natural?_eq hwhole hwholeDigits, natural?_eq hfraction hfractionDigits,
    Nat.not_lt.2 hplaces]

/-! ### Units in the last place -/

/-- A number that is whole with some decimal places is a whole number of units in the last. -/
theorem mul_ten_pow_eq {scale m : Nat} (hm : 10 ^ scale = q.den * m) :
    q * (Nat.pow 10 scale : Nat) = (q.num * m : Int) := by
  have hpow : Nat.pow 10 scale = q.den * m := hm
  rw [hpow, Nat.cast_mul, ← mul_assoc, Rat.mul_den_eq_num]
  push_cast
  rfl

/-- The digits of a number of units with a point in front of the last `scale` denote it. -/
theorem unsigned?_pointed (n : Nat) {scale : Nat} (hpos : scale ≠ 0) (hscale : scale ≤ maxPlaces) :
    unsigned? (pointed n scale) = some (mkRat n (10 ^ scale)) := by
  unfold pointed
  -- The zeros in front leave a digit before the point, however small the number is.
  set digits := padLeft (scale + 1) (Nat.toDigits 10 n) with hdigits
  have hlength : scale + 1 ≤ digits.length := le_length_padLeft _ _
  have hwhole : digits.take (digits.length - scale) ≠ [] := by
    simp only [ne_eq, List.take_eq_nil_iff, not_or]
    exact ⟨by omega, List.length_pos_iff.1 (by omega)⟩
  have hfraction : (digits.drop (digits.length - scale)).length = scale := by
    rw [List.length_drop]
    omega
  have hvalue : Nat.ofDigitChars 10 digits 0 = n := by
    rw [hdigits, ofDigitChars_padLeft, Nat.ofDigitChars_ten_toDigits]
  have hall : ∀ c ∈ digits.take (digits.length - scale) ++ digits.drop (digits.length - scale),
      c.isDigit = true := by
    rw [List.take_append_drop]
    exact isDigit_of_mem_padLeft fun c ↦ isDigit_of_mem_toDigits
  have hne : digits.drop (digits.length - scale) ≠ [] := List.length_pos_iff.1 (by omega)
  dsimp only
  rw [unsigned?_point hwhole hne hall (hfraction.trans_le hscale), List.take_append_drop, hfraction,
    hvalue]

/-! ### The canonical text -/

/-- Whether characters begin with a digit, and can all stand in the text of a number. -/
def IsNumeric (cs : List Char) : Prop :=
  (∃ c rest, cs = c :: rest ∧ c.isDigit = true) ∧ ∀ c ∈ cs, IsNumeral c

/-- What begins with a digit and goes on like a numeral is numeric. -/
theorem isNumeric_append {ds cs : List Char} (hne : ds ≠ []) (hds : ∀ c ∈ ds, c.isDigit = true)
    (hcs : ∀ c ∈ cs, IsNumeral c) : IsNumeric (ds ++ cs) := by
  refine ⟨?_, List.forall_mem_append.2 ⟨fun c hc ↦ .inl (hds c hc), hcs⟩⟩
  cases ds with
  | nil => exact absurd rfl hne
  | cons d ds => exact ⟨d, ds ++ cs, rfl, hds d List.mem_cons_self⟩

/-- Digits with a point begin with one at least, as they are padded to more than the places. -/
theorem isNumeric_pointed (n scale : Nat) : IsNumeric (pointed n scale) := by
  have hdigits : ∀ c ∈ padLeft (scale + 1) (Nat.toDigits 10 n), c.isDigit = true :=
    isDigit_of_mem_padLeft fun c ↦ isDigit_of_mem_toDigits
  have hlength := le_length_padLeft (scale + 1) (Nat.toDigits 10 n)
  refine isNumeric_append ?_ (fun c hc ↦ hdigits c (List.mem_of_mem_take hc)) ?_
  · simp only [ne_eq, List.take_eq_nil_iff, not_or]
    exact ⟨by omega, List.length_pos_iff.1 (by omega)⟩
  · refine List.forall_mem_cons.2 ⟨.inr (.inr (.inl rfl)), fun c hc ↦ .inl ?_⟩
    exact hdigits c (List.mem_of_mem_drop hc)

/-- Whether characters are a numeral that is read as the absolute value of a number, behind the sign
of the number. -/
def Renders (q : Rat) (cs : List Char) : Prop :=
  ∃ ds, cs = sign q.num ++ ds ∧ IsNumeric ds ∧ unsigned? ds = some (mkRat q.num.natAbs q.den)

theorem renders_integerChars (h : q.den = 1) : Renders q (integerChars q.num) := by
  refine ⟨Nat.toDigits 10 q.num.natAbs, rfl, ?_, ?_⟩
  · have hdigits := isNumeric_append Nat.toDigits_ne_nil
      (fun c ↦ isDigit_of_mem_toDigits (n := q.num.natAbs)) (List.forall_mem_nil _)
    rwa [List.append_nil] at hdigits
  · rw [unsigned?_toDigits, h, Rat.mkRat_one]
    rfl

/-- Any number is rendered by the quotient in lowest terms. -/
theorem renders_quotientChars (q : Rat) : Renders q (quotientChars q) := by
  refine ⟨_, List.append_assoc _ _ _, ?_, unsigned?_quotient _ q.den_nz⟩
  refine isNumeric_append Nat.toDigits_ne_nil (fun c ↦ isDigit_of_mem_toDigits) ?_
  exact List.forall_mem_cons.2
    ⟨.inr (.inr (.inr rfl)), fun c hc ↦ .inl (isDigit_of_mem_toDigits hc)⟩

/-- A number that the places make whole is rendered by the decimal. -/
theorem renders_decimalChars {scale : Nat} (hpos : scale ≠ 0) (hscale : scale ≤ maxPlaces)
    (hdvd : q.den ∣ 10 ^ scale) : Renders q (decimalChars q scale) := by
  obtain ⟨m, hm⟩ := hdvd
  have hunits : ((q.num * m : Int) : Rat).num.tdiv ((q.num * m : Int) : Rat).den = q.num * m := by
    rw [Rat.num_intCast, Rat.den_intCast, Nat.cast_one, Int.tdiv_one]
  refine ⟨pointed (q.num * m).natAbs scale, ?_, isNumeric_pointed _ _, ?_⟩
  · rw [decimalChars, mul_ten_pow_eq hm, hunits]
  · have hpow : (10 ^ scale : Nat) ≠ 0 := by positivity
    rw [unsigned?_pointed _ hpos hscale, Option.some_inj, Rat.mkRat_eq_iff hpow q.den_nz, hm,
      Int.natAbs_mul, Int.natAbs_natCast]
    push_cast
    ring

/-- Every text of the canonical form is read as the number. -/
theorem IsCanonical.renders {cs : List Char} (h : IsCanonical q cs) : Renders q cs := by
  cases h with
  | integer h => exact renders_integerChars h
  | quotient => exact renders_quotientChars q
  | @decimal k h hdvd _ hplaces =>
    refine renders_decimalChars ?_ (lt_iff_le_maxPlaces.1 hplaces) hdvd
    rintro rfl
    exact h (Nat.dvd_one.1 hdvd)

/-- So the text that is written renders the number, also where it is not canonical. -/
theorem renders_canonicalChars (q : Rat) : Renders q (canonicalChars q) := by
  unfold canonicalChars
  cases h : canonicalChars? q with
  | none => exact renders_quotientChars q
  | some cs => exact (isCanonical_of_canonicalChars? h).renders

/-- A text with a digit in it is not empty. -/
theorem Renders.ne_nil {cs : List Char} (h : Renders q cs) : cs ≠ [] := by
  obtain ⟨_, rfl, ⟨⟨c, rest, rfl, -⟩, -⟩, -⟩ := h
  exact List.append_ne_nil_of_right_ne_nil _ (List.cons_ne_nil c rest)

/-- What the text is made of, with its sign. -/
theorem isNumeral_of_mem_canonicalChars {c : Char} (h : c ∈ canonicalChars q) : IsNumeral c := by
  obtain ⟨ds, hds, hnumeric, -⟩ := renders_canonicalChars q
  rw [hds] at h
  rcases List.mem_append.1 h with h | h
  · unfold sign at h
    split at h
    · exact .inr (.inl (List.mem_singleton.1 h))
    · cases h
  · exact hnumeric.2 c h

/-- Behind the sign of a number, its absolute value is read as the number. -/
theorem Renders.signed?_eq {cs : List Char} (h : Renders q cs) : signed? cs = some q := by
  obtain ⟨ds, rfl, ⟨⟨c, rest, hcons, hdigit⟩, -⟩, hvalue⟩ := h
  unfold sign
  split
  · rename_i hneg
    have hnum : (q.num.natAbs : Int) = -q.num := by omega
    rw [List.singleton_append, signed?, hvalue, Option.map_some, hnum, Rat.neg_mkRat, neg_neg,
      Rat.mkRat_self]
  · rename_i hpos
    have hnum : (q.num.natAbs : Int) = q.num := by omega
    rw [List.nil_append, hcons, signed?.eq_2, ← hcons, hvalue, hnum, Rat.mkRat_self]
    -- The digit is not the minus sign of the other equation.
    rintro rest' ⟨⟩
    cases hdigit

/-- **The canonical text of a number is read as the number.** -/
theorem parse?_of_canonical? {text : String} (h : canonical? q = some text) :
    parse? text = some q := by
  obtain ⟨cs, hcs, rfl⟩ := Option.map_eq_some_iff.1 h
  rw [parse?, String.toList_ofList]
  exact (isCanonical_of_canonicalChars? hcs).renders.signed?_eq

/-- What is written for a number is read as the number. -/
theorem parse?_canonical (q : Rat) : parse? (canonical q) = some q := by
  rw [parse?, canonical, String.toList_ofList, (renders_canonicalChars q).signed?_eq]

end Number

/-- The look at the first character is a shortcut: a word is a number exactly if it can be read as
one. -/
theorem Atom.ofWord_eq (word : String) :
    ofWord word = ((Number.parse? word).map number).getD (symbol word) := by
  unfold ofWord
  dsimp only
  cases hparse : Number.parse? word with
  | none => rw [ite_self]; rfl
  | some q =>
    rw [Number.parse?, Number.signed?.eq_def] at hparse
    split at hparse
    · rename_i rest hrest
      obtain ⟨d, hd, -⟩ := Option.map_eq_some_iff.1 hparse
      obtain ⟨c, rest, rfl, -⟩ := Number.exists_digit_of_unsigned? hd
      rw [hrest]
      rfl
    · obtain ⟨c, rest, hrest, hc⟩ := Number.exists_digit_of_unsigned? hparse
      rw [hrest, if_pos]
      · rfl
      · split
        · contradiction
        · rename_i hminus
          cases hminus
          cases hc
        · rename_i hcons
          cases hcons
          rw [hc, Bool.true_or]

/-- So is the word, since a text that is a number is taken for nothing else. -/
theorem Atom.ofWord_canonical (q : Rat) : ofWord (Number.canonical q) = number q := by
  rw [ofWord_eq, Number.parse?_canonical]
  rfl

end NaturalDeduction
