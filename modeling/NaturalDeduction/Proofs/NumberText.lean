import NaturalDeduction.Proofs.Numerals

/-!
# What is read as a number

A text without sign is a number if it is digits, digits with a point among them, or a quotient of
digits by digits that are not all zero; what it denotes is said by place values
(`DenotesUnsigned`). A minus sign may stand in front of it (`Denotes`).

The reader looks for a slash first and for a point after that. Neither is a digit, so the first mark
of a text in one of the three forms is the mark of that form, and the other way round, the parts
before and behind the mark that was found have to be digits.

Every number has a canonical text, which is read as the number, so two texts have one canonical text
exactly if they denote one number. 

Main definitions and statements:

* `DenotesUnsigned`, `Denotes`: which texts denote which number, without a reader.
* `signed?_eq_some_iff`, `parse?_eq_some_iff`: the reader finds just these.
* `canonical_eq_of_canonical?`: two canonical texts are the same if they denote the same.
-/

namespace NaturalDeduction.Number

variable {cs : List Char} {q : Rat} {n : Nat}

/-! ### Digits -/

/-- Whether characters are digits, one at least. -/
structure IsDigits (cs : List Char) : Prop where
  ne_nil : cs ≠ []
  isDigit : ∀ c ∈ cs, c.isDigit = true

/-- The number that digits denote, by the places at which they stand. -/
def digitsValue : List Char → Nat
  | [] => 0
  | c :: rest => (c.toNat - '0'.toNat) * 10 ^ rest.length + digitsValue rest

/-- The value that digits are read with is the sum by places. -/
theorem ofDigitChars_eq_digitsValue (cs : List Char) :
    Nat.ofDigitChars 10 cs 0 = digitsValue cs := by
  induction cs with
  | nil => rfl
  | cons c rest ih =>
    rw [Nat.ofDigitChars_cons, Nat.ofDigitChars_eq_ofDigitChars_zero, ih, digitsValue, Nat.mul_zero,
      Nat.zero_add, Nat.mul_comm]

/-- Digits are read as their value, and nothing else is read. -/
theorem natural?_eq_some_iff : natural? cs = some n ↔ IsDigits cs ∧ digitsValue cs = n := by
  rw [← ofDigitChars_eq_digitsValue]
  constructor
  · intro h
    unfold natural? at h
    split at h
    next hcs => exact ⟨⟨hcs.1, List.all_eq_true.1 hcs.2⟩, Option.some.inj h⟩
    next => cases h
  · rintro ⟨h, rfl⟩
    exact natural?_eq h.ne_nil h.isDigit

/-- The digits behind a point count parts of the last place. -/
theorem mkRat_ofDigitChars_append (ds fs : List Char) :
    mkRat (Nat.ofDigitChars 10 (ds ++ fs) 0) (10 ^ fs.length) =
      digitsValue ds + digitsValue fs / 10 ^ fs.length := by
  have hpow : (10 ^ fs.length : Rat) ≠ 0 := by positivity
  rw [Rat.mkRat_eq_div, Nat.ofDigitChars_append, Nat.ofDigitChars_eq_ofDigitChars_zero,
    ofDigitChars_eq_digitsValue, ofDigitChars_eq_digitsValue]
  push_cast
  rw [add_div, mul_div_cancel_left₀ _ hpow]

/-! ### Texts without sign -/

/-- Whether a text without sign denotes a number. -/
inductive DenotesUnsigned : List Char → Rat → Prop
  | digits {ds : List Char} (h : IsDigits ds) : DenotesUnsigned ds (digitsValue ds)
  | point {ds fs : List Char} (h : IsDigits ds) (hfs : IsDigits fs) (hplaces : fs.length < 2 ^ 32) :
    DenotesUnsigned (ds ++ '.' :: fs) (digitsValue ds + digitsValue fs / 10 ^ fs.length)
  | quotient {ps qs : List Char} (h : IsDigits ps) (hqs : IsDigits qs)
    (hzero : digitsValue qs ≠ 0) :
    DenotesUnsigned (ps ++ '/' :: qs) (digitsValue ps / digitsValue qs)

/-- What is read has one of the three forms. -/
theorem denotesUnsigned_of_unsigned? (h : unsigned? cs = some q) : DenotesUnsigned cs q := by
  unfold unsigned? at h
  split at h
  -- a quotient: two naturals, the second of which is not zero
  next above below hsplit =>
    obtain ⟨rfl, -⟩ := splitOnce_eq_some_iff.1 hsplit
    obtain ⟨p, hp, h⟩ := Option.bind_eq_some_iff.1 h
    obtain ⟨r, hr, h⟩ := Option.bind_eq_some_iff.1 h
    obtain ⟨habove, rfl⟩ := natural?_eq_some_iff.1 hp
    obtain ⟨hbelow, rfl⟩ := natural?_eq_some_iff.1 hr
    split at h
    next => cases h
    next hzero =>
      obtain rfl := Option.some.inj h
      rw [Rat.mkRat_eq_div, Int.cast_natCast]
      exact .quotient habove hbelow hzero
  next =>
    split at h
    -- a decimal: the places behind the point are counted with 32 bits
    next whole fraction hsplit =>
      obtain ⟨rfl, -⟩ := splitOnce_eq_some_iff.1 hsplit
      obtain ⟨_, hf, h⟩ := Option.bind_eq_some_iff.1 h
      obtain ⟨_, hw, h⟩ := Option.bind_eq_some_iff.1 h
      have hfraction := (natural?_eq_some_iff.1 hf).1
      have hwhole := (natural?_eq_some_iff.1 hw).1
      split at h
      next => cases h
      next hplaces =>
        obtain rfl := Option.some.inj h
        have hlength : fraction.length < 2 ^ 32 := by
          simp only [maxPlaces] at hplaces
          omega
        exact mkRat_ofDigitChars_append whole fraction ▸ .point hwhole hfraction hlength
    next =>
      obtain ⟨_, hread, rfl⟩ := Option.map_eq_some_iff.1 h
      obtain ⟨n, hn, hcast⟩ := Option.bind_eq_some_iff.1 hread
      obtain rfl := Option.some.inj hcast
      obtain ⟨hdigits, rfl⟩ := natural?_eq_some_iff.1 hn
      exact .digits hdigits

theorem unsigned?_of_denotesUnsigned (h : DenotesUnsigned cs q) : unsigned? cs = some q := by
  cases h with
  | digits h =>
    have hslash : splitOnce '/' cs = none := splitOnce_eq_none (notMem_of_isDigit rfl h.isDigit)
    have hpoint : splitOnce '.' cs = none := splitOnce_eq_none (notMem_of_isDigit rfl h.isDigit)
    simp only [unsigned?, hslash, hpoint, natural?_eq_some_iff.2 ⟨h, rfl⟩]
    rfl
  | @point ds fs h hfs hplaces =>
    rw [unsigned?_point h.ne_nil hfs.ne_nil (List.forall_mem_append.2 ⟨h.isDigit, hfs.isDigit⟩)
      (by simp only [maxPlaces]; omega)]
    exact congrArg some (mkRat_ofDigitChars_append ds fs)
  | @quotient ps qs h hqs hzero =>
    have hslash : splitOnce '/' (ps ++ '/' :: qs) = some (ps, qs) :=
      splitOnce_append_cons (notMem_of_isDigit rfl h.isDigit)
    simp only [unsigned?, hslash, natural?_eq_some_iff.2 ⟨h, rfl⟩,
      natural?_eq_some_iff.2 ⟨hqs, rfl⟩, Option.bind_eq_bind, Option.bind_some, hzero, if_false]
    rw [Rat.mkRat_eq_div, Int.cast_natCast]

theorem unsigned?_eq_some_iff : unsigned? cs = some q ↔ DenotesUnsigned cs q :=
  ⟨denotesUnsigned_of_unsigned?, unsigned?_of_denotesUnsigned⟩

/-! ### Texts with an optional sign -/

/-- Whether a text denotes a number. -/
inductive Denotes : List Char → Rat → Prop
  | unsigned {cs : List Char} {q : Rat} (h : DenotesUnsigned cs q) : Denotes cs q
  | negative {cs : List Char} {q : Rat} (h : DenotesUnsigned cs q) : Denotes ('-' :: cs) (-q)

/-- A sign is no digit, so it is told apart by the first character. -/
theorem signed?_eq_some_iff : signed? cs = some q ↔ Denotes cs q := by
  constructor
  · intro h
    unfold signed? at h
    split at h
    next rest =>
      obtain ⟨p, hp, rfl⟩ := Option.map_eq_some_iff.1 h
      exact .negative (unsigned?_eq_some_iff.1 hp)
    next => exact .unsigned (unsigned?_eq_some_iff.1 h)
  · intro h
    cases h with
    | negative h =>
      rw [signed?, unsigned?_eq_some_iff.2 h, Option.map_some]
    | unsigned h =>
      have hunsigned := unsigned?_eq_some_iff.2 h
      -- A text that denotes a number begins with a digit, and so with no sign.
      obtain ⟨c, rest, rfl, hc⟩ := exists_digit_of_unsigned? hunsigned
      rw [signed?.eq_2, hunsigned]
      rintro _ ⟨⟩
      cases hc

/-- The reader of texts, in terms of characters. -/
theorem parse?_eq_some_iff {text : String} : parse? text = some q ↔ Denotes text.toList q :=
  signed?_eq_some_iff

/-! ### Canonical texts -/

/-- A number has a canonical text just if its twos and fives can be counted. -/
theorem exists_canonical?_iff : (∃ text, canonical? q = some text) ↔ CountsFit q := by
  rw [← Option.isSome_iff_exists, canonical?, Option.isSome_map, Option.isSome_iff_ne_none,
    ne_eq, canonicalChars?_eq_none_iff, not_not]

/-- Where a number has a canonical text, that is what is printed for it. -/
theorem canonical_eq_of_canonical? {text : String} (h : canonical? q = some text) :
    canonical q = text := by
  obtain ⟨cs, hcs, rfl⟩ := Option.map_eq_some_iff.1 h
  rw [canonical, canonicalChars, hcs, Option.getD_some]

/-- **Number text is exact both ways.** What is read as a number is what denotes one, and it is read
as the number that it denotes. The numbers with a canonical text are those whose twos and fives can
be counted, among them every decimal with fewer than 2³² places. Such a text is what is printed for
the number, has the form that it should have, and is read as the number, alone and as a word. And of
two texts that are read, the canonical texts are the same exactly if both denote the same number. -/
theorem parse?_isExact :
    (∀ text q, parse? text = some q ↔ Denotes text.toList q) ∧
      (∀ q, (∃ text, canonical? q = some text) ↔ CountsFit q) ∧
      (∀ q k, k < 2 ^ 32 → q.den ∣ 10 ^ k → CountsFit q) ∧
      (∀ q text, canonical? q = some text →
        canonical q = text ∧ IsCanonical q text.toList ∧ parse? text = some q ∧
        Atom.ofWord text = .number q) ∧
      ∀ s t, (∃ c, (parse? s).bind canonical? = some c ∧ (parse? t).bind canonical? = some c) ↔
        ∃ q, CountsFit q ∧ Denotes s.toList q ∧ Denotes t.toList q := by
  refine ⟨fun _ _ ↦ parse?_eq_some_iff, fun _ ↦ exists_canonical?_iff,
    fun _ _ ↦ countsFit_of_dvd, fun q text h ↦ ?_, fun s t ↦ ?_⟩
  · have hparse := parse?_of_canonical? h
    refine ⟨canonical_eq_of_canonical? h, ?_, hparse, by rw [Atom.ofWord_eq, hparse]; rfl⟩
    obtain ⟨cs, hcs, rfl⟩ := Option.map_eq_some_iff.1 h
    rw [String.toList_ofList]
    exact isCanonical_of_canonicalChars? hcs
  · simp only [← parse?_eq_some_iff, Option.bind_eq_some_iff]
    constructor
    · rintro ⟨c, ⟨p, hp, hpc⟩, q, hq, hqc⟩
      -- The text is read as either number, so they are one.
      obtain rfl : p = q := Option.some.inj ((parse?_of_canonical? hpc).symm.trans
        (parse?_of_canonical? hqc))
      exact ⟨p, exists_canonical?_iff.1 ⟨c, hpc⟩, hp, hq⟩
    · rintro ⟨q, hfit, hs, ht⟩
      obtain ⟨c, hc⟩ := exists_canonical?_iff.2 hfit
      exact ⟨c, ⟨q, hs, hc⟩, q, ht, hc⟩

/-- Forty has three twos and one five, so there are three places, and a zero stands on either side
of the point. -/
theorem parse?_isExact_neg_fortieth :
    let q := mkRat (-1) 40
    canonical? q = some "-0.025" ∧ CountsFit q ∧ parse? "-0.025" = some q ∧
      Atom.ofWord "-0.025" = .number q := by
  intro q
  have hcanonical : canonical? q = some "-0.025" := by
    dsimp only [q]
    cbv
  obtain ⟨-, hfit, -, hread, -⟩ := parse?_isExact
  obtain ⟨-, -, hparse, hword⟩ := hread q _ hcanonical
  exact ⟨hcanonical, (hfit q).1 ⟨_, hcanonical⟩, hparse, hword⟩

end NaturalDeduction.Number
