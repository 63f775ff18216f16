import Mathlib.Data.Nat.Prime.Basic
import NaturalDeduction.Number

/-!
# Terminating decimals

A number is written as a decimal if dividing twos and fives out of its denominator leaves one. That
is a statement about the two loops that divide, and this module turns it into one about the number:
the number of places is the least that makes it whole, and where none does, it is written as a
quotient (`IsCanonical`).

A loop ends with what has no factor left, and its count is the exponent of the factor
(`exists_of_divideOut`). It has no result just if the factor divides more often than can be counted
(`divideOut_eq_none_iff`). After both loops the denominator is `2 ^ a * 5 ^ b * r`, and `r` is
coprime to ten. So it divides a power of ten only if `r` is one, and then just those whose exponent
is `a` and `b` at least (`dvd_ten_pow_iff`).

Counts are kept in 32 bits, so the numbers with a canonical text are those with fewer than 2³² twos
and fewer than 2³² fives (`CountsFit`). Every decimal with fewer than 2³² places is among them.
-/

namespace NaturalDeduction.Number

variable {factor count rest k r : Nat} {q : Rat} {cs : List Char}

/-! ### Dividing out a factor -/

/-- The count is the number of factors that were divided out, and none is left. -/
theorem exists_of_divideOut (h : divideOut factor count rest = some (k, r)) :
    ∃ n, k = count + n ∧ rest = factor ^ n * r ∧ ¬ factor ∣ r := by
  fun_induction divideOut factor count rest with
  | case1 count rest hrest hcount ih =>
    obtain ⟨n, rfl, hdiv, hr⟩ := ih h
    refine ⟨n + 1, by omega, ?_, hr⟩
    rw [pow_succ', Nat.mul_assoc, ← hdiv, Nat.mul_div_cancel' (Nat.dvd_of_mod_eq_zero hrest)]
  | case2 => cases h
  | case3 count rest hrest =>
    cases h
    exact ⟨0, rfl, (Nat.one_mul _).symm, fun hdvd ↦ hrest (Nat.mod_eq_zero_of_dvd hdvd)⟩

/-- A loop that has a result never counted too far. -/
theorem le_maxPlaces_of_divideOut (hcount : count ≤ maxPlaces)
    (h : divideOut factor count rest = some (k, r)) : k ≤ maxPlaces := by
  fun_induction divideOut factor count rest with
  | case1 count rest hrest hlt ih => exact ih hlt h
  | case2 => cases h
  | case3 count rest hrest =>
    cases h
    exact hcount

/-- A count overflows just if the factor divides more often than can be counted. -/
theorem divideOut_eq_none_iff (hcount : count ≤ maxPlaces) :
    divideOut factor count rest = none ↔ factor ^ (maxPlaces + 1 - count) ∣ rest := by
  fun_induction divideOut factor count rest with
  | case1 count rest hrest hlt ih =>
    have hexponent : maxPlaces + 1 - count = maxPlaces + 1 - (count + 1) + 1 := by omega
    rw [ih hlt, Nat.dvd_div_iff_mul_dvd (Nat.dvd_of_mod_eq_zero hrest), hexponent, pow_succ']
  | case2 count rest hrest hlt =>
    have hexponent : maxPlaces + 1 - count = 1 := by omega
    rw [hexponent, pow_one]
    exact iff_of_true rfl (Nat.dvd_of_mod_eq_zero hrest)
  | case3 count rest hrest =>
    refine iff_of_false nofun fun hdvd ↦ hrest (Nat.mod_eq_zero_of_dvd ?_)
    exact (dvd_pow_self factor (by omega)).trans hdvd

/-! ### Powers of ten -/

/-- The two loops take nothing from each other. -/
theorem coprime_two_pow_five_pow (a b : Nat) : Nat.Coprime (2 ^ a) (5 ^ b) :=
  Nat.Coprime.pow a b (by decide)

theorem ten_pow_eq (j : Nat) : 10 ^ j = 2 ^ j * 5 ^ j := Nat.mul_pow 2 5 j

/-- What has factors two and five divided out of it divides no power of ten, unless it is one. -/
theorem eq_one_of_dvd_ten_pow {j : Nat} (htwo : ¬ 2 ∣ r) (hfive : ¬ 5 ∣ r) (h : r ∣ 10 ^ j) :
    r = 1 := by
  have htwos : Nat.Coprime (2 ^ j) r :=
    ((Nat.Prime.coprime_iff_not_dvd Nat.prime_two).2 htwo).pow_left j
  have hfives : Nat.Coprime (5 ^ j) r :=
    ((Nat.Prime.coprime_iff_not_dvd Nat.prime_five).2 hfive).pow_left j
  rw [ten_pow_eq] at h
  exact (htwos.mul_left hfives).symm.eq_one_of_dvd h

/-- Twos and fives divide just the powers of ten with as many of both. -/
theorem dvd_ten_pow_iff {a b j : Nat} : 2 ^ a * 5 ^ b ∣ 10 ^ j ↔ a ≤ j ∧ b ≤ j := by
  rw [ten_pow_eq]
  constructor
  · intro h
    have htwos : 2 ^ a ∣ 2 ^ j :=
      (coprime_two_pow_five_pow a j).dvd_of_dvd_mul_right ((Nat.dvd_mul_right _ _).trans h)
    have hfives : 5 ^ b ∣ 5 ^ j :=
      (coprime_two_pow_five_pow j b).symm.dvd_of_dvd_mul_left ((Nat.dvd_mul_left _ _).trans h)
    exact ⟨(Nat.pow_dvd_pow_iff_le_right (by decide)).1 htwos,
      (Nat.pow_dvd_pow_iff_le_right (by decide)).1 hfives⟩
  · rintro ⟨ha, hb⟩
    exact Nat.mul_dvd_mul (pow_dvd_pow 2 ha) (pow_dvd_pow 5 hb)

/-! ### Counts that fit -/

/-- Whether the twos and the fives in the denominator of a number can be counted in 32 bits. -/
structure CountsFit (q : Rat) : Prop where
  twos : ∀ n, 2 ^ n ∣ q.den → n < 2 ^ 32
  fives : ∀ n, 5 ^ n ∣ q.den → n < 2 ^ 32

/-- A count of 32 bits. -/
theorem lt_iff_le_maxPlaces {n : Nat} : n < 2 ^ 32 ↔ n ≤ maxPlaces := Nat.lt_succ_iff

/-- A factor divides more often than can be counted just if the first power that does not fit
divides. -/
theorem forall_lt_iff_not_dvd {d : Nat} :
    (∀ n, factor ^ n ∣ d → n < 2 ^ 32) ↔ ¬ factor ^ (maxPlaces + 1) ∣ d := by
  constructor
  · exact fun h hdvd ↦ Nat.not_succ_le_self _ (lt_iff_le_maxPlaces.1 (h _ hdvd))
  · intro h n hdvd
    by_contra hn
    rw [lt_iff_le_maxPlaces, Nat.not_le] at hn
    exact h ((pow_dvd_pow factor hn).trans hdvd)

/-- So whether the counts fit is asked of one power of two and one of five. -/
theorem countsFit_iff :
    CountsFit q ↔ ¬ 2 ^ (maxPlaces + 1) ∣ q.den ∧ ¬ 5 ^ (maxPlaces + 1) ∣ q.den := by
  rw [← forall_lt_iff_not_dvd, ← forall_lt_iff_not_dvd]
  exact ⟨fun h ↦ ⟨h.twos, h.fives⟩, fun h ↦ ⟨h.1, h.2⟩⟩

/-- The counts of a decimal with fewer than 2³² places fit. -/
theorem countsFit_of_dvd (hk : k < 2 ^ 32) (h : q.den ∣ 10 ^ k) : CountsFit q where
  twos n hn := by
    have hdvd : 2 ^ n * 5 ^ 0 ∣ 10 ^ k := by rw [pow_zero, Nat.mul_one]; exact hn.trans h
    exact (dvd_ten_pow_iff.1 hdvd).1.trans_lt hk
  fives n hn := by
    have hdvd : 2 ^ 0 * 5 ^ n ∣ 10 ^ k := by rw [pow_zero, Nat.one_mul]; exact hn.trans h
    exact (dvd_ten_pow_iff.1 hdvd).2.trans_lt hk

/-! ### The form of the canonical text -/

/-- Whether a text is the canonical one of a number: an integer is written as one, what a power of
ten makes whole as a decimal with the fewest places that do so, and the rest as quotients. -/
inductive IsCanonical (q : Rat) : List Char → Prop
  | integer (h : q.den = 1) : IsCanonical q (integerChars q.num)
  | decimal {k : Nat} (h : q.den ≠ 1) (hdvd : q.den ∣ 10 ^ k)
    (hleast : ∀ j, q.den ∣ 10 ^ j → k ≤ j) (hplaces : k < 2 ^ 32) :
    IsCanonical q (decimalChars q k)
  | quotient (h : ∀ j, ¬ q.den ∣ 10 ^ j) : IsCanonical q (quotientChars q)

/-- The text that the loops lead to is the one that the number calls for: with the larger count as
the number of places, no place could be left out. -/
theorem isCanonical_of_canonicalChars? (h : canonicalChars? q = some cs) : IsCanonical q cs := by
  unfold canonicalChars? at h
  split at h
  next hden =>
    cases h
    exact .integer hden
  next hden =>
    obtain ⟨⟨a, rest⟩, htwos, h⟩ := Option.bind_eq_some_iff.1 h
    obtain ⟨⟨b, s⟩, hfives, h⟩ := Option.bind_eq_some_iff.1 h
    have ha := lt_iff_le_maxPlaces.2 (le_maxPlaces_of_divideOut (Nat.zero_le _) htwos)
    have hb := lt_iff_le_maxPlaces.2 (le_maxPlaces_of_divideOut (Nat.zero_le _) hfives)
    obtain ⟨m, hm, hrest, htwo⟩ := exists_of_divideOut htwos
    obtain ⟨n, hn, hs, hfive⟩ := exists_of_divideOut hfives
    obtain ⟨rfl, rfl⟩ : a = m ∧ b = n := ⟨hm.trans (Nat.zero_add m), hn.trans (Nat.zero_add n)⟩
    have hfactors : q.den = 2 ^ a * 5 ^ b * s := by rw [hrest, hs, Nat.mul_assoc]
    dsimp only at h
    split at h
    next hone =>
      cases h
      have hdvd (j : Nat) : q.den ∣ 10 ^ j ↔ a ≤ j ∧ b ≤ j := by
        rw [hfactors, hone, Nat.mul_one, dvd_ten_pow_iff]
      exact .decimal hden ((hdvd _).2 ⟨Nat.le_max_left a b, Nat.le_max_right a b⟩)
        (fun j hj ↦ Nat.max_le.2 ((hdvd j).1 hj)) (Nat.max_lt.2 ⟨ha, hb⟩)
    next hone =>
      cases h
      have htwo' : ¬ 2 ∣ s := fun h ↦ htwo (hs ▸ h.mul_left (5 ^ b))
      have hden' : s ∣ q.den := hfactors ▸ Nat.dvd_mul_left s _
      exact .quotient fun j hj ↦ hone (eq_one_of_dvd_ten_pow htwo' hfive (hden'.trans hj))

/-- A number has no canonical text just if a count overflows. -/
theorem canonicalChars?_eq_none_iff : canonicalChars? q = none ↔ ¬ CountsFit q := by
  unfold canonicalChars?
  split
  next hden =>
    have hdvd : q.den ∣ 10 ^ 0 := by rw [hden]; exact one_dvd _
    exact iff_of_false nofun fun h ↦ h (countsFit_of_dvd (by decide) hdvd)
  next hden =>
    have hnone (factor rest : Nat) :
        divideOut factor 0 rest = none ↔ factor ^ (maxPlaces + 1) ∣ rest :=
      divideOut_eq_none_iff (Nat.zero_le _)
    rw [countsFit_iff, not_and_or, not_not, not_not, ← hnone 2]
    cases htwos : divideOut 2 0 q.den with
    | none => exact iff_of_true rfl (.inl rfl)
    | some result =>
      obtain ⟨a, rest⟩ := result
      obtain ⟨m, -, hrest, -⟩ := exists_of_divideOut htwos
      have hfives : 5 ^ (maxPlaces + 1) ∣ q.den ↔ divideOut 5 0 rest = none := by
        have hcoprime := (coprime_two_pow_five_pow m (maxPlaces + 1)).symm
        rw [hnone, hrest]
        exact ⟨hcoprime.dvd_of_dvd_mul_left, fun h ↦ h.mul_left _⟩
      rw [hfives, or_iff_right nofun]
      show (divideOut 5 0 rest).bind _ = none ↔ _
      cases divideOut 5 0 rest with
      | none => exact iff_of_true rfl rfl
      | some result =>
        refine iff_of_false (fun h ↦ ?_) nofun
        dsimp only [Option.bind_some] at h
        split at h <;> cases h

end NaturalDeduction.Number
