import Mathlib.Data.List.TakeWhile
import Mathlib.Tactic.Ring
import ScreenedExpr.Proofs.Lexer.Lexemes

/-!
# Every unsigned number has a numeral

A double is a whole number of units of a power of two, and the same power of ten is a whole
number of these units; so a finite double has a decimal fraction with as many places. It is
read back by a rounding that has nothing to round.

* `Double.round_mul` — a magnitude that a double can hold is its own rounding;
* `Decimal.read?_point` — digits with a point among them;
* `Double.exists_numeral` — every number without a sign, infinity included, is the reading
  of some digits and points.
-/

namespace ScreenedExpr

namespace Double

/-! ## Rounding what a double can hold -/

/-- The last significand bit of a magnitude of 53 bits is no higher than its lowest bit. -/
theorem pow_lastBit_dvd {units m e : Nat} (hm : m < 1 <<< 53) (hunits : units = m <<< e) :
    2 ^ lastBit units ∣ units := by
  rw [Nat.shiftLeft_eq] at hunits
  rcases Nat.eq_zero_or_pos units with rfl | hpos
  · exact Nat.dvd_zero _
  have hle : lastBit units ≤ e := by
    -- otherwise the magnitude has more binary digits than the significand and the shift give
    by_contra hlt
    have hlow : 2 ^ (e + 53) ≤ units := by
      refine Nat.le_trans (Nat.pow_le_pow_right (by decide) ?_) (Nat.log2_self_le hpos.ne')
      rw [lastBit] at hlt
      omega
    have hhigh : units < 2 ^ (e + 53) := by
      rw [hunits, Nat.pow_add, Nat.mul_comm (2 ^ e), ← Nat.one_shiftLeft 53]
      exact Nat.mul_lt_mul_of_pos_right hm (Nat.two_pow_pos e)
    omega
  rw [hunits]
  exact Nat.dvd_mul_left_of_dvd (Nat.pow_dvd_pow 2 (hunits ▸ hle)) m

/-- **A magnitude of 53 bits is its own rounding**, over any denominator. -/
theorem roundUnits_mul {units m e den : Nat} (hm : m < 1 <<< 53) (hunits : units = m <<< e)
    (hden : 0 < den) : roundUnits (units * den) den = units := by
  obtain ⟨q, hq⟩ := pow_lastBit_dvd hm hunits
  rw [roundUnits, Nat.mul_div_cancel _ hden]
  generalize lastBit units = b at hq
  have hnum : units * den = q * (den <<< b) := by
    rw [hq, Nat.shiftLeft_eq]
    ring
  have hpos : 0 < den <<< b := by
    rw [Nat.shiftLeft_eq]
    exact Nat.mul_pos hden (Nat.two_pow_pos b)
  rw [hnum, roundDiv_mul_right q hpos, hq, Nat.shiftLeft_eq, Nat.mul_comm]

/-- A finite number is the rounding of its magnitude. -/
theorem round_mul {units den : Nat} (negative : Bool) (h : Representable units)
    (hden : 0 < den) : round negative (units * den) den = .finite negative units h := by
  obtain ⟨hlimit, m, e, hm, hunits⟩ := h
  have hround := roundUnits_mul hm hunits hden
  rw [round]
  split
  · congr 1
  · next hround' => exact absurd (hround.symm ▸ hlimit) hround'

/-! ## Finite numbers as decimals -/

/-- A power of five has more binary digits than its exponent. -/
theorem le_log2_mul_pow {units : Nat} (h : units ≠ 0) (places : Nat) :
    places ≤ (units * 5 ^ places).log2 := by
  refine (Nat.le_log2 (Nat.mul_ne_zero h (Nat.pow_pos (by decide)).ne')).mpr ?_
  calc 2 ^ places ≤ 5 ^ places := Nat.pow_le_pow_left (by decide) places
    _ ≤ units * 5 ^ places := Nat.le_mul_of_pos_left _ (Nat.pos_of_ne_zero h)

/-- **A finite number is a decimal fraction** with as many places as a unit has binary
ones. -/
theorem ofDecimal_places {units places : Nat} (h : Representable units)
    (hplaces : unitsPerOne = 2 ^ (places + 1)) :
    ofDecimal false ⟨units * 5 ^ (places + 1), Int.negSucc places⟩ = .finite false units h := by
  rw [ofDecimal]
  split
  · next hzero =>
    have hunits : units = 0 := by
      simpa using hzero
    subst hunits
    rfl
  · next hzero =>
    have hunits : units ≠ 0 := by
      rintro rfl
      exact hzero (Nat.zero_mul _)
    -- the coefficient makes up for the exponent, so neither clamp applies
    have hlog := le_log2_mul_pow hunits (places + 1)
    rw [if_neg (by simp only; omega), if_neg (by simp only; omega)]
    have hnum : units * 5 ^ (places + 1) * unitsPerOne = units * Nat.pow 10 (places + 1) := by
      -- powers of five and of two make powers of ten
      rw [hplaces, Nat.mul_assoc, ← Nat.mul_pow]
      rfl
    simp only [hnum]
    exact round_mul false h (Nat.pow_pos (by decide))

theorem unitsLimit_pos : 0 < unitsLimit := by
  rw [unitsLimit]
  generalize 2098 = bits
  rw [Nat.one_shiftLeft]
  exact Nat.two_pow_pos bits

/-- The first magnitude beyond the finite doubles rounds to infinity. -/
theorem round_unitsLimit (negative : Bool) : round negative unitsLimit 1 = .infinite negative := by
  have hround : roundUnits (unitsLimit * 1) 1 = unitsLimit :=
    roundUnits_mul (m := 1) (by decide) unitsLimit.eq_1 Nat.one_pos
  rw [Nat.mul_one] at hround
  rw [round, dif_neg]
  rw [hround]
  exact Nat.lt_irrefl _

/-- **Infinity is the reading of a whole number**, the first beyond the finite ones. -/
theorem ofDecimal_infinite {whole : Nat} (h : unitsLimit = whole * unitsPerOne) :
    ofDecimal false ⟨whole, 0⟩ = .infinite false := by
  have hwhole : whole ≠ 0 := by
    rintro rfl
    have hpos := unitsLimit_pos
    rw [h, Nat.zero_mul] at hpos
    exact Nat.lt_irrefl _ hpos
  rw [ofDecimal, if_neg hwhole, if_neg (by simp only; omega), if_neg (by simp only; omega)]
  change round false (whole * 1 * unitsPerOne) 1 = _
  rw [Nat.mul_one, ← h]
  exact round_unitsLimit false

/-- The units in one are a power of two. -/
theorem exists_unitsPerOne : ∃ places, unitsPerOne = 2 ^ (places + 1) := by
  obtain ⟨places, hplaces⟩ : ∃ places, 1074 = places + 1 := ⟨1073, rfl⟩
  rw [unitsPerOne, hplaces, Nat.one_shiftLeft]
  exact ⟨places, rfl⟩

/-- The first magnitude beyond the finite doubles is whole. -/
theorem exists_unitsLimit : ∃ whole, unitsLimit = whole * unitsPerOne := by
  have hadd (a b : Nat) : 1 <<< (a + b) = (1 <<< a) * (1 <<< b) := by
    rw [Nat.one_shiftLeft, Nat.one_shiftLeft, Nat.one_shiftLeft, Nat.pow_add]
  exact ⟨1 <<< 1024, hadd 1024 1074⟩

end Double

/-! ## Digits and points -/

namespace Decimal

variable {whole fraction rest : List Char}

/-- Digits are read as a whole number, with a power of ten behind them or none. -/
theorem read?_digits (hne : whole ≠ []) (hrun : IsRun Char.isDigit whole rest)
    (hpoint : rest.head? ≠ some '.') :
    read? (whole ++ rest) = (readExponent? rest).map fun exponent =>
      ⟨Nat.ofDigitChars 10 whole 0, exponent⟩ := by
  have hsplit : splitFraction rest = ([], rest) := by
    cases rest with
    | nil => rfl
    | cons c rest =>
      unfold splitFraction
      split
      · next heq =>
        cases heq
        exact absurd rfl hpoint
      · rfl
  simp [read?, hrun.takeWhile_append, hrun.dropWhile_append, hsplit, hne]

/-- Digits behind a point count as places. -/
theorem read?_point (hne : whole ≠ [] ∨ fraction ≠ []) (hwhole : ∀ c ∈ whole, c.isDigit = true)
    (hrun : IsRun Char.isDigit fraction rest) :
    read? (whole ++ '.' :: (fraction ++ rest)) = (readExponent? rest).map fun exponent =>
      ⟨Nat.ofDigitChars 10 (whole ++ fraction) 0, exponent - fraction.length⟩ := by
  have hwholeRun : IsRun Char.isDigit whole ('.' :: (fraction ++ rest)) := by
    refine ⟨hwhole, ?_⟩
    rintro c ⟨⟩
    rfl
  rw [read?, hwholeRun.takeWhile_append, hwholeRun.dropWhile_append]
  simp only [splitFraction, hrun.takeWhile_append, hrun.dropWhile_append]
  rw [if_neg (by tauto)]

/-- The end of a text ends every run. -/
theorem isRun_nil (h : ∀ c ∈ whole, c.isDigit = true) : IsRun Char.isDigit whole [] :=
  ⟨h, nofun⟩

/-- Any number of digits stands for a number. -/
theorem exists_digits (n : Nat) : ∃ digits : List Char, digits ≠ [] ∧
    (∀ c ∈ digits, c.isDigit = true) ∧ Nat.ofDigitChars 10 digits 0 = n :=
  ⟨Nat.toDigits 10 n, Nat.toDigits_ne_nil,
    fun _ hc => Nat.isDigit_of_mem_toDigits (by decide) (by decide) hc,
    Nat.ofDigitChars_toDigits (by decide) (by decide)⟩

/-- A number can be written with digits on both sides of a point, at any place. -/
theorem exists_point (n places : Nat) : ∃ whole fraction : List Char, whole ≠ [] ∧
    (∀ c ∈ whole, c.isDigit = true) ∧ (∀ c ∈ fraction, c.isDigit = true) ∧
    fraction.length = places ∧ Nat.ofDigitChars 10 (whole ++ fraction) 0 = n := by
  obtain ⟨digits, hne, hdigits, hn⟩ := exists_digits n
  -- zeros in front make room for the point
  let padded := List.replicate places '0' ++ digits
  have hpadded : ∀ c ∈ padded, c.isDigit = true := by
    intro c hc
    rcases List.mem_append.mp hc with hc | hc
    · rw [List.eq_of_mem_replicate hc]
      rfl
    · exact hdigits c hc
  have hlength : padded.length = places + digits.length := by simp [padded]
  have hpos : 0 < digits.length := List.length_pos_iff.mpr hne
  refine ⟨padded.take digits.length, padded.drop digits.length, ?_, ?_, ?_, ?_, ?_⟩
  · rw [← List.length_pos_iff, List.length_take]
    omega
  · exact fun c hc => hpadded c (List.mem_of_mem_take hc)
  · exact fun c hc => hpadded c (List.mem_of_mem_drop hc)
  · rw [List.length_drop]
    omega
  · rw [List.take_append_drop, Nat.ofDigitChars_append, Nat.ofDigitChars_replicate_zero,
      Nat.mul_zero]
    exact hn

end Decimal

/-! ## Numerals -/

namespace Double

/-- A number without a sign, of any size: *not a number* is none. -/
def IsUnsigned : Double → Prop
  | nan => False
  | infinite negative => negative = false
  | finite negative _ _ => negative = false

/-- What is read without a sign has none. -/
theorem isUnsigned_ofDecimal (d : Decimal) : (ofDecimal false d).IsUnsigned := by
  have hround (num den : Nat) : (round false num den).IsUnsigned := by
    rw [round]
    split <;> rfl
  rw [ofDecimal.eq_def]
  split
  · rfl
  split
  · rfl
  split
  · rfl
  split
  · exact hround _ _
  · exact hround _ _

/-- **Every number without a sign has a numeral** of digits and possibly a point, which
starts with a digit. -/
theorem exists_numeral {n : Double} (h : n.IsUnsigned) : ∃ c more d, c.isDigit = true ∧
    (∀ x ∈ c :: more, x.isDigit = true ∨ x = '.') ∧ Decimal.read? (c :: more) = some d ∧
    ofDecimal false d = n := by
  cases n with
  | nan => cases h
  | infinite negative =>
    cases h
    obtain ⟨whole, hwhole⟩ := exists_unitsLimit
    obtain ⟨digits, hne, hdigits, hread⟩ := Decimal.exists_digits whole
    obtain ⟨c, more, rfl⟩ := List.exists_cons_of_ne_nil hne
    refine ⟨c, more, ⟨whole, 0⟩, hdigits c List.mem_cons_self, fun x hx => .inl (hdigits x hx), ?_,
      ofDecimal_infinite hwhole⟩
    have hnumeral := Decimal.read?_digits hne (Decimal.isRun_nil hdigits) nofun
    rwa [List.append_nil, hread] at hnumeral
  | finite negative units hunits =>
    cases h
    obtain ⟨places, hplaces⟩ := exists_unitsPerOne
    obtain ⟨whole, fraction, hne, hwhole, hfraction, hlength, hread⟩ :=
      Decimal.exists_point (units * 5 ^ (places + 1)) (places + 1)
    obtain ⟨c, more, rfl⟩ := List.exists_cons_of_ne_nil hne
    refine ⟨c, more ++ '.' :: fraction, ⟨units * 5 ^ (places + 1), Int.negSucc places⟩,
      hwhole c List.mem_cons_self, fun x hx => ?_, ?_, ofDecimal_places hunits hplaces⟩
    · rw [← List.cons_append] at hx
      rcases List.mem_append.mp hx with hx | hx
      · exact .inl (hwhole x hx)
      rcases List.mem_cons.mp hx with rfl | hx
      · exact .inr rfl
      · exact .inl (hfraction x hx)
    · have hnumeral := Decimal.read?_point (.inl hne) hwhole (Decimal.isRun_nil hfraction)
      rw [List.append_nil, hread, hlength] at hnumeral
      exact hnumeral

end Double

end ScreenedExpr
