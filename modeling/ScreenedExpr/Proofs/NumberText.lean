import ScreenedExpr.Proofs.Shortest
import ScreenedExpr.Proofs.StrictEquality

/-!
# The text of a whole number

The text of a number is its shortest decimal, set in a layout. Digits alone come out exactly for
whole decimals in positional notation; and since the shortest decimal reads back, they come out
for a number below `2 ^ 53` exactly if they are the digits of that number.

* `Decimal.Layout.set_whole` — a whole decimal is set as the digits of its value;
* `Decimal.Layout.exists_whole_of_set` — nothing else is set as digits alone;
* `Value.numberText_ofNat` — the text of a whole number;
* `Value.numberText_eq_iff` — the numbers with that text.
-/

namespace ScreenedExpr

namespace Decimal

/-! ## Digits -/

/-- A power of ten puts zeros behind the digits. -/
theorem toDigits_mul_pow {n : Nat} (h : 0 < n) (k : Nat) :
    Nat.toDigits 10 (n * 10 ^ k) = Nat.toDigits 10 n ++ List.replicate k '0' := by
  induction k with
  | zero => simp
  | succ k ih =>
    have hpos : 0 < n * 10 ^ k := Nat.mul_pos h (Nat.pow_pos (by decide))
    have hzero : Nat.toDigits 10 0 = ['0'] := rfl
    calc Nat.toDigits 10 (n * 10 ^ (k + 1))
        = Nat.toDigits 10 (10 * (n * 10 ^ k) + 0) := by congr 1; ring
      _ = Nat.toDigits 10 (n * 10 ^ k) ++ Nat.toDigits 10 0 :=
        (Nat.toDigits_append_toDigits (by decide) hpos (by decide)).symm
      _ = Nat.toDigits 10 n ++ List.replicate (k + 1) '0' := by
        rw [ih, hzero, List.append_assoc, List.replicate_succ']

/-- Digits with zeros behind them are the digits of one number. -/
theorem eq_of_toDigits_append {m n k : Nat}
    (h : Nat.toDigits 10 m ++ List.replicate k '0' = Nat.toDigits 10 n) : m * 10 ^ k = n := by
  have hvalue := congrArg (fun digits => Nat.ofDigitChars 10 digits 0) h
  rwa [Nat.ofDigitChars_append, Nat.ofDigitChars_replicate_zero,
    Nat.ofDigitChars_toDigits (by decide) (by decide),
    Nat.ofDigitChars_toDigits (by decide) (by decide), Nat.mul_comm] at hvalue

theorem isDigit_of_mem_toDigits {n : Nat} {c : Char} (h : c ∈ Nat.toDigits 10 n) :
    c.isDigit = true :=
  Nat.isDigit_of_mem_toDigits (by decide) (by decide) h

/-! ## Setting digits -/

/-- With the point behind them all, digits are followed by zeros. -/
theorem positionalText_whole {digits : List Char} (h : digits ≠ []) (zeros : Nat) :
    positionalText false digits (digits.length + zeros) =
      digits ++ List.replicate zeros '0' := by
  have hlength := List.length_pos_iff.mpr h
  have hzeros : ((digits.length : Int) + zeros).toNat - digits.length = zeros := by omega
  rw [positionalText, if_neg (by omega), if_pos (by omega), hzeros, if_neg Bool.false_ne_true,
    List.append_nil]

/-- Positional notation without a point is digits and zeros. -/
theorem exists_of_positionalText {pointZero : Bool} {digits : List Char} {point : Int}
    (h : '.' ∉ positionalText pointZero digits point) : ∃ zeros : Nat,
      point = digits.length + zeros ∧
        positionalText pointZero digits point = digits ++ List.replicate zeros '0' := by
  rw [positionalText] at h ⊢
  split at h
  · simp at h
  next hpositive =>
  split at h
  · next hle =>
    split at h
    · simp at h
    · next hzero =>
      refine ⟨point.toNat - digits.length, by omega, ?_⟩
      rw [if_neg hpositive, if_pos hle, if_neg hzero, List.append_nil]
  · simp at h

theorem e_mem_exponentText (digits : List Char) (exponent : Int) :
    'e' ∈ exponentText digits exponent := by
  simp [exponentText]

namespace Layout

variable {layout : Layout}

/-- **A whole decimal in positional notation** is set as the digits of its value. -/
theorem set_whole {coefficient exponent : Nat} (hpointZero : layout.pointZero = false)
    (hpos : 0 < coefficient)
    (hpositional : layout.isPositional
      (exponent + (Nat.toDigits 10 coefficient).length - 1 : Int) = true) :
    layout.set ⟨coefficient, exponent⟩ = Nat.toDigits 10 (coefficient * 10 ^ exponent) := by
  have hpoint : (exponent + (Nat.toDigits 10 coefficient).length - 1 + 1 : Int) =
      (Nat.toDigits 10 coefficient).length + exponent := by omega
  rw [set, if_pos hpositional, hpointZero, hpoint, positionalText_whole Nat.toDigits_ne_nil,
    toDigits_mul_pow hpos]

/-- **Digits alone** are set for whole decimals only. -/
theorem exists_whole_of_set {d : Decimal} (h : ∀ c ∈ layout.set d, c.isDigit = true) :
    ∃ exponent : Nat, d.exponent = exponent ∧
      layout.set d = Nat.toDigits 10 d.coefficient ++ List.replicate exponent '0' := by
  rw [set] at h ⊢
  split at h
  · next hpositional =>
    have hpoint (hmem) : False := Bool.false_ne_true (h '.' hmem)
    obtain ⟨zeros, hzeros, htext⟩ := exists_of_positionalText hpoint
    exact ⟨zeros, by omega, by rw [if_pos hpositional, htext]⟩
  · exact absurd (h 'e' (e_mem_exponentText _ _)) Bool.false_ne_true

/-- What is set begins with a digit. -/
theorem exists_set_cons (layout : Layout) (d : Decimal) :
    ∃ c more, layout.set d = c :: more ∧ c.isDigit = true := by
  obtain ⟨c, more, hdigits⟩ := List.exists_cons_of_ne_nil (@Nat.toDigits_ne_nil d.coefficient 10)
  have hc : c.isDigit = true := isDigit_of_mem_toDigits (hdigits ▸ List.mem_cons_self)
  rw [set, hdigits]
  split
  · rw [positionalText]
    split
    · exact ⟨'0', _, rfl, rfl⟩
    next hpositive =>
    split
    · exact ⟨c, _, rfl, hc⟩
    · have hpoint := Int.pos_iff_toNat_pos.mp (Int.not_le.mp hpositive)
      obtain ⟨point, hpoint⟩ := Nat.exists_eq_succ_of_ne_zero (Nat.ne_of_gt hpoint)
      rw [hpoint]
      exact ⟨c, _, rfl, hc⟩
  · exact ⟨c, _, rfl, hc⟩

end Layout

end Decimal

namespace Double

/-- A whole number below `2 ^ 53` is a double. -/
theorem ofNat_eq {n : Nat} (h : n < 1 <<< 53) :
    ofNat n = .finite false (n * unitsPerOne) (representable_whole h) := round_whole false h

/-- The numbers that are equal to a whole one: those at its place. -/
theorem eq_ofNat_iff {a : Double} {n : Nat} (h : n < 1 <<< 53) :
    a.eq (ofNat n) = true ↔ a.signed = some ((n * unitsPerOne : Nat) : Int) := by
  rw [eq_iff, ofNat_eq h, signed]
  refine ⟨?_, fun ha => ⟨_, ha, rfl⟩⟩
  rintro ⟨x, ha, hx⟩
  exact ha.trans hx.symm

end Double

namespace Value

/-- The text of a number begins with a digit or a minus sign, or is the name of no number or an
infinity. -/
theorem exists_numberText_cons (n : Double) : ∃ c more, (numberText n).toList = c :: more ∧
    (c.isDigit = true ∨ c = '-' ∨ c = 'I' ∨ c = 'N') := by
  cases n with
  | nan => exact ⟨'N', _, rfl, by decide⟩
  | infinite negative =>
    cases negative with
    | false => exact ⟨'I', _, rfl, by decide⟩
    | true => exact ⟨'-', _, rfl, by decide⟩
  | finite negative units hunits =>
    rw [numberText]
    split
    · exact ⟨'0', [], rfl, by decide⟩
    rw [Decimal.Layout.text, String.toList_ofList]
    cases negative with
    | true => exact ⟨'-', _, rfl, by decide⟩
    | false =>
      obtain ⟨c, more, htext, hdigit⟩ := Decimal.Layout.exists_set_cons numberLayout
        (Decimal.shortest numberLayout.tie units)
      exact ⟨c, more, htext, .inl hdigit⟩

/-- **The text of a whole number** below `2 ^ 53`: its digits. -/
theorem numberText_ofNat {n : Nat} (h : n < 1 <<< 53) :
    numberText (.ofNat n) = String.ofList (Nat.toDigits 10 n) := by
  rw [Double.ofNat_eq h, numberText]
  have hunits := Double.unitsPerOne_pos
  split
  · next hzero =>
    obtain rfl : n = 0 := (Nat.mul_eq_zero.mp hzero).resolve_right (Nat.ne_of_gt hunits)
    rfl
  · next hne =>
    have hpos : 0 < n := by
      refine Nat.pos_of_ne_zero ?_
      rintro rfl
      exact hne (Nat.zero_mul _)
    obtain ⟨coefficient, exponent, hshortest, hvalue⟩ :=
      Decimal.exists_shortest_whole numberLayout.tie hpos h
    have hcoefficient : 0 < coefficient := by
      rw [← hvalue] at hpos
      exact Nat.pos_of_mul_pos_right hpos
    have hlength : (Nat.toDigits 10 coefficient).length + exponent ≤ 21 := by
      have hdigits : (Nat.toDigits 10 n).length ≤ 21 :=
        (Nat.length_toDigits_le_iff (by decide) (by decide)).mpr
          (Nat.lt_trans h (by decide))
      rwa [← hvalue, Decimal.toDigits_mul_pow hcoefficient, List.length_append,
        List.length_replicate] at hdigits
    have hpositional : numberLayout.isPositional
        (exponent + (Nat.toDigits 10 coefficient).length - 1 : Int) = true := by
      simp only [Decimal.Layout.isPositional, numberLayout, Bool.and_eq_true, decide_eq_true_eq]
      omega
    rw [Decimal.Layout.text, hshortest, Decimal.Layout.set_whole rfl hcoefficient hpositional,
      hvalue]
    rfl

/-- **Digits alone** are the text of the whole number that they make, and of nothing else that
is below `2 ^ 53`. -/
theorem eq_of_numberText {a : Double} {n : Nat} (h : n < 1 <<< 53)
    (htext : numberText a = String.ofList (Nat.toDigits 10 n)) : a.eq (.ofNat n) = true := by
  have hdigits : ∀ c ∈ (numberText a).toList, c.isDigit = true := by
    rw [htext, String.toList_ofList]
    exact fun c hc => Decimal.isDigit_of_mem_toDigits hc
  rw [Double.eq_ofNat_iff h]
  cases a with
  | nan => exact absurd (hdigits 'N' (by decide)) Bool.false_ne_true
  | infinite negative =>
    cases negative with
    | false => exact absurd (hdigits 'I' (by decide)) Bool.false_ne_true
    | true => exact absurd (hdigits 'I' (by decide)) Bool.false_ne_true
  | finite negative units hunits =>
    rw [numberText] at htext hdigits
    split at htext
    · next hzero =>
      subst hzero
      have hn : n = 0 := by
        have hdigits := (congrArg String.toList htext).trans String.toList_ofList
        rw [← Decimal.eq_of_toDigits_append (m := 0) (k := 0) hdigits, Nat.zero_mul]
      subst hn
      cases negative <;> simp [Double.signed]
    · next hne =>
      rw [if_neg hne] at hdigits
      rw [Decimal.Layout.text] at htext hdigits
      rw [String.toList_ofList] at hdigits
      replace htext := String.ofList_injective htext
      cases negative with
      | true => exact absurd (hdigits '-' (by simp)) Bool.false_ne_true
      | false =>
        obtain ⟨exponent, hexponent, hset⟩ := Decimal.Layout.exists_whole_of_set hdigits
        have hvalue := Decimal.eq_of_toDigits_append (hset.symm.trans htext)
        -- the shortest decimal reads back, as the number and as its digits
        have hwhole := (Double.ofDecimal_whole_eq_iff h).mpr hvalue
        rw [← hexponent, Decimal.ofDecimal_shortest _ hunits] at hwhole
        have hplace : units = n * Double.unitsPerOne := (Double.finite.inj hwhole).2
        rw [Double.signed, hplace]
        rfl

/-- **The numbers with the text of a whole number** below `2 ^ 53` are those equal to it. -/
theorem numberText_eq_iff {a : Double} {n : Nat} (h : n < 1 <<< 53) :
    numberText a = String.ofList (Nat.toDigits 10 n) ↔ a.eq (.ofNat n) = true := by
  refine ⟨eq_of_numberText h, ?_⟩
  intro heq
  rw [numberText_eq_of_eq heq, numberText_ofNat h]

end Value

end ScreenedExpr
