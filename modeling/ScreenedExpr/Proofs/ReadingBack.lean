import ScreenedExpr.Proofs.NumberText
import ScreenedExpr.Proofs.NumericText

/-!
# The text of a number is read back

A number is written as its shortest decimal, which reads back, and it is set in one of two ways.
Both are read as the decimal that was set, or as one of the same value: the point is taken away
again, and so is the exponent. So the text of a number is coerced to the number itself, the sign
of a zero apart; and as the text leaves nothing else out, numbers have the same text exactly if
they are equal.

* `Decimal.read?_positionalText`, `read?_exponentText` — digits in either notation;
* `Decimal.read?_set` — a decimal in a layout;
* `Decimal.read?_set_shortest` — the shortest decimal of a magnitude in a layout;
* `Value.textNumber_numberText` — the text of a number;
* `Value.numberText_roundTrip` — the laws that follow.
-/

namespace ScreenedExpr

namespace Decimal

variable {digits : List Char}

/-! ## Either notation -/

theorem readUnsigned?_toDigits {n : Nat} (h : n < exponentCap) :
    readUnsigned? (Nat.toDigits 10 n) = some n := by
  have hdigits : Nat.toDigits 10 n ≠ [] ∧ (Nat.toDigits 10 n).all Char.isDigit = true :=
    ⟨Nat.toDigits_ne_nil, List.all_eq_true.mpr fun _ hc => isDigit_of_mem_toDigits hc⟩
  have hvalue : Nat.ofDigitChars 10 (Nat.toDigits 10 n) 0 = n :=
    Nat.ofDigitChars_toDigits (by decide) (by decide)
  rw [readUnsigned?, if_pos hdigits, appendExponent_eq (by rwa [hvalue]), hvalue]

/-- An exponent that is written is read. -/
theorem readExponent?_toDigits {exponent : Int} (h : exponent.natAbs < exponentCap) :
    readExponent? ('e' :: (if exponent < 0 then '-' else '+') :: Nat.toDigits 10 exponent.natAbs) =
      some exponent := by
  have hdigits := readUnsigned?_toDigits h
  by_cases hsign : exponent < 0
  · rw [if_pos hsign, readExponent?, readSigned?_minus, hdigits, Option.map_some,
      Option.some.injEq, Int.ofNat_eq_natCast]
    omega
  · rw [if_neg hsign, readExponent?, readSigned?, hdigits, Option.map_some, Option.some.injEq,
      Int.ofNat_eq_natCast]
    omega

/-- **Digits with the exponent of the first one** are read with the exponent of the last one. -/
theorem read?_exponentText (hne : digits ≠ []) (hdigits : ∀ c ∈ digits, c.isDigit = true)
    {exponent : Int} (h : exponent.natAbs < exponentCap) :
    read? (exponentText digits exponent) =
      some ⟨Nat.ofDigitChars 10 digits 0, exponent + 1 - digits.length⟩ := by
  have hexponent := readExponent?_toDigits h
  rw [exponentText]
  generalize (if exponent < 0 then '-' else '+') :: Nat.toDigits 10 exponent.natAbs = power
    at hexponent ⊢
  have hrun {run : List Char} (h : ∀ c ∈ run, c.isDigit = true) :
      IsRun Char.isDigit run ('e' :: power) := by
    refine ⟨h, ?_⟩
    rintro c ⟨⟩
    rfl
  obtain ⟨c, more, rfl⟩ := List.exists_cons_of_ne_nil hne
  obtain ⟨hc, hmore⟩ := List.forall_mem_cons.mp hdigits
  cases more with
  | nil =>
    have hread := read?_digits (List.cons_ne_nil c []) (hrun hdigits) (by simp)
    rw [hexponent, Option.map_some] at hread
    refine hread.trans ?_
    rw [Option.some.injEq, Decimal.mk.injEq, List.length_singleton]
    exact ⟨rfl, by omega⟩
  | cons d more =>
    have hread := read?_point (.inl (List.cons_ne_nil c [])) (List.forall_mem_singleton.mpr hc)
      (hrun hmore)
    rw [hexponent, Option.map_some] at hread
    have htext : [c] ++ '.' :: (d :: more ++ 'e' :: power) =
        (c :: d :: more).take 1 ++ afterPoint ((c :: d :: more).drop 1) ++ 'e' :: power := by
      simp [afterPoint]
    rw [← htext, hread, Option.some.injEq, Decimal.mk.injEq]
    refine ⟨rfl, ?_⟩
    simp only [List.length_cons]
    omega

/-- **Digits in positional notation** are read with the zeros that fill them up to the point. -/
theorem read?_positionalText (hne : digits ≠ []) (hdigits : ∀ c ∈ digits, c.isDigit = true)
    (point : Int) : read? (positionalText false digits point) =
      some ⟨Nat.ofDigitChars 10 digits 0 * 10 ^ (point - digits.length).toNat,
        min (point - digits.length) 0⟩ := by
  have hpos := List.length_pos_iff.mpr hne
  have hzeros (count : Nat) : ∀ c ∈ List.replicate count '0', c.isDigit = true := by
    intro c hc
    rw [List.eq_of_mem_replicate hc]
    rfl
  rw [positionalText]
  split
  · next hpoint =>
    have hfraction := List.forall_mem_append.mpr ⟨hzeros (-point).toNat, hdigits⟩
    have hread := read?_point (.inl (List.cons_ne_nil '0' [])) (hzeros 1) (isRun_nil hfraction)
    rw [List.append_nil] at hread
    refine hread.trans ?_
    rw [readExponent?, Option.map_some, Option.some.injEq, Decimal.mk.injEq]
    have hnone : (point - digits.length).toNat = 0 := by omega
    refine ⟨?_, ?_⟩
    · rw [Nat.ofDigitChars_append, Nat.ofDigitChars_append,
        Nat.ofDigitChars_replicate_zero, hnone, Nat.pow_zero, Nat.mul_one]
      rfl
    · rw [List.length_append, List.length_replicate]
      omega
  next hpoint =>
  split
  · next hle =>
    have hwhole : digits ++ List.replicate (point.toNat - digits.length) '0' ≠ [] :=
      List.append_ne_nil_of_left_ne_nil hne _
    have hall := List.forall_mem_append.mpr ⟨hdigits, hzeros (point.toNat - digits.length)⟩
    have hread := read?_digits hwhole (isRun_nil hall) (by simp)
    have hcount : point.toNat - digits.length = (point - digits.length).toNat := by omega
    rw [if_neg Bool.false_ne_true]
    rw [readExponent?, Option.map_some] at hread
    refine hread.trans ?_
    rw [Option.some.injEq, Decimal.mk.injEq, Nat.ofDigitChars_append,
      Nat.ofDigitChars_replicate_zero, hcount, Nat.mul_comm]
    exact ⟨rfl, by omega⟩
  · next hlt =>
    have htake : digits.take point.toNat ≠ [] := by
      rw [← List.length_pos_iff, List.length_take]
      omega
    have hdrop : ∀ c ∈ digits.drop point.toNat, c.isDigit = true :=
      fun c hc => hdigits c (List.mem_of_mem_drop hc)
    have hread := read?_point (.inl htake) (fun c hc => hdigits c (List.mem_of_mem_take hc))
      (isRun_nil hdrop)
    have hnone : (point - digits.length).toNat = 0 := by omega
    rw [List.append_nil, readExponent?, Option.map_some, List.take_append_drop] at hread
    refine hread.trans ?_
    rw [Option.some.injEq, Decimal.mk.injEq, hnone, Nat.pow_zero, Nat.mul_one, List.length_drop]
    exact ⟨rfl, by omega⟩

/-! ## Decimals in a layout -/

/-- A whole decimal reads the same with its zeros written out. -/
theorem ofDecimal_writtenOut {d : Decimal} (h : d.exponent ≤ 400) :
    Double.ofDecimal false ⟨d.coefficient * 10 ^ d.exponent.toNat, min d.exponent 0⟩ =
      Double.ofDecimal false d := by
  obtain ⟨coefficient, exponent⟩ := d
  dsimp only at h ⊢
  rcases Int.le_total exponent 0 with hle | hle
  · rw [Int.toNat_of_nonpos hle, Nat.pow_zero, Nat.mul_one, Int.min_eq_left hle]
  · obtain ⟨zeros, rfl⟩ := Int.eq_ofNat_of_zero_le hle
    have hzeros : zeros ≤ 400 := by omega
    rw [Int.min_eq_right hle, Int.toNat_natCast, Double.ofDecimal_whole coefficient hzeros]
    have hread := Double.ofDecimal_whole (coefficient * 10 ^ zeros) (Nat.zero_le 400)
    rwa [Nat.pow_zero, Nat.mul_one] at hread

/-- **A decimal in a layout** without superfluous points is read as one of the same value. -/
theorem read?_set {layout : Layout} (hpointZero : layout.pointZero = false) {d : Decimal}
    (hleast : -1074 ≤ d.exponent) (hgreatest : d.exponent ≤ 310)
    (hlength : (Nat.toDigits 10 d.coefficient).length ≤ 3173) :
    ∃ d', read? (layout.set d) = some d' ∧ Double.ofDecimal false d' = Double.ofDecimal false d := by
  have hdigits : ∀ c ∈ Nat.toDigits 10 d.coefficient, c.isDigit = true :=
    fun _ hc => isDigit_of_mem_toDigits hc
  have hvalue : Nat.ofDigitChars 10 (Nat.toDigits 10 d.coefficient) 0 = d.coefficient :=
    Nat.ofDigitChars_toDigits (by decide) (by decide)
  have hlast (length : Int) : d.exponent + length - 1 + 1 - length = d.exponent := by omega
  rw [Layout.set, hpointZero]
  split
  · refine ⟨_, read?_positionalText Nat.toDigits_ne_nil hdigits _, ?_⟩
    rw [hvalue, hlast]
    exact ofDecimal_writtenOut (by omega)
  · have hexponent : (d.exponent + (Nat.toDigits 10 d.coefficient).length - 1).natAbs <
        exponentCap := by
      rw [exponentCap]
      omega
    refine ⟨_, read?_exponentText Nat.toDigits_ne_nil hdigits hexponent, ?_⟩
    rw [hvalue, hlast]

/-- **The shortest decimal of a magnitude in a layout** is read as the magnitude. -/
theorem read?_set_shortest {layout : Layout} (hpointZero : layout.pointZero = false) (tie : Tie)
    {units : Nat} (h : Double.Representable units) :
    ∃ d, read? (layout.set (shortest tie units)) = some d ∧
      Double.ofDecimal false d = .finite false units h := by
  obtain ⟨hleast, hgreatest, hlength⟩ := shortest_bounds tie h
  obtain ⟨d, hread, hd⟩ := read?_set hpointZero hleast hgreatest hlength
  exact ⟨d, hread, hd.trans (ofDecimal_shortest tie h)⟩

end Decimal

/-! ## Signs -/

namespace Double

theorem round_true (num den : Nat) : round true num den = (round false num den).neg := by
  rw [round, round]
  split
  · rfl
  · rfl

/-- A minus sign in front changes the sign of what is read. -/
theorem ofDecimal_true (d : Decimal) : ofDecimal true d = (ofDecimal false d).neg := by
  rw [ofDecimal.eq_def, ofDecimal.eq_def]
  split
  · rfl
  split
  · rfl
  split
  · rfl
  split
  · exact round_true _ _
  · exact round_true _ _

theorem ofDecimal_of_magnitude {d : Decimal} {units : Nat} {h : Representable units}
    (hd : ofDecimal false d = finite false units h) (negative : Bool) :
    ofDecimal negative d = finite negative units h := by
  cases negative with
  | false => exact hd
  | true =>
    rw [ofDecimal_true, hd]
    rfl

/-- A decimal is read behind a minus sign or none. -/
theorem read?_of_isDecimal {text : List Char} (h : IsDecimal text) (negative : Bool) :
    read? ((if negative then ['-'] else []) ++ text) =
      (Decimal.read? text).map (ofDecimal negative) := by
  cases negative with
  | true => rfl
  | false =>
    obtain ⟨c, more, rfl, hc⟩ := h.exists_cons
    rw [if_neg Bool.false_ne_true, List.nil_append, read?.eq_def]
    split
    · next heq => cases heq; exact absurd hc (by decide)
    · next heq => cases heq; exact absurd hc (by decide)
    · rfl

end Double

/-! ## What a text has to pass -/

/-- A decimal has no blank characters. -/
theorem IsDecimal.isVisible {text : List Char} (h : IsDecimal text) : ∀ c ∈ text, IsVisible c := by
  have hdigits {digits : List Char} (h : ∀ c ∈ digits, c.isDigit = true) :
      ∀ c ∈ digits, IsVisible c :=
    fun c hc => isVisible_of_isNumberPart (by rw [isNumberPart, h c hc, Bool.true_or])
  have hpoint : IsVisible '.' := isVisible_of_isNumberPart rfl
  obtain ⟨hmantissa, hexponent⟩ := h
  refine List.forall_mem_append.mpr ⟨?_, ?_⟩
  · cases hmantissa with
    | whole h => exact hdigits h.2
    | point h hmore =>
      exact List.forall_mem_append.mpr
        ⟨hdigits h.2, List.forall_mem_cons.mpr ⟨hpoint, hdigits hmore⟩⟩
    | fraction h => exact List.forall_mem_cons.mpr ⟨hpoint, hdigits h.2⟩
  · cases hexponent with
    | none => exact List.forall_mem_nil _
    | power he h =>
      refine List.forall_mem_cons.mpr ⟨?_, ?_⟩
      · obtain rfl | rfl := he <;> exact isVisible_of_isNamePart rfl
      · cases h with
        | unsigned h => exact hdigits h.2
        | plus h => exact List.forall_mem_cons.mpr ⟨⟨by decide, by decide⟩, hdigits h.2⟩
        | minus h => exact List.forall_mem_cons.mpr ⟨⟨by decide, by decide⟩, hdigits h.2⟩

namespace Value

/-- A text without blank characters has none at its ends. -/
theorem trim_of_isVisible {text : List Char} (h : ∀ c ∈ text, IsVisible c) :
    Text.trim text = text := by
  have hdrop {text : List Char} (h : ∀ c ∈ text, IsVisible c) :
      text.dropWhile Text.isBlank = text := by
    rw [List.dropWhile_eq_self_iff]
    intro hpos hblank
    rw [(h _ (List.getElem_mem hpos)).isBlank_eq_false] at hblank
    cases hblank
  rw [Text.trim, hdrop h, hdrop fun c hc => h c (List.mem_reverse.mp hc), List.reverse_reverse]

/-- **A decimal with a sign or none** is no other numeric text, and is read as a decimal. -/
theorem trimmedNumber_of_isSigned {text : List Char} (h : IsSigned IsDecimal text) :
    trimmedNumber text = (Double.read? text).getD .nan := by
  have hread := Double.read?_ne_none_iff.mpr h
  rw [trimmedNumber.eq_def]
  split
  · next hnil =>
    subst hnil
    exact absurd rfl hread
  split
  · next hinfinity =>
    obtain rfl | rfl := hinfinity
    · exact absurd rfl hread
    · exact absurd rfl hread
  split
  · next hinfinity =>
    subst hinfinity
    exact absurd rfl hread
  split
  · exact absurd h (IsRadixMark.not_isDecimal (.hexadecimal (.inl rfl)) _)
  · exact absurd h (IsRadixMark.not_isDecimal (.hexadecimal (.inr rfl)) _)
  · exact absurd h (IsRadixMark.not_isDecimal (.octal (.inl rfl)) _)
  · exact absurd h (IsRadixMark.not_isDecimal (.octal (.inr rfl)) _)
  · exact absurd h (IsRadixMark.not_isDecimal (.binary (.inl rfl)) _)
  · exact absurd h (IsRadixMark.not_isDecimal (.binary (.inr rfl)) _)
  · rfl

/-- **A decimal behind a minus sign or none** passes every filter, and is coerced to its value. -/
theorem textNumber_signed {text : List Char} {d : Decimal} (h : Decimal.read? text = some d)
    (negative : Bool) :
    textNumber (String.ofList ((if negative then ['-'] else []) ++ text)) =
      .ofDecimal negative d := by
  have hdecimal : IsDecimal text := Decimal.read?_ne_none_iff.mp (h ▸ Option.some_ne_none d)
  have hsigned : IsSigned IsDecimal ((if negative then ['-'] else []) ++ text) := by
    cases negative with
    | false => exact .unsigned hdecimal
    | true => exact .minus hdecimal
  have hvisible : ∀ c ∈ (if negative then ['-'] else []) ++ text, IsVisible c := by
    refine List.forall_mem_append.mpr ⟨?_, hdecimal.isVisible⟩
    cases negative with
    | false => exact List.forall_mem_nil _
    | true => exact List.forall_mem_singleton.mpr ⟨by decide, by decide⟩
  rw [textNumber, String.toList_ofList, trim_of_isVisible hvisible,
    trimmedNumber_of_isSigned hsigned, Double.read?_of_isDecimal hdecimal, h, Option.map_some,
    Option.getD_some]

/-- **The text of a number is coerced to the number**, or to positive zero. -/
theorem textNumber_numberText (n : Double) :
    textNumber (numberText n) = if n.isZero then .zero false else n := by
  cases n with
  | nan => decide +kernel
  | infinite negative => revert negative; decide +kernel
  | finite negative units h =>
    by_cases hunits : units = 0
    · subst hunits
      have hzero : textNumber "0" = .zero false := by decide +kernel
      exact hzero
    have hnonzero : ¬(Double.finite negative units h).isZero = true :=
      fun hzero => hunits (beq_iff_eq.mp hzero)
    have hpointZero : numberLayout.pointZero = false := rfl
    obtain ⟨d, hread, hd⟩ := Decimal.read?_set_shortest hpointZero numberLayout.tie h
    rw [if_neg hnonzero, numberText, if_neg hunits, Decimal.Layout.text, textNumber_signed hread,
      Double.ofDecimal_of_magnitude hd]

/-! ## The laws -/

/-- The text of a number has a number equal to it. -/
theorem eq_textNumber {n : Double} (h : n ≠ .nan) : (textNumber (numberText n)).eq n = true := by
  rw [textNumber_numberText]
  split
  · next hzero =>
    cases n with
    | finite negative units =>
      obtain rfl : units = 0 := beq_iff_eq.mp hzero
      cases negative <;> rfl
    | _ => cases hzero
  · exact Double.eq_self_iff.mpr h

/-- **Numbers have the same text** exactly if they are equal. -/
theorem numberText_inj {m n : Double} (hm : m ≠ .nan) (hn : n ≠ .nan) :
    numberText m = numberText n ↔ m.eq n = true := by
  refine ⟨?_, numberText_eq_of_eq⟩
  intro htext
  have hfirst : m.eq (textNumber (numberText m)) = true := by
    rw [Double.eq_comm]
    exact eq_textNumber hm
  exact Double.eq_trans hfirst (htext ▸ eq_textNumber hn)

/-- **The text of a number stands for it.** It is coerced to the number, up to the sign of a zero,
so only equal numbers have the same text. And a number equals its text after coercion, and an
array of which it is the only item. -/
theorem numberText_roundTrip (m n : Double) (hm : m ≠ .nan) (hn : n ≠ .nan) :
    textNumber (numberText n) = (if n.isZero then .zero false else n) ∧
      (textNumber (numberText n)).eq n = true ∧
      (numberText m = numberText n ↔ m.eq n = true) ∧
      (number n).looseEq (string (numberText n)) = true ∧
      (array [number n]).looseEq (number n) = true := by
  have hread := eq_textNumber hn
  refine ⟨textNumber_numberText n, hread, numberText_inj hm hn, ?_, ?_⟩
  · have hnumber : (string (numberText n)).toNumber = textNumber (numberText n) := rfl
    rw [looseEq_of_not_isTextual rfl rfl rfl, toNumber_number, hnumber, Double.eq_comm]
    exact hread
  · have htext : (array [number n]).toText = numberText n := by
      rw [toText, itemTexts_eq_map]
      exact String.intercalate_singleton
    rw [looseEq_of_not_isTextual rfl rfl rfl, toNumber_number, toNumber_eq_textNumber rfl, htext]
    exact hread

/-- The smallest number above zero, with a minus sign, and the largest one. -/
theorem numberText_roundTrip_extremes :
    let m := Double.ofDecimal true ⟨5, -324⟩
    let n := Double.ofDecimal false ⟨17976931348623157, 292⟩
    m ≠ .nan ∧ n ≠ .nan ∧ numberText m = "-5e-324" ∧ textNumber "-5e-324" = m ∧
      numberText n = "1.7976931348623157e+308" ∧ textNumber "1.7976931348623157e+308" = n ∧
      m.eq n = false := by
  intro m n
  have hm : m ≠ .nan := Double.ofDecimal_ne_nan _ _
  have hn : n ≠ .nan := Double.ofDecimal_ne_nan _ _
  have hmtext : numberText m = "-5e-324" := by decide +kernel
  have hntext : numberText n = "1.7976931348623157e+308" := by decide +kernel
  have hmzero : m.isZero = false := by decide +kernel
  have hnzero : n.isZero = false := by decide +kernel
  obtain ⟨hmread, -⟩ := numberText_roundTrip m m hm hm
  obtain ⟨hnread, -, hinj, -⟩ := numberText_roundTrip m n hm hn
  rw [hmtext, hmzero, if_neg Bool.false_ne_true] at hmread
  rw [hntext, hnzero, if_neg Bool.false_ne_true] at hnread
  refine ⟨hm, hn, hmtext, hmread, hntext, hnread, ?_⟩
  rw [← Bool.not_eq_true, ← hinj, hmtext, hntext]
  decide

end Value

end ScreenedExpr
