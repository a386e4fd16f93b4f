import Mathlib.Data.List.Forall2
import Mathlib.Data.Nat.Digits.Defs
import ScreenedExpr.Proofs.Numeral
import ScreenedExpr.Value.Coercion

/-!
# The texts that are numbers

A text is coerced to a number, and most texts are none. Which ones are, once the blank ends are
off, is a small language: nothing at all, the infinities, whole numbers behind a radix mark, and
decimals. What may stand behind a radix mark is a parameter here, because the language that is
meant and the one that is read differ there: a plus sign is let through, and a number of more
than 64 bits is not.

* `IsNumeric` — the language;
* `IsRadixDigits`, `IsReadRadix` — what is meant behind a radix mark, and what is read;
* `Double.read?_ne_none_iff`, `Value.radixNumber_ne_nan_iff` — each reader and its part of the
  language;
* `Value.textNumber_ne_nan_iff` — the texts that are numbers.
-/

namespace ScreenedExpr

/-! ## The language -/

/-- A text of a class with a sign in front, or without one. -/
inductive IsSigned (p : List Char → Prop) : List Char → Prop where
  /-- no sign -/
  | unsigned {text : List Char} (h : p text) : IsSigned p text
  /-- `+` -/
  | plus {text : List Char} (h : p text) : IsSigned p ('+' :: text)
  /-- `-` -/
  | minus {text : List Char} (h : p text) : IsSigned p ('-' :: text)

/-- One or more decimal digits. -/
def IsDigits (text : List Char) : Prop := text ≠ [] ∧ ∀ c ∈ text, c.isDigit = true

/-- Digits with a point behind, among or before them, or with none. -/
inductive IsMantissa : List Char → Prop where
  /-- digits alone -/
  | whole {digits : List Char} (h : IsDigits digits) : IsMantissa digits
  /-- digits, a point, and possibly more digits -/
  | point {digits more : List Char} (h : IsDigits digits)
      (hmore : ∀ c ∈ more, c.isDigit = true) : IsMantissa (digits ++ '.' :: more)
  /-- a point and digits -/
  | fraction {digits : List Char} (h : IsDigits digits) : IsMantissa ('.' :: digits)

/-- A power of ten, or none. -/
inductive IsExponent : List Char → Prop where
  /-- none -/
  | none : IsExponent []
  /-- `e` or `E`, possibly a sign, and digits -/
  | power {e : Char} {text : List Char} (he : e = 'e' ∨ e = 'E') (h : IsSigned IsDigits text) :
      IsExponent (e :: text)

/-- A decimal without a sign. -/
inductive IsDecimal : List Char → Prop where
  /-- a mantissa and a power of ten -/
  | mk {mantissa exponent : List Char} (hmantissa : IsMantissa mantissa)
      (hexponent : IsExponent exponent) : IsDecimal (mantissa ++ exponent)

/-- The second character of a radix mark. -/
inductive IsRadixMark : Char → Nat → Prop where
  /-- `0x` or `0X` -/
  | hexadecimal {c : Char} (h : c = 'x' ∨ c = 'X') : IsRadixMark c 16
  /-- `0o` or `0O` -/
  | octal {c : Char} (h : c = 'o' ∨ c = 'O') : IsRadixMark c 8
  /-- `0b` or `0B` -/
  | binary {c : Char} (h : c = 'b' ∨ c = 'B') : IsRadixMark c 2

/-- **The numeric texts**, given what may stand behind a mark of each radix. -/
inductive IsNumeric (behindMark : Nat → List Char → Prop) : List Char → Prop where
  /-- nothing -/
  | empty : IsNumeric behindMark []
  /-- an infinity -/
  | infinity {text : List Char} (h : IsSigned (· = "Infinity".toList) text) :
      IsNumeric behindMark text
  /-- a whole number in another radix -/
  | radix {c : Char} {radix : Nat} {text : List Char} (hmark : IsRadixMark c radix)
      (h : behindMark radix text) : IsNumeric behindMark ('0' :: c :: text)
  /-- a decimal -/
  | decimal {text : List Char} (h : IsSigned IsDecimal text) : IsNumeric behindMark text

/-- Digits in a radix have these values. -/
def HasDigits (radix : Nat) (text : List Char) (values : List Nat) : Prop :=
  List.Forall₂ (fun c digit => Value.digitValue? c = some digit ∧ digit < radix) text values

/-- What is meant behind a radix mark: one or more digits. -/
def IsRadixDigits (radix : Nat) (text : List Char) : Prop :=
  text ≠ [] ∧ ∃ values, HasDigits radix text values

/-- **What is read behind a radix mark**: digits of a number of at most 64 bits, possibly with a
plus sign. -/
def IsReadRadix (radix : Nat) (text : List Char) : Prop :=
  ∃ digits values, (text = digits ∨ text = '+' :: digits) ∧ digits ≠ [] ∧
    HasDigits radix digits values ∧ Nat.ofDigits radix values.reverse < UInt64.size

/-! ## First characters -/

theorem IsDigits.exists_cons {digits : List Char} (h : IsDigits digits) :
    ∃ c more, digits = c :: more ∧ c.isDigit = true := by
  obtain ⟨c, more, rfl⟩ := List.exists_cons_of_ne_nil h.1
  exact ⟨c, more, rfl, h.2 c List.mem_cons_self⟩

theorem IsDecimal.exists_cons {text : List Char} (h : IsDecimal text) :
    ∃ c more, text = c :: more ∧ (c.isDigit = true ∨ c = '.') := by
  obtain ⟨hmantissa, -⟩ := h
  cases hmantissa with
  | whole h | point h =>
    obtain ⟨c, more, rfl, hc⟩ := h.exists_cons
    exact ⟨c, _, rfl, .inl hc⟩
  | fraction => exact ⟨'.', _, rfl, .inr rfl⟩

theorem IsExponent.head? {exponent : List Char} (h : IsExponent exponent) :
    ∀ c ∈ exponent.head?, c.isDigit = false ∧ c ≠ '.' := by
  cases h with
  | none => exact nofun
  | power he =>
    rintro c ⟨⟩
    obtain rfl | rfl := he <;> decide

/-! ## Decimals -/

namespace Decimal

variable {text : List Char}

theorem readUnsigned?_ne_none_iff : readUnsigned? text ≠ none ↔ IsDigits text := by
  have hdigits : IsDigits text ↔ text ≠ [] ∧ text.all Char.isDigit = true :=
    and_congr_right fun _ => List.all_eq_true.symm
  rw [hdigits, readUnsigned?]
  split
  · next h => exact iff_of_true nofun h
  · next h => exact iff_of_false (fun hne => hne rfl) h

theorem readSigned?_minus (text : List Char) :
    readSigned? ('-' :: text) = (readUnsigned? text).map fun n => -Int.ofNat n := by
  rw [readSigned?]
  cases readUnsigned? text <;> rfl

theorem readSigned?_ne_none_iff : readSigned? text ≠ none ↔ IsSigned IsDigits text := by
  have hmap {α : Type} (f : Nat → α) (text : List Char) :
      (readUnsigned? text).map f ≠ none ↔ IsDigits text := by
    rw [Ne, Option.map_eq_none_iff, ← Ne, readUnsigned?_ne_none_iff]
  refine ⟨?_, ?_⟩
  · rw [readSigned?.eq_def]
    split
    · exact fun h => .plus ((hmap _ _).mp h)
    · exact fun h => .minus ((hmap _ _).mp ((readSigned?_minus _).symm.trans_ne h))
    · exact fun h => .unsigned ((hmap _ _).mp h)
  · intro h
    cases h with
    | plus h => exact (hmap _ _).mpr h
    | minus h => exact (readSigned?_minus _).trans_ne ((hmap _ _).mpr h)
    | unsigned h =>
      obtain ⟨c, more, rfl, hc⟩ := h.exists_cons
      rw [readSigned?.eq_def]
      split
      · next heq => cases heq; cases hc
      · next heq => cases heq; cases hc
      · exact (hmap _ _).mpr h

theorem readExponent?_ne_none_iff : readExponent? text ≠ none ↔ IsExponent text := by
  refine ⟨?_, ?_⟩
  · rw [readExponent?.eq_def]
    split
    · exact fun _ => .none
    · exact fun h => .power (.inl rfl) (readSigned?_ne_none_iff.mp h)
    · exact fun h => .power (.inr rfl) (readSigned?_ne_none_iff.mp h)
    · exact fun h => absurd rfl h
  · intro h
    cases h with
    | none => exact nofun
    | power he h =>
      obtain rfl | rfl := he
      · exact readSigned?_ne_none_iff.mpr h
      · exact readSigned?_ne_none_iff.mpr h

/-- **What is read as a decimal** is one. -/
theorem isDecimal_of_read? (h : read? text ≠ none) : IsDecimal text := by
  have hwhole := (isRun_takeWhile Char.isDigit text).1
  have htext : text.takeWhile Char.isDigit ++ text.dropWhile Char.isDigit = text :=
    List.takeWhile_append_dropWhile
  unfold read? at h
  dsimp only at h
  generalize text.takeWhile Char.isDigit = whole at h hwhole htext
  generalize text.dropWhile Char.isDigit = rest at h htext
  subst htext
  unfold splitFraction at h
  split at h
  · next more =>
    have hfraction := (isRun_takeWhile Char.isDigit more).1
    have hmore : more.takeWhile Char.isDigit ++ more.dropWhile Char.isDigit = more :=
      List.takeWhile_append_dropWhile
    dsimp only at h
    generalize more.takeWhile Char.isDigit = fraction at h hfraction hmore
    generalize more.dropWhile Char.isDigit = rest at h hmore
    subst hmore
    split at h
    · exact absurd rfl h
    · next hne =>
      have hexponent : IsExponent rest := by
        rwa [Ne, Option.map_eq_none_iff, ← Ne, readExponent?_ne_none_iff] at h
      by_cases hnil : whole = []
      · subst hnil
        have hdigits : IsDigits fraction := ⟨fun h => hne ⟨rfl, h⟩, hfraction⟩
        have hdecimal := IsDecimal.mk (.fraction hdigits) hexponent
        exact hdecimal
      · have hdecimal := IsDecimal.mk (.point ⟨hnil, hwhole⟩ hfraction) hexponent
        rwa [List.append_assoc, List.cons_append] at hdecimal
  · dsimp only at h
    split at h
    · exact absurd rfl h
    · next hne =>
      have hexponent : IsExponent rest := by
        rwa [Ne, Option.map_eq_none_iff, ← Ne, readExponent?_ne_none_iff] at h
      exact .mk (.whole ⟨fun h => hne ⟨h, rfl⟩, hwhole⟩) hexponent

/-- **Decimals are read.** -/
theorem read?_ne_none_iff : read? text ≠ none ↔ IsDecimal text := by
  refine ⟨isDecimal_of_read?, ?_⟩
  rintro ⟨hmantissa, hexponent⟩
  have hread := readExponent?_ne_none_iff.mpr hexponent
  have hdigit (c) (hc : c ∈ _) := (hexponent.head? c hc).1
  cases hmantissa with
  | whole h =>
    rw [read?_digits h.1 ⟨h.2, hdigit⟩ fun hpoint => (hexponent.head? _ hpoint).2 rfl]
    rwa [Ne, Option.map_eq_none_iff]
  | point h hmore =>
    rw [List.append_assoc, List.cons_append, read?_point (.inl h.1) h.2 ⟨hmore, hdigit⟩]
    rwa [Ne, Option.map_eq_none_iff]
  | fraction h =>
    rw [List.cons_append, ← List.nil_append ('.' :: _),
      read?_point (.inr h.1) (List.forall_mem_nil _) ⟨h.2, hdigit⟩]
    rwa [Ne, Option.map_eq_none_iff]

end Decimal

namespace Double

/-- A decimal is a number, whatever its size. -/
theorem ofDecimal_ne_nan (negative : Bool) (d : Decimal) : ofDecimal negative d ≠ nan := by
  rw [ofDecimal.eq_def]
  split
  · exact Double.noConfusion
  split
  · exact Double.noConfusion
  split
  · exact Double.noConfusion
  split
  · exact round_ne_nan _ _ _
  · exact round_ne_nan _ _ _

/-- **Decimals with a sign**, or without one, are read. -/
theorem read?_ne_none_iff {text : List Char} : read? text ≠ none ↔ IsSigned IsDecimal text := by
  have hmap (negative : Bool) (text : List Char) :
      (Decimal.read? text).map (ofDecimal negative) ≠ none ↔ IsDecimal text := by
    rw [Ne, Option.map_eq_none_iff, ← Ne, Decimal.read?_ne_none_iff]
  refine ⟨?_, ?_⟩
  · rw [read?.eq_def]
    split
    · exact fun h => .plus ((hmap _ _).mp h)
    · exact fun h => .minus ((hmap _ _).mp h)
    · exact fun h => .unsigned ((hmap _ _).mp h)
  · intro h
    cases h with
    | plus h => exact (hmap _ _).mpr h
    | minus h => exact (hmap _ _).mpr h
    | unsigned h =>
      obtain ⟨c, more, rfl, hc⟩ := h.exists_cons
      rw [read?.eq_def]
      split
      · next heq => cases heq; exact absurd hc (by decide)
      · next heq => cases heq; exact absurd hc (by decide)
      · exact (hmap _ _).mpr h

/-- What is read is a number. -/
theorem getD_read?_ne_nan_iff {text : List Char} :
    (read? text).getD nan ≠ nan ↔ IsSigned IsDecimal text := by
  have hne : ∀ n ∈ read? text, n ≠ nan := by
    intro n hn
    rw [read?.eq_def] at hn
    split at hn
    all_goals
      obtain ⟨d, -, rfl⟩ := Option.map_eq_some_iff.mp hn
      exact ofDecimal_ne_nan _ d
  rw [← read?_ne_none_iff]
  cases hread : read? text with
  | none => simp
  | some n => exact iff_of_true (hne n hread) nofun

end Double

/-! ## Whole numbers behind a radix mark -/

namespace Value

/-- **Digits are read in their radix**, behind the number that they go on from. -/
theorem readRadix?_eq_some_iff {radix : Nat} {text : List Char} {read n : Nat} :
    readRadix? radix read text = some n ↔ ∃ values, HasDigits radix text values ∧
      n = read * radix ^ values.length + Nat.ofDigits radix values.reverse := by
  induction text generalizing read with
  | nil => simp [readRadix?, HasDigits, @eq_comm _ n, List.forall₂_nil_left_iff]
  | cons c text ih =>
    -- one digit more, behind which the others count from the radix on
    have hcons (digit : Nat) (values : List Nat) :
        (read * radix + digit) * radix ^ values.length + Nat.ofDigits radix values.reverse =
          read * radix ^ (digit :: values).length +
            Nat.ofDigits radix (digit :: values).reverse := by
      rw [List.reverse_cons, Nat.ofDigits_append, Nat.ofDigits_singleton, List.length_reverse,
        List.length_cons]
      ring
    refine ⟨?_, ?_⟩
    · intro h
      rw [readRadix?] at h
      split at h
      · next digit hdigit =>
        split at h
        · next hlt =>
          obtain ⟨values, hvalues, rfl⟩ := ih.mp h
          exact ⟨digit :: values, .cons ⟨hdigit, hlt⟩ hvalues, hcons digit values⟩
        · cases h
      · cases h
    · rintro ⟨values, hvalues, rfl⟩
      cases hvalues with
      | @cons _ digit _ values hdigit hvalues =>
        rw [readRadix?, hdigit.1]
        dsimp only
        rw [if_pos hdigit.2, ih]
        exact ⟨values, hvalues, (hcons digit values).symm⟩

theorem digitsNumber_ne_nan_iff {radix : Nat} {digits : List Char} :
    digitsNumber radix digits ≠ .nan ↔ ∃ values, digits ≠ [] ∧ HasDigits radix digits values ∧
      Nat.ofDigits radix values.reverse < UInt64.size := by
  have hread (n : Nat) : readRadix? radix 0 digits = some n ↔
      ∃ values, HasDigits radix digits values ∧ n = Nat.ofDigits radix values.reverse := by
    simp only [readRadix?_eq_some_iff, Nat.zero_mul, Nat.zero_add]
  rw [digitsNumber]
  split
  · next hnil =>
    refine iff_of_false (fun h => h rfl) ?_
    rintro ⟨-, hne, -⟩
    exact hne hnil
  next hne =>
  split
  · next n hn =>
    have hunique {values : List Nat} (hvalues : HasDigits radix digits values) :
        n = Nat.ofDigits radix values.reverse :=
      Option.some.inj (hn.symm.trans ((hread _).mpr ⟨values, hvalues, rfl⟩))
    split
    · next hlt =>
      obtain ⟨values, hvalues, rfl⟩ := (hread n).mp hn
      exact iff_of_true (Double.round_ne_nan _ _ _) ⟨values, hne, hvalues, hlt⟩
    · next hge =>
      refine iff_of_false (fun h => h rfl) ?_
      rintro ⟨values, -, hvalues, hlt⟩
      exact hge (hunique hvalues ▸ hlt)
  · next hn =>
    refine iff_of_false (fun h => h rfl) ?_
    rintro ⟨values, -, hvalues, -⟩
    have hsome := (hread _).mpr ⟨values, hvalues, rfl⟩
    rw [hn] at hsome
    cases hsome

/-- **Behind a radix mark** a text is a number exactly if it is in the language that is read. -/
theorem radixNumber_ne_nan_iff {radix : Nat} {text : List Char} :
    radixNumber radix text ≠ .nan ↔ IsReadRadix radix text := by
  refine ⟨?_, ?_⟩
  · intro h
    rw [radixNumber.eq_def] at h
    split at h
    · next digits =>
      obtain ⟨values, h⟩ := digitsNumber_ne_nan_iff.mp h
      exact ⟨digits, values, .inr rfl, h⟩
    · obtain ⟨values, h⟩ := digitsNumber_ne_nan_iff.mp h
      exact ⟨text, values, .inl rfl, h⟩
  · rintro ⟨digits, values, rfl | rfl, h⟩
    · rw [radixNumber.eq_def]
      split
      · -- a plus sign is no digit
        obtain ⟨-, hvalues, -⟩ := h
        cases hvalues with
        | cons hdigit => cases hdigit.1
      · exact digitsNumber_ne_nan_iff.mpr ⟨values, h⟩
    · exact digitsNumber_ne_nan_iff.mpr ⟨values, h⟩

end Value

/-! ## All together -/

theorem IsRadixMark.unique {c : Char} {radix radix' : Nat} (h : IsRadixMark c radix)
    (h' : IsRadixMark c radix') : radix = radix' := by
  cases h with
  | hexadecimal h | octal h | binary h =>
    obtain rfl | rfl := h <;> cases h' <;> first | rfl | contradiction

/-- A radix mark starts no decimal. -/
theorem IsRadixMark.not_isDecimal {c : Char} {radix : Nat} (h : IsRadixMark c radix)
    (text : List Char) : ¬IsSigned IsDecimal ('0' :: c :: text) := by
  rw [← Double.read?_ne_none_iff, not_not]
  cases h with
  | hexadecimal h | octal h | binary h => obtain rfl | rfl := h <;> rfl

/-- Behind a radix mark, the text is numeric if the rest is what may stand there. -/
theorem isNumeric_mark_iff {behindMark : Nat → List Char → Prop} {c : Char} {radix : Nat}
    {text : List Char} (hmark : IsRadixMark c radix) :
    IsNumeric behindMark ('0' :: c :: text) ↔ behindMark radix text := by
  refine ⟨?_, .radix hmark⟩
  intro h
  cases h with
  | infinity h =>
    cases h with
    | unsigned h => cases h
  | radix hmark' h => exact hmark.unique hmark' ▸ h
  | decimal h => exact absurd h (hmark.not_isDecimal text)

namespace Value

theorem trimmedNumber_ne_nan_iff {text : List Char} :
    trimmedNumber text ≠ .nan ↔ IsNumeric IsReadRadix text := by
  have hmark {c : Char} {radix : Nat} (h : IsRadixMark c radix) (text : List Char) :
      radixNumber radix text ≠ .nan ↔ IsNumeric IsReadRadix ('0' :: c :: text) := by
    rw [radixNumber_ne_nan_iff, isNumeric_mark_iff h]
  rw [trimmedNumber.eq_def]
  split
  · next h => exact iff_of_true Double.noConfusion (h ▸ .empty)
  next hne =>
  split
  · next h =>
    refine iff_of_true Double.noConfusion (.infinity ?_)
    obtain rfl | rfl := h
    · exact .unsigned rfl
    · exact .plus rfl
  next hpositive =>
  split
  · next h => exact iff_of_true Double.noConfusion (.infinity (h ▸ .minus rfl))
  next hnegative =>
  split
  · exact hmark (.hexadecimal (.inl rfl)) _
  · exact hmark (.hexadecimal (.inr rfl)) _
  · exact hmark (.octal (.inl rfl)) _
  · exact hmark (.octal (.inr rfl)) _
  · exact hmark (.binary (.inl rfl)) _
  · exact hmark (.binary (.inr rfl)) _
  · next hx hX ho hO hb hB =>
    rw [Double.getD_read?_ne_nan_iff]
    refine ⟨.decimal, ?_⟩
    intro h
    cases h with
    | empty => exact absurd rfl hne
    | infinity h =>
      cases h with
      | unsigned h => exact absurd (.inl h) hpositive
      | plus h => exact absurd (.inr (h ▸ rfl)) hpositive
      | minus h => exact absurd (h ▸ rfl) hnegative
    | radix hmark =>
      cases hmark with
      | hexadecimal h => obtain rfl | rfl := h; exacts [(hx _ rfl).elim, (hX _ rfl).elim]
      | octal h => obtain rfl | rfl := h; exacts [(ho _ rfl).elim, (hO _ rfl).elim]
      | binary h => obtain rfl | rfl := h; exacts [(hb _ rfl).elim, (hB _ rfl).elim]
    | decimal h => exact h

/-- **The texts that are numbers.** Without its blank ends, such a text is empty, an infinity, a
decimal, or a radix mark and what is read behind it. -/
theorem textNumber_ne_nan_iff (text : String) :
    textNumber text ≠ .nan ↔ IsNumeric IsReadRadix (Text.trim text.toList) :=
  trimmedNumber_ne_nan_iff

/-- What is read behind a radix mark is not what is meant: a plus sign in front of the digits is
passed over, and too many digits are not a number. -/
theorem textNumber_not_meant :
    (textNumber "0x+1f" ≠ .nan ∧ ¬IsNumeric IsRadixDigits (Text.trim "0x+1f".toList)) ∧
      textNumber "0x10000000000000000" = .nan ∧
        IsNumeric IsRadixDigits (Text.trim "0x10000000000000000".toList) := by
  have hmark : IsRadixMark 'x' 16 := .hexadecimal (.inl rfl)
  refine ⟨⟨by decide +kernel, ?_⟩, by decide +kernel, ?_⟩
  · have htrim : Text.trim "0x+1f".toList = '0' :: 'x' :: "+1f".toList := by decide +kernel
    rw [htrim, isNumeric_mark_iff hmark]
    rintro ⟨-, values, hvalues⟩
    cases hvalues with
    | cons hdigit => cases hdigit.1
  · have htrim : Text.trim "0x10000000000000000".toList =
        '0' :: 'x' :: "10000000000000000".toList := by decide +kernel
    have hread : readRadix? 16 0 "10000000000000000".toList = some UInt64.size := by
      decide +kernel
    obtain ⟨values, hvalues, -⟩ := readRadix?_eq_some_iff.mp hread
    rw [htrim, isNumeric_mark_iff hmark]
    exact ⟨by decide +kernel, values, hvalues⟩

end Value

end ScreenedExpr
