import ScreenedExpr.Double.Basic

/-!
# Decimal numerals

A decimal numeral is a whole coefficient and a power of ten. Two things are done with it:
it is **read** from text, and it is **rounded** to the nearest double.

* `Decimal.read?` — the unsigned grammar: digits with at most one point among or around
  them, at least one digit in all, then possibly `e` or `E`, a sign and digits; an
  exponent stops growing once it has reached a cap far beyond the range of the doubles;
* `Double.ofDecimal` — the nearest double, whatever the size of the exponent;
* `Double.read?` — both, with a sign in front.
-/

namespace ScreenedExpr

/-- The number `coefficient * 10 ^ exponent`. -/
structure Decimal where
  /-- the digits, as a number -/
  coefficient : Nat
  /-- the power of ten -/
  exponent : Int
deriving DecidableEq

namespace Decimal

/-! ## Reading -/

/-- A text of one or more digits. -/
def readDigits? (text : List Char) : Option Nat :=
  if text ≠ [] ∧ text.all Char.isDigit then some (Nat.ofDigitChars 10 text 0) else none

/-- An exponent that has grown to this takes no more digits. -/
def exponentCap : Nat := 0x10000

/-- The exponent that digits make, given the part of it that stands before them. Digits
behind the cap are passed over. -/
def appendExponent : Nat → List Char → Nat
  | exponent, [] => exponent
  | exponent, c :: digits =>
    if exponent < exponentCap then
      appendExponent (exponent * 10 + (c.toNat - '0'.toNat)) digits
    else exponent

theorem le_ofDigitChars (exponent : Nat) (digits : List Char) :
    exponent ≤ Nat.ofDigitChars 10 digits exponent := by
  induction digits generalizing exponent with
  | nil => exact Nat.le_refl _
  | cons c digits ih =>
    rw [Nat.ofDigitChars_cons]
    exact Nat.le_trans (by omega) (ih _)

/-- **An exponent below the cap is read in full.** -/
theorem appendExponent_eq {exponent : Nat} {digits : List Char}
    (h : Nat.ofDigitChars 10 digits exponent < exponentCap) :
    appendExponent exponent digits = Nat.ofDigitChars 10 digits exponent := by
  induction digits generalizing exponent with
  | nil => rfl
  | cons c digits ih =>
    have hlt := Nat.lt_of_le_of_lt (le_ofDigitChars exponent (c :: digits)) h
    rw [Nat.ofDigitChars_cons, Nat.mul_comm] at h ⊢
    rw [appendExponent, if_pos hlt, ih h]

/-- The digits of an exponent. -/
def readUnsigned? (text : List Char) : Option Nat :=
  if text ≠ [] ∧ text.all Char.isDigit then some (appendExponent 0 text) else none

/-- The digits of an exponent with a sign or without. -/
def readSigned? : List Char → Option Int
  | '+' :: text => (readUnsigned? text).map Int.ofNat
  | '-' :: text => (readUnsigned? text).map fun n => -(n : Int)
  | text => (readUnsigned? text).map Int.ofNat

/-- What may follow the digits: nothing, or a power of ten. -/
def readExponent? : List Char → Option Int
  | [] => some 0
  | 'e' :: text => readSigned? text
  | 'E' :: text => readSigned? text
  | _ => none

/-- What follows the whole digits: the fraction's digits, and the text after them. -/
def splitFraction : List Char → List Char × List Char
  | '.' :: text => (text.takeWhile Char.isDigit, text.dropWhile Char.isDigit)
  | text => ([], text)

/-- An unsigned numeral. -/
def read? (text : List Char) : Option Decimal :=
  let whole := text.takeWhile Char.isDigit
  let (fraction, rest) := splitFraction (text.dropWhile Char.isDigit)
  if whole = [] ∧ fraction = [] then none
  else (readExponent? rest).map fun exponent =>
    ⟨Nat.ofDigitChars 10 (whole ++ fraction) 0, exponent - fraction.length⟩

end Decimal

namespace Double

/-! ## Rounding -/

/-- **The double nearest to a decimal.** Beyond `10 ^ 400` nothing is finite and below
`10 ^ -400` everything rounds to zero, so that the powers of ten stay of moderate size
whatever the exponent. -/
def ofDecimal (negative : Bool) (d : Decimal) : Double :=
  if d.coefficient = 0 then zero negative
  else if 400 < d.exponent then infinite negative
  else if d.exponent + d.coefficient.log2 < -400 then zero negative
  else match d.exponent with
    | .ofNat n => round negative (d.coefficient * Nat.pow 10 n * unitsPerOne) 1
    | .negSucc n => round negative (d.coefficient * unitsPerOne) (Nat.pow 10 (n + 1))

/-- A numeral with a sign or without. -/
def read? : List Char → Option Double
  | '+' :: text => (Decimal.read? text).map (ofDecimal false)
  | '-' :: text => (Decimal.read? text).map (ofDecimal true)
  | text => (Decimal.read? text).map (ofDecimal false)

end Double

end ScreenedExpr
