import ScreenedExpr.Json.Basic
import ScreenedExpr.Decimal.Basic
import ScreenedExpr.Double.Arithmetic

/-!
# Reading JSON numbers

A numeral is read digit by digit into a significand of 64 bits and a decimal exponent. A
digit that would overflow the significand, and the digits after it in the same part, are
dropped: before the point each of them still counts as a power of ten, after the point it
does not count at all. A numeral without point and exponent whose digits all fit is an
integer if it fits 64 bits; `-0` is not an integer but the negative zero.

The double is then the significand, rounded, times or divided by a power of ten, rounded
again. It is the nearest double whenever both factors are exact, and may be off in the last
place otherwise. A number beyond the finite doubles is refused; one too small is zero.
-/

namespace ScreenedExpr.Json

/-- The greatest significand. -/
def significandLimit : Nat := UInt64.size

/-- The greatest decimal exponent that is read. -/
def exponentLimit : Nat := 1 <<< 31

/-- Digits appended to a significand as long as it fits: the significand, and how many
digits were dropped after it no longer did. -/
def accumulate : Nat → List Char → Nat × Nat
  | significand, [] => (significand, 0)
  | significand, c :: digits =>
    let next := significand * 10 + (c.toNat - '0'.toNat)
    if next < significandLimit then accumulate next digits
    else (significand, digits.length + 1)

/-- The power of ten, for exponents up to 308. -/
def powerOfTen (n : Nat) : Double := .ofDecimal false ⟨1, n⟩

/-- A double divided by a power of ten, at most 308 powers at a time. -/
def scaleDown (value : Double) (n : Nat) : Double :=
  if n ≤ 308 then value.div (powerOfTen n)
  else if value.isZero then value
  else scaleDown (value.div (powerOfTen 308)) (n - 308)
termination_by n

/-- A significand scaled by a power of ten, unless that is not finite. -/
def scale? (significand : Nat) (exponent : Int) : Option Double :=
  let value := Double.ofNat significand
  match exponent with
  | .negSucc n => some (scaleDown value (n + 1))
  | .ofNat n =>
    if n ≤ 308 then
      match value.mul (powerOfTen n) with
      | .infinite _ => none
      | product => some product
    else if value.isZero then some value
    else none

/-- A significand and exponents: one from the digits, one as written. A written exponent
beyond the limit makes any number but zero too large, or makes it zero. -/
def combine? (significand : Nat) (fromDigits : Int) (negative : Bool) (written : Nat) :
    Option Double :=
  if written < exponentLimit then
    scale? significand (if negative then fromDigits - written else fromDigits + written)
  else if significand ≠ 0 ∧ negative = false then none
  else some (.zero false)

/-- The sign in front of an exponent's digits: whether it is negative, and the rest. -/
def exponentSign : List Char → Bool × List Char
  | '+' :: text => (false, text)
  | '-' :: text => (true, text)
  | text => (false, text)

/-- What may follow the significand: nothing that belongs to the number, or an exponent. -/
def readExponent? (significand : Nat) (fromDigits : Int) (text : List Char) :
    Option (Double × List Char) :=
  let written (text : List Char) : Option (Double × List Char) :=
    let (negative, text) := exponentSign text
    let digits := text.takeWhile Char.isDigit
    if digits = [] then none
    else (combine? significand fromDigits negative (Nat.ofDigitChars 10 digits 0)).map
      fun value => (value, text.dropWhile Char.isDigit)
  match text with
  | 'e' :: rest => written rest
  | 'E' :: rest => written rest
  | _ => (scale? significand fromDigits).map fun value => (value, text)

/-- A number of which the whole digits have been read and the rest is not an integer's. -/
def readDouble? (significand dropped : Nat) (text : List Char) :
    Option (Double × List Char) :=
  match text with
  | '.' :: rest =>
    let digits := rest.takeWhile Char.isDigit
    if digits = [] then none
    else
      let (significand, droppedAfter) := accumulate significand digits
      let kept := digits.length - droppedAfter
      readExponent? significand (dropped - kept) (rest.dropWhile Char.isDigit)
  | _ => readExponent? significand dropped text

/-- Negates a number if it has a minus sign in front. -/
def signedDouble (negative : Bool) (value : Double) : Double :=
  if negative then value.neg else value

/-- The number of a numeral without point and exponent that fits the significand. -/
def wholeNumber (negative : Bool) (significand : Nat) : JsonNumber :=
  if negative then
    if significand = 0 ∨ 1 <<< 63 < significand then
      .double (signedDouble true (.ofNat significand))
    else .int (-(significand : Int))
  else .int significand

/-- The text goes on with a point or an exponent. -/
def continues : List Char → Bool
  | '.' :: _ | 'e' :: _ | 'E' :: _ => true
  | _ => false

/-- An unsigned numeral, given whether a sign stands in front. -/
def readUnsigned? (negative : Bool) (text : List Char) : Option (JsonNumber × List Char) :=
  let digits := text.takeWhile Char.isDigit
  let rest := text.dropWhile Char.isDigit
  if digits = [] ∨ (digits.head? = some '0' ∧ digits ≠ ['0']) then none
  else
    let (significand, dropped) := accumulate 0 digits
    if dropped = 0 ∧ continues rest = false then some (wholeNumber negative significand, rest)
    else (readDouble? significand dropped rest).map
      fun (value, rest) => (.double (signedDouble negative value), rest)

/-- **A number** at the start of a text, and the text after it. -/
def readNumber? : List Char → Option (JsonNumber × List Char)
  | '-' :: text => readUnsigned? true text
  | text => readUnsigned? false text

end ScreenedExpr.Json
