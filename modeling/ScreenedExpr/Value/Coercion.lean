import ScreenedExpr.Value.Basic
import ScreenedExpr.Decimal.Layout
import ScreenedExpr.Text.Blank

/-!
# Coercions

Every value has a text and a number, and neither coercion fails: a value that is no number
becomes *not a number*.

* `numberText` — the text of a number: its shortest digits, positional from `1e-6` to below
  `1e21`;
* `textNumber` — the number of a text, blank characters at its ends apart: nothing is zero,
  then the names of the infinities, whole numbers in radix 16, 8 or 2, and decimals;
* `toText`, `toNumber` — the coercions of values. A container goes through its text;
* `toPrimitive` — the scalar that an operator takes a value for.
-/

namespace ScreenedExpr.Value

/-! ## Numbers as texts -/

/-- Numbers are positional when the first digit has an exponent from -6 to 20, show no point
when whole, and a tie goes away from zero. -/
def numberLayout : Decimal.Layout := ⟨some (-6, 20), false, .away⟩

/-- The text of a number; both zeros are `0`. -/
def numberText : Double → String
  | .nan => "NaN"
  | .infinite false => "Infinity"
  | .infinite true => "-Infinity"
  | .finite negative units _ => if units = 0 then "0" else numberLayout.text negative units

/-! ## Texts as numbers -/

/-- The value of a digit in any radix up to 16. -/
def digitValue? (c : Char) : Option Nat :=
  if c.isDigit then some (c.toNat - '0'.toNat)
  else if 'a' ≤ c ∧ c ≤ 'f' then some (c.toNat - 'a'.toNat + 10)
  else if 'A' ≤ c ∧ c ≤ 'F' then some (c.toNat - 'A'.toNat + 10)
  else none

/-- The whole number that digits in a radix make, given the number before them. -/
def readRadix? (radix : Nat) : Nat → List Char → Option Nat
  | read, [] => some read
  | read, c :: text =>
    match digitValue? c with
    | some digit => if digit < radix then readRadix? radix (read * radix + digit) text else none
    | none => none

/-- The whole number of at most 64 bits that one or more digits make. -/
def digitsNumber (radix : Nat) (digits : List Char) : Double :=
  if digits = [] then .nan
  else match readRadix? radix 0 digits with
    | some n => if n < UInt64.size then .ofNat n else .nan
    | none => .nan

/-- The whole number behind a radix mark, with a plus sign or none. -/
def radixNumber (radix : Nat) : List Char → Double
  | '+' :: digits => digitsNumber radix digits
  | digits => digitsNumber radix digits

/-- The number of a text without blank ends. -/
def trimmedNumber (text : List Char) : Double :=
  if text = [] then .zero false
  else if text = "Infinity".toList ∨ text = "+Infinity".toList then .infinite false
  else if text = "-Infinity".toList then .infinite true
  else match text with
    | '0' :: 'x' :: digits | '0' :: 'X' :: digits => radixNumber 16 digits
    | '0' :: 'o' :: digits | '0' :: 'O' :: digits => radixNumber 8 digits
    | '0' :: 'b' :: digits | '0' :: 'B' :: digits => radixNumber 2 digits
    | _ => (Double.read? text).getD .nan

/-- The number of a text. -/
def textNumber (text : String) : Double := trimmedNumber (Text.trim text.toList)

/-! ## Values -/

mutual

/-- The text of a value. An array's items are joined by commas, nullish ones left empty. -/
def toText : Value → String
  | undefined => "undefined"
  | null => "null"
  | boolean b => if b then "true" else "false"
  | number n => numberText n
  | string s => s
  | array items => ",".intercalate (itemTexts items)
  | object _ => "[object Object]"

/-- The texts of an array's items. -/
def itemTexts : List Value → List String
  | [] => []
  | item :: items => (if item.isNullish then "" else item.toText) :: itemTexts items

end

/-- The number of a value. -/
def toNumber : Value → Double
  | undefined => .nan
  | null => .zero false
  | boolean b => .ofBool b
  | number n => n
  | string s => textNumber s
  | array items => textNumber (array items).toText
  | object fields => textNumber (object fields).toText

@[simp] theorem toText_string (s : String) : (string s).toText = s := by simp [toText]

@[simp] theorem toNumber_number (n : Double) : (number n).toNumber = n := rfl

/-- A textual value has the number of its text. -/
theorem toNumber_eq_textNumber {v : Value} (h : v.isTextual = true) :
    v.toNumber = textNumber v.toText := by
  cases v with
  | string s => simp [toNumber]
  | array => rfl
  | object => rfl
  | _ => cases h

/-- A container as the string of its text, any other value as it is. -/
def toPrimitive : Value → Value
  | array items => string (array items).toText
  | object fields => string (object fields).toText
  | value => value

/-- A textual value comes to its text. -/
theorem toPrimitive_of_isTextual {v : Value} (h : v.isTextual = true) :
    v.toPrimitive = string v.toText := by
  cases v with
  | string s =>
    rw [toText_string]
    rfl
  | array | object => rfl
  | _ => cases h

/-- Only textual values come to a text. -/
theorem isTextual_of_toPrimitive {v : Value} {s : String} (h : v.toPrimitive = string s) :
    v.isTextual = true := by
  cases v with
  | string | array | object => rfl
  | _ => cases h

/-- A value has the number of what it comes to. -/
@[simp] theorem toNumber_toPrimitive (v : Value) : v.toPrimitive.toNumber = v.toNumber := by
  cases v <;> rfl

end ScreenedExpr.Value
