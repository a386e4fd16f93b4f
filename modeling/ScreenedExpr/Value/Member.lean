import ScreenedExpr.Value.Coercion
import ScreenedExpr.Text.Units

/-!
# Members of values

Only a value's own data can be reached: the fields of an object, the items of an array, the
code units of a string, and the length of the last two. Every other key leads to
`undefined`, and so does every key on a scalar.

* an object is read by a string, or by a number through its text;
* a position is a whole number from zero to below `2 ^ 64`, or its plain decimal text.
-/

namespace ScreenedExpr.Value

/-- The name that a key reads an object by. -/
def fieldName? : Value → Option String
  | string s => some s
  | number n => some (numberText n)
  | _ => none

/-- The position that a text spells: digits without superfluous zeros. -/
def textPosition? (text : String) : Option Nat :=
  match Decimal.readDigits? text.toList with
  | some n => if n < UInt64.size ∧ Nat.toDigits 10 n = text.toList then some n else none
  | none => none

/-- The position that a number is; both zeros are the first. -/
def numberPosition? (n : Double) : Option Nat :=
  match n.toInt? with
  | some i => if 0 ≤ i ∧ i.toNat < UInt64.size then some i.toNat else none
  | none => none

/-- The position that a key reads an array or a string by. -/
def position? : Value → Option Nat
  | string s => textPosition? s
  | number n => numberPosition? n
  | _ => none

/-- The key asks for a length. -/
def isLengthKey : Value → Bool
  | string s => s == "length"
  | _ => false

/-- **The member** of a value under a key. -/
def member (value key : Value) : Value :=
  match value with
  | object fields =>
    match key.fieldName? with
    | some name => (fields.lookup name).getD undefined
    | none => undefined
  | array items =>
    if key.isLengthKey then number (.ofNat items.length)
    else match key.position? with
      | some i => items[i]?.getD undefined
      | none => undefined
  | string s =>
    if key.isLengthKey then number (.ofNat (Text.units s).length)
    else match key.position? with
      | some i => ((Text.units s)[i]?.map fun unit => string (Text.ofUnit unit)).getD undefined
      | none => undefined
  | _ => undefined

end ScreenedExpr.Value
