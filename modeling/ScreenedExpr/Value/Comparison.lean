import ScreenedExpr.Value.Coercion
import ScreenedExpr.Text.Units
import ScreenedExpr.Double.Arithmetic

/-!
# Comparing and combining values

* `strictEq` — same type and same content, at every depth; *not a number* differs from
  itself and the two zeros are equal;
* `looseEq` — equality after coercion, one operand and one coercion at a time;
* `looseEq_eq` — the nullish values equal each other and nothing else; two containers compare
  by content, two textual values by their texts, and everything else by number;
* `compare?` — two textual values in the order of their code units, everything else by
  number; there is no order where *not a number* takes part;
* `add` — concatenation if one of the values is textual, addition otherwise.
-/

namespace ScreenedExpr.Value

/-! ## Equality -/

mutual

/-- Equality without coercion. -/
def strictEq : Value → Value → Bool
  | undefined, undefined => true
  | null, null => true
  | boolean a, boolean b => a == b
  | number a, number b => a.eq b
  | string a, string b => a == b
  | array a, array b => strictEqItems a b
  | object a, object b => strictEqFields a b
  | _, _ => false

/-- Equality of items, pair by pair. -/
def strictEqItems : List Value → List Value → Bool
  | [], [] => true
  | a :: as, b :: bs => strictEq a b && strictEqItems as bs
  | _, _ => false

/-- Equality of fields, pair by pair: the order of fields is fixed by their names. -/
def strictEqFields : List (String × Value) → List (String × Value) → Bool
  | [], [] => true
  | (m, a) :: as, (n, b) :: bs => m == n && strictEq a b && strictEqFields as bs
  | _, _ => false

end

/-- How many coercions take a value to one that is compared as it is. -/
def coercions : Value → Nat
  | boolean _ | array _ | object _ => 1
  | _ => 0

/-- Equality after coercion. A truth value is coerced to its number, and a container to its
text, before the comparison goes on. -/
def looseEq : Value → Value → Bool
  | undefined, undefined | undefined, null | null, undefined | null, null => true
  | undefined, _ | null, _ | _, undefined | _, null => false
  | number m, number n => m.eq n
  | string s, string t => s == t
  | boolean p, boolean q => p == q
  | a@(array _), b@(array _) | a@(array _), b@(object _)
  | a@(object _), b@(array _) | a@(object _), b@(object _) => strictEq a b
  | a@(boolean _), b => looseEq (number a.toNumber) b
  | a, b@(boolean _) => looseEq a (number b.toNumber)
  | number m, b@(string _) => m.eq b.toNumber
  | a@(string _), number n => a.toNumber.eq n
  | a@(array _), b | a@(object _), b => looseEq (string a.toText) b
  | a, b@(array _) | a, b@(object _) => looseEq a (string b.toText)
termination_by a b => a.coercions + b.coercions
decreasing_by all_goals simp [coercions]

section looseEq

variable {a b : Value}

/-- Nullish values equal each other and nothing else. -/
theorem looseEq_of_isNullish (h : (a.isNullish || b.isNullish) = true) :
    a.looseEq b = (a.isNullish && b.isNullish) := by
  fun_cases looseEq a b <;> simp_all [isNullish]

/-- Containers are equal by content. -/
theorem looseEq_of_isContainer (ha : a.isContainer = true) (hb : b.isContainer = true) :
    a.looseEq b = a.strictEq b := by
  fun_cases looseEq a b <;> simp_all [isContainer]

/-- Two textual values, not both containers, are equal if their texts are. -/
theorem looseEq_of_isTextual (ha : a.isTextual = true) (hb : b.isTextual = true)
    (h : (a.isContainer && b.isContainer) = false) :
    a.looseEq b = (a.toText == b.toText) := by
  -- a coercion leaves the texts of both as they are
  fun_induction looseEq a b <;> simp_all [isTextual, isContainer]

/-- Where one of two values is not textual, they are equal if their numbers are. -/
theorem looseEq_of_not_isTextual (ha : a.isNullish = false) (hb : b.isNullish = false)
    (h : (a.isTextual && b.isTextual) = false) :
    a.looseEq b = a.toNumber.eq b.toNumber := by
  -- a coercion leaves the numbers of both as they are, also one by way of a text
  fun_induction looseEq a b <;> simp_all [isNullish, isTextual, toNumber]

/-- **What all the coercions come to**: nullish values are apart, two containers are compared by
content, two textual values by their texts, and everything else by number. -/
theorem looseEq_eq (a b : Value) : a.looseEq b =
    if a.isNullish || b.isNullish then a.isNullish && b.isNullish
    else if a.isContainer && b.isContainer then a.strictEq b
    else if a.isTextual && b.isTextual then a.toText == b.toText
    else a.toNumber.eq b.toNumber := by
  split
  · next hnullish => exact looseEq_of_isNullish hnullish
  next hnullish =>
  split
  · next hcontainer =>
    obtain ⟨ha, hb⟩ := (Bool.and_eq_true_iff ..).mp hcontainer
    exact looseEq_of_isContainer ha hb
  next hcontainer =>
  split
  · next htextual =>
    obtain ⟨ha, hb⟩ := (Bool.and_eq_true_iff ..).mp htextual
    exact looseEq_of_isTextual ha hb (eq_false_of_ne_true hcontainer)
  · next htextual =>
    obtain ⟨ha, hb⟩ := Bool.or_eq_false_iff.mp (eq_false_of_ne_true hnullish)
    exact looseEq_of_not_isTextual ha hb (eq_false_of_ne_true htextual)

end looseEq

/-! ## Order -/

/-- The order of two values, if they have one: strings by their units, everything else by
number, once containers are strings. -/
def compare? (a b : Value) : Option Ordering :=
  match a.toPrimitive, b.toPrimitive with
  | string s, string t => some (compare (Text.units s) (Text.units t))
  | left, right => left.toNumber.compare? right.toNumber

theorem compare?_of_isTextual {a b : Value} (ha : a.isTextual = true)
    (hb : b.isTextual = true) :
    a.compare? b = some (compare (Text.units a.toText) (Text.units b.toText)) := by
  rw [compare?, toPrimitive_of_isTextual ha, toPrimitive_of_isTextual hb]

theorem compare?_of_not_isTextual {a b : Value} (h : (a.isTextual && b.isTextual) = false) :
    a.compare? b = a.toNumber.compare? b.toNumber := by
  rw [compare?]
  split
  · next hleft hright =>
    rw [isTextual_of_toPrimitive hleft, isTextual_of_toPrimitive hright] at h
    cases h
  · rw [toNumber_toPrimitive, toNumber_toPrimitive]

/-! ## Sum -/

/-- The sum of two values, once containers are strings. -/
def add (a b : Value) : Value :=
  match a.toPrimitive, b.toPrimitive with
  | string s, right => string (s ++ right.toText)
  | left, string t => string (left.toText ++ t)
  | left, right => number (left.toNumber.add right.toNumber)

end ScreenedExpr.Value
