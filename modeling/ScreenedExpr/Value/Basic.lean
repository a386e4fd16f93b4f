import ScreenedExpr.Literal
import ScreenedExpr.Fields

/-!
# Values

What an expression reads and computes. Scalars are the values of literals; containers are
arrays and objects, whose fields are kept in the order of their names.

A value is *nullish* if it is `null` or `undefined`. It is *textual* if operators that
distinguish texts from numbers treat it as a text, which goes for strings and containers.
-/

namespace ScreenedExpr

/-- A value. -/
inductive Value where
  /-- the value of everything missing -/
  | undefined
  /-- the explicit null -/
  | null
  /-- a truth value -/
  | boolean (value : Bool)
  /-- a number -/
  | number (value : Double)
  /-- a string -/
  | string (value : String)
  /-- a sequence of values -/
  | array (items : List Value)
  /-- named values -/
  | object (fields : List (String × Value))

namespace Value

instance : Inhabited Value := ⟨undefined⟩

/-- The value of a literal. -/
def ofLiteral : Literal → Value
  | .undefined => undefined
  | .null => null
  | .boolean b => boolean b
  | .number n => number n
  | .string s => string s

/-- The name of a value's type. -/
def typeName : Value → String
  | undefined => "undefined"
  | null => "null"
  | boolean _ => "boolean"
  | number _ => "number"
  | string _ => "string"
  | array _ => "array"
  | object _ => "object"

/-- `null` or `undefined`. -/
def isNullish : Value → Bool
  | undefined | null => true
  | _ => false

/-- An array or an object. -/
def isContainer : Value → Bool
  | array _ | object _ => true
  | _ => false

/-- A string or a container. -/
def isTextual : Value → Bool
  | string _ | array _ | object _ => true
  | _ => false

/-- Falsy are `false`, both zeros, *not a number*, the empty string and the nullish values;
everything else is truthy, the empty containers too. -/
def isTruthy : Value → Bool
  | undefined | null => false
  | boolean b => b
  | number n => !(n.isZero || n.isNaN)
  | string s => !s.isEmpty
  | array _ | object _ => true

/-! ## Equality -/

mutual

/-- The same value, at every depth. -/
def same : Value → Value → Bool
  | undefined, undefined => true
  | null, null => true
  | boolean a, boolean b => a == b
  | number a, number b => a = b
  | string a, string b => a == b
  | array a, array b => sameItems a b
  | object a, object b => sameFields a b
  | _, _ => false

/-- The same items, pair by pair. -/
def sameItems : List Value → List Value → Bool
  | [], [] => true
  | a :: as, b :: bs => same a b && sameItems as bs
  | _, _ => false

/-- The same fields, pair by pair. -/
def sameFields : List (String × Value) → List (String × Value) → Bool
  | [], [] => true
  | (m, a) :: as, (n, b) :: bs => m == n && same a b && sameFields as bs
  | _, _ => false

end

mutual

theorem same_iff : ∀ a b : Value, same a b = true ↔ a = b
  | undefined, b | null, b | boolean _, b | number _, b | string _, b => by
    cases b <;> simp [same]
  | array a, b => by cases b <;> simp [same, sameItems_iff a]
  | object a, b => by cases b <;> simp [same, sameFields_iff a]

theorem sameItems_iff : ∀ a b : List Value, sameItems a b = true ↔ a = b
  | [], b => by cases b <;> simp [sameItems]
  | a :: as, b => by cases b <;> simp [sameItems, same_iff a, sameItems_iff as]

theorem sameFields_iff : ∀ a b : List (String × Value), sameFields a b = true ↔ a = b
  | [], b => by cases b <;> simp [sameFields]
  | (m, a) :: as, b => by
    cases b <;> simp [sameFields, same_iff a, sameFields_iff as, Prod.ext_iff]

end

instance : DecidableEq Value := fun a b => decidable_of_iff _ (same_iff a b)

/-! ## Order of fields -/

mutual

/-- The fields of every object inside a value are in strict order. -/
def Ordered : Value → Prop
  | array items => OrderedItems items
  | object fields => Fields.Sorted fields ∧ OrderedFields fields
  | _ => True

/-- Every item of a list is ordered. -/
def OrderedItems : List Value → Prop
  | [] => True
  | item :: items => item.Ordered ∧ OrderedItems items

/-- Every value of a list of fields is ordered. -/
def OrderedFields : List (String × Value) → Prop
  | [] => True
  | (_, value) :: fields => value.Ordered ∧ OrderedFields fields

end

theorem orderedItems_iff {items : List Value} :
    OrderedItems items ↔ ∀ item ∈ items, item.Ordered := by
  induction items with
  | nil => simp [OrderedItems]
  | cons item items ih => simp [OrderedItems, ih]

theorem orderedFields_iff {fields : List (String × Value)} :
    OrderedFields fields ↔ ∀ field ∈ fields, field.2.Ordered := by
  induction fields with
  | nil => simp [OrderedFields]
  | cons field fields ih => rw [OrderedFields, ih, List.forall_mem_cons]

end Value

end ScreenedExpr
