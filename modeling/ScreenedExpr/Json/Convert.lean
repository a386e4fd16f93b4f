import ScreenedExpr.Json.Basic
import ScreenedExpr.Value.Basic

/-!
# Documents and values

A document becomes a value: numbers become doubles, and of a repeated name the last entry
stays. A value becomes a document: what documents cannot say is written as null, that is
`undefined` and the numbers that are not finite, and whole numbers of magnitude below
`2 ^ 53` are integers.

Going forth and back loses exactly that much, and the sign of zero.
-/

namespace ScreenedExpr

mutual

/-- **The value of a document.** -/
def Value.ofJson : Json → Value
  | .null => .null
  | .bool b => .boolean b
  | .number n => .number n.toDouble
  | .string s => .string s
  | .array items => .array (Value.ofJsonItems items)
  | .object entries => .object (Fields.ofList (Value.ofJsonEntries entries))

/-- The values of an array's items. -/
def Value.ofJsonItems : List Json → List Value
  | [] => []
  | item :: items => Value.ofJson item :: Value.ofJsonItems items

/-- The values of an object's entries. -/
def Value.ofJsonEntries : List (String × Json) → List (String × Value)
  | [] => []
  | (name, json) :: entries => (name, Value.ofJson json) :: Value.ofJsonEntries entries

end

theorem Value.ofJsonItems_eq_map (items : List Json) :
    Value.ofJsonItems items = items.map Value.ofJson := by
  induction items with
  | nil => rfl
  | cons item items ih => rw [Value.ofJsonItems, ih, List.map_cons]

theorem Value.ofJsonEntries_eq_map (entries : List (String × Json)) :
    Value.ofJsonEntries entries = entries.map fun entry => (entry.1, Value.ofJson entry.2) := by
  induction entries with
  | nil => rfl
  | cons entry entries ih => rw [Value.ofJsonEntries, ih, List.map_cons]

/-- The document of a number. -/
def Double.toJson (n : Double) : Json :=
  match n.toInt? with
  | some i => if i.natAbs < 1 <<< 53 then .number (.int i) else .number (.double n)
  | none =>
    match n with
    | .finite .. => .number (.double n)
    | _ => .null

mutual

/-- **The document of a value.** -/
def Value.toJson : Value → Json
  | .undefined | .null => .null
  | .boolean b => .bool b
  | .number n => n.toJson
  | .string s => .string s
  | .array items => .array (Value.toJsonItems items)
  | .object fields => .object (Value.toJsonEntries fields)

/-- The documents of an array's items. -/
def Value.toJsonItems : List Value → List Json
  | [] => []
  | item :: items => item.toJson :: Value.toJsonItems items

/-- The documents of an object's fields. -/
def Value.toJsonEntries : List (String × Value) → List (String × Json)
  | [] => []
  | (name, value) :: fields => (name, value.toJson) :: Value.toJsonEntries fields

end

theorem Value.toJsonItems_eq_map (items : List Value) :
    Value.toJsonItems items = items.map Value.toJson := by
  induction items with
  | nil => rfl
  | cons item items ih => rw [Value.toJsonItems, ih, List.map_cons]

theorem Value.toJsonEntries_eq_map (fields : List (String × Value)) :
    Value.toJsonEntries fields = fields.map fun field => (field.1, field.2.toJson) := by
  induction fields with
  | nil => rfl
  | cons field fields ih => rw [Value.toJsonEntries, ih, List.map_cons]

end ScreenedExpr
