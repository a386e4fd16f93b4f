import ScreenedExpr.Json.Reader
import ScreenedExpr.Limits

/-!
# Limits from JSON

Limits are configured by a document: an object that names some of them, or an array that
lists them from the first on. What is not given keeps its standard value. Nothing else is
accepted: no other name, no name twice, no value that is not a whole number of 64 bits.
-/

namespace ScreenedExpr.Limits

/-- A limit is a whole number that fits 64 bits. -/
def ofNumber? : Json → Option Nat
  | .number (.int i) => if 0 ≤ i then some i.toNat else none
  | _ => none

/-- The limits with one of them set by its name, which may be done once for each. The list
holds the names already set. -/
def ofEntries? : List String → List (String × Json) → Option Limits
  | _, [] => some .standard
  | seen, (name, json) :: entries =>
    if name ∈ seen then none
    else
      match ofNumber? json, ofEntries? (name :: seen) entries with
      | some n, some limits =>
        if name = "max_expression_length" then some { limits with length := n }
        else if name = "max_depth" then some { limits with depth := n }
        else if name = "max_height" then some { limits with height := n }
        else none
      | _, _ => none

/-- The limits listed from the first on. -/
def ofItems? (items : List Json) : Option Limits :=
  match items.mapM ofNumber? with
  | some [] => some .standard
  | some [length] => some { Limits.standard with length }
  | some [length, depth] => some { Limits.standard with length, depth }
  | some [length, depth, height] => some ⟨length, depth, height⟩
  | _ => none

/-- The limits of a document. -/
def ofJson? : Json → Option Limits
  | .object entries => ofEntries? [] entries
  | .array items => ofItems? items
  | _ => none

/-- **The limits of a configuration text.** -/
def read? (text : String) : Option Limits :=
  match Json.read? text with
  | some json => ofJson? json
  | none => none

end ScreenedExpr.Limits
