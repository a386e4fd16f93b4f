import ScreenedExpr.Json.Basic
import ScreenedExpr.Decimal.Layout

/-!
# Writing JSON

Two forms of the same text: *compact*, without any blank character between the constructs,
and *indented*, with one item or entry to a line. Strings escape the quote, the backslash
and the control characters, and nothing else.

Numbers that are not integers show their shortest digits. They are positional when the
first digit has an exponent from -5 to 15, and then a whole number ends in `.0`; a tie
between two shortest decimals goes to the even one.
-/

namespace ScreenedExpr.Json

/-! ## Scalars -/

/-- How doubles are set in a document. -/
def doubleLayout : Decimal.Layout := ⟨some (-5, 15), true, .even⟩

/-- The text of a number; a document has no numbers that are not finite. -/
def numberText : JsonNumber → String
  | .int i => toString i
  | .double (.finite negative units _) => doubleLayout.text negative units
  | .double _ => "null"

/-- A hexadecimal digit in lower case. -/
def hexChar (n : Nat) : Char := n.digitChar

/-- A character inside a string. -/
def escapeChar (c : Char) : List Char :=
  match c with
  | '"' => ['\\', '"']
  | '\\' => ['\\', '\\']
  | '\x08' => ['\\', 'b']
  | '\x0C' => ['\\', 'f']
  | '\n' => ['\\', 'n']
  | '\r' => ['\\', 'r']
  | '\t' => ['\\', 't']
  | c =>
    if c.toNat < 0x20 then
      ['\\', 'u', '0', '0', hexChar (c.toNat / 16), hexChar (c.toNat % 16)]
    else [c]

/-- A string with its quotes. -/
def stringText (s : String) : String :=
  String.ofList ('"' :: s.toList.flatMap escapeChar ++ ['"'])

/-! ## Compact form -/

mutual

/-- **The compact form of a document.** -/
def compact : Json → String
  | null => "null"
  | bool b => if b then "true" else "false"
  | number n => numberText n
  | string s => stringText s
  | array items => "[" ++ ",".intercalate (compactItems items) ++ "]"
  | object entries => "\x7b" ++ ",".intercalate (compactEntries entries) ++ "\x7d"

/-- The compact forms of an array's items. -/
def compactItems : List Json → List String
  | [] => []
  | item :: items => item.compact :: compactItems items

/-- The compact forms of an object's entries. -/
def compactEntries : List (String × Json) → List String
  | [] => []
  | (name, json) :: entries =>
    (stringText name ++ ":" ++ json.compact) :: compactEntries entries

end

/-! ## Indented form -/

/-- A line break and the blanks of that many levels, two for each. -/
def lineBreak (level : Nat) : String :=
  String.ofList ('\n' :: List.replicate (2 * level) ' ')

/-- Lines between brackets, one level deeper than the brackets. -/
def block (opening closing : String) (level : Nat) (lines : List String) : String :=
  if lines = [] then opening ++ closing
  else
    opening ++ lineBreak (level + 1) ++ ("," ++ lineBreak (level + 1)).intercalate lines ++
      lineBreak level ++ closing

mutual

/-- The indented form of a document that stands at a level. -/
def indentedAt (level : Nat) : Json → String
  | array items => block "[" "]" level (indentedItems (level + 1) items)
  | object entries => block "\x7b" "\x7d" level (indentedEntries (level + 1) entries)
  | null => "null"
  | bool b => if b then "true" else "false"
  | number n => numberText n
  | string s => stringText s

/-- The indented forms of an array's items. -/
def indentedItems (level : Nat) : List Json → List String
  | [] => []
  | item :: items => indentedAt level item :: indentedItems level items

/-- The indented forms of an object's entries. -/
def indentedEntries (level : Nat) : List (String × Json) → List String
  | [] => []
  | (name, json) :: entries =>
    (stringText name ++ ": " ++ indentedAt level json) :: indentedEntries level entries

end

/-- **The indented form of a document.** -/
def indented (json : Json) : String := indentedAt 0 json

end ScreenedExpr.Json
