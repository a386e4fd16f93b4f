import ScreenedExpr.Json.Number

/-!
# Reading JSON

The strict grammar: only four blank characters, no comments, no trailing commas, no leading
zeros, no raw control characters in strings, and nothing behind the document. Half of a
surrogate pair cannot be written, and containers nest to a fixed depth, on which the
recursion descends.

* `Json.read?` — the document of a text;
* `readString?`, `readNumber?`, `readValue?` — the constructs at the start of a text, with
  the text that is left.
-/

namespace ScreenedExpr.Json

/-! ## Strings -/

/-- A blank character between the constructs of a document. -/
def isSpace (c : Char) : Bool := c == ' ' || c == '\t' || c == '\n' || c == '\r'

/-- The text without the blank characters at its start. -/
def skipSpace (text : List Char) : List Char := text.dropWhile isSpace

/-- The value of a hexadecimal digit. -/
def hexDigit? (c : Char) : Option Nat :=
  if c.isDigit then some (c.toNat - '0'.toNat)
  else if 'a' ≤ c ∧ c ≤ 'f' then some (c.toNat - 'a'.toNat + 10)
  else if 'A' ≤ c ∧ c ≤ 'F' then some (c.toNat - 'A'.toNat + 10)
  else none

/-- The code unit that four hexadecimal digits write. -/
def hexUnit? (a b c d : Char) : Option Nat :=
  match hexDigit? a, hexDigit? b, hexDigit? c, hexDigit? d with
  | some a, some b, some c, some d => some (((a * 16 + b) * 16 + c) * 16 + d)
  | _, _, _, _ => none

/-- The character of a short escape. -/
def shortEscape? : Char → Option Char
  | '"' => some '"'
  | '\\' => some '\\'
  | '/' => some '/'
  | 'b' => some '\x08'
  | 'f' => some '\x0C'
  | 'n' => some '\n'
  | 'r' => some '\r'
  | 't' => some '\t'
  | _ => none

/-- A piece of a string: a character, or a code unit written by its digits. -/
inductive Piece where
  /-- a character, raw or behind a short escape -/
  | char (char : Char)
  /-- a code unit of 16 bits -/
  | unit (unit : Nat)
deriving DecidableEq

/-- The pieces of a string up to the closing quote, and the text behind it. -/
def readPieces? : List Char → Option (List Piece × List Char)
  | [] => none
  | '"' :: text => some ([], text)
  | '\\' :: 'u' :: a :: b :: c :: d :: text =>
    match hexUnit? a b c d, readPieces? text with
    | some unit, some (pieces, rest) => some (.unit unit :: pieces, rest)
    | _, _ => none
  | '\\' :: escaped :: text =>
    match shortEscape? escaped, readPieces? text with
    | some char, some (pieces, rest) => some (.char char :: pieces, rest)
    | _, _ => none
  | char :: text =>
    if char.toNat < 0x20 then none
    else match readPieces? text with
      | some (pieces, rest) => some (.char char :: pieces, rest)
      | none => none

/-- The first half of a surrogate pair. -/
def isHighUnit (unit : Nat) : Bool := 0xD800 ≤ unit && unit ≤ 0xDBFF

/-- The second half of a surrogate pair. -/
def isLowUnit (unit : Nat) : Bool := 0xDC00 ≤ unit && unit ≤ 0xDFFF

/-- The characters of the pieces; surrogates have to come in pairs. -/
def assemble? : List Piece → Option (List Char)
  | [] => some []
  | .char char :: pieces => (assemble? pieces).map (char :: ·)
  | .unit high :: .unit low :: pieces =>
    if isHighUnit high then
      if isLowUnit low then
        (assemble? pieces).map
          (Char.ofNat (0x10000 + (high - 0xD800) * 0x400 + (low - 0xDC00)) :: ·)
      else none
    else if isLowUnit high then none
    -- the first unit stands for itself, and the second may begin a pair
    else (assemble? (.unit low :: pieces)).map (Char.ofNat high :: ·)
  | .unit unit :: pieces =>
    if isHighUnit unit || isLowUnit unit then none
    else (assemble? pieces).map (Char.ofNat unit :: ·)

/-- A string behind its opening quote, and the text after it. -/
def readString? (text : List Char) : Option (String × List Char) :=
  match readPieces? text with
  | some (pieces, rest) => (assemble? pieces).map fun chars => (String.ofList chars, rest)
  | none => none

/-! ## Documents -/

/-- A construct at the start of a text, and the text after it. -/
abbrev Reader (α : Type) := List Char → Option (α × List Char)

/-- A fixed word. -/
def readWord? (word : List Char) (json : Json) (text : List Char) :
    Option (Json × List Char) :=
  if word.isPrefixOf text then some (json, text.drop word.length) else none

/-- A document that is no container. -/
def readScalar? (text : List Char) : Option (Json × List Char) :=
  match text with
  | '"' :: rest => (readString? rest).map fun (s, rest) => (.string s, rest)
  | 'n' :: _ => readWord? ['n', 'u', 'l', 'l'] .null text
  | 't' :: _ => readWord? ['t', 'r', 'u', 'e'] (.bool true) text
  | 'f' :: _ => readWord? ['f', 'a', 'l', 's', 'e'] (.bool false) text
  | _ => (readNumber? text).map fun (n, rest) => (.number n, rest)

/-- The items of an array, one at least, up to the closing bracket. Every item takes a
character, so there are at most as many as characters in `bound`, the text left at first. -/
def readItems? (nested : Reader Json) : List Char → Reader (List Json)
  | [], _ => none
  | _ :: bound, text =>
    match nested (skipSpace text) with
    | none => none
    | some (item, rest) =>
      match skipSpace rest with
      | ']' :: rest => some ([item], rest)
      | ',' :: rest =>
        (readItems? nested bound rest).map fun (items, rest) => (item :: items, rest)
      | _ => none

/-- A name, a colon and a document. -/
def readEntry? (nested : Reader Json) : Reader (String × Json) := fun text =>
  match text with
  | '"' :: rest =>
    match readString? rest with
    | none => none
    | some (name, rest) =>
      match skipSpace rest with
      | ':' :: rest => (nested (skipSpace rest)).map fun (json, rest) => ((name, json), rest)
      | _ => none
  | _ => none

/-- The entries of an object, one at least, up to the closing brace; their number is bounded
in the same way. -/
def readEntries? (nested : Reader Json) : List Char → Reader (List (String × Json))
  | [], _ => none
  | _ :: bound, text =>
    match readEntry? nested (skipSpace text) with
    | none => none
    | some (entry, rest) =>
      match skipSpace rest with
      | '\x7d' :: rest => some ([entry], rest)
      | ',' :: rest =>
        (readEntries? nested bound rest).map fun (entries, rest) => (entry :: entries, rest)
      | _ => none

/-- An array behind its opening bracket. -/
def readArray? (nested : Reader Json) : Reader Json := fun text =>
  match skipSpace text with
  | ']' :: rest => some (.array [], rest)
  | rest => (readItems? nested rest rest).map fun (items, rest) => (.array items, rest)

/-- An object behind its opening brace. -/
def readObject? (nested : Reader Json) : Reader Json := fun text =>
  match skipSpace text with
  | '\x7d' :: rest => some (.object [], rest)
  | rest =>
    (readEntries? nested rest rest).map fun (entries, rest) => (.object entries, rest)

/-- **A document** that nests containers at most that deep, at the start of a text. -/
def readValue? : Nat → Reader Json
  | 0, text =>
    match text with
    | '[' :: _ | '\x7b' :: _ => none
    | _ => readScalar? text
  | depth + 1, text =>
    match text with
    | '[' :: rest => readArray? (readValue? depth) rest
    | '\x7b' :: rest => readObject? (readValue? depth) rest
    | _ => readScalar? text

/-- The deepest nesting of containers in a text. -/
def nestingLimit : Nat := 127

/-- The document of a text that nests containers at most that deep. -/
def readWithin? (depth : Nat) (text : String) : Option Json :=
  match readValue? depth (skipSpace text.toList) with
  | some (json, rest) => if skipSpace rest = [] then some json else none
  | none => none

/-- **The document of a text.** -/
def read? (text : String) : Option Json := readWithin? nestingLimit text

end ScreenedExpr.Json
