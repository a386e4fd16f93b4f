import ScreenedExpr.Token.Basic
import ScreenedExpr.Text.Blank

/-!
# Reading tokens

Reading one token has two layers. `scan` looks at a text that starts where a token should
start, and says which token it is, or what is wrong, and how many characters were taken;
it knows nothing of positions. A `Lexer` is what is left of the text together with the
offset reached; `Lexer.next` skips blank characters, scans, and places the result.

A failed scan takes characters too, so a lexer can be driven past an error:

* an unexpected character is left where it is, and will be met again;
* behind an invalid escape, reading goes on at the character that was escaped;
* an unterminated string takes everything to the end of the text;
* a malformed number takes its whole run of digits and points.

`tokenize` stops at the first error instead.
-/

namespace ScreenedExpr

/-- Why a text is not a sequence of tokens; positions are offsets of characters. -/
inductive LexError where
  /-- no token starts with this character here -/
  | unexpectedChar (char : Char) (position : Nat)
  /-- the string opened here is never closed -/
  | unterminatedString (position : Nat)
  /-- no escape is written with this character -/
  | invalidEscape (char : Char) (position : Nat)
  /-- a run of digits and points that is no number -/
  | malformedNumber (text : String) (position : Nat)
deriving DecidableEq

namespace LexError

/-- The wording of an error. -/
def message : LexError → String
  | unexpectedChar char position => s!"unexpected character '{char}' at position {position}"
  | unterminatedString position => s!"unterminated string starting at position {position}"
  | invalidEscape char position =>
    s!"invalid escape sequence '\\{char}' at position {position}"
  | malformedNumber text position => s!"malformed number '{text}' at position {position}"

/-- The same error in a text that starts that many characters later. -/
def shift (offset : Nat) : LexError → LexError
  | unexpectedChar char position => unexpectedChar char (offset + position)
  | unterminatedString position => unterminatedString (offset + position)
  | invalidEscape char position => invalidEscape char (offset + position)
  | malformedNumber text position => malformedNumber text (offset + position)

end LexError

/-! ## Strings -/

/-- The character that an escape stands for. -/
def unescape? : Char → Option Char
  | 'n' => some '\n'
  | 't' => some '\t'
  | 'r' => some '\r'
  | '"' => some '"'
  | '\'' => some '\''
  | '\\' => some '\\'
  | _ => none

/-- What follows an opening quote. -/
inductive StringBody where
  /-- a closed string: its decoded text, and the characters taken with the closing quote -/
  | closed (text : List Char) (length : Nat)
  /-- an escape that stands for nothing, and the characters before the escaped one -/
  | invalidEscape (char : Char) (length : Nat)
  /-- no closing quote -/
  | unterminated
deriving DecidableEq

/-- A body with one more character in front, which took `length` characters to write. -/
def StringBody.cons (char : Char) (length : Nat) : StringBody → StringBody
  | closed text taken => closed (char :: text) (taken + length)
  | invalidEscape escaped taken => invalidEscape escaped (taken + length)
  | unterminated => unterminated

/-- Reads a string behind its opening quote. -/
def scanString (quote : Char) : List Char → StringBody
  | [] => .unterminated
  | ['\\'] => .unterminated
  | '\\' :: escaped :: text =>
    match unescape? escaped with
    | some char => (scanString quote text).cons char 2
    | none => .invalidEscape escaped 1
  | char :: text =>
    if char = quote then .closed [] 1 else (scanString quote text).cons char 1

/-! ## One token -/

/-- A character of a run of digits and points. -/
def isNumberPart (c : Char) : Bool := c.isDigit || c == '.'

/-- The token that a run of digits and points makes. -/
def scanNumber (run : List Char) : Except LexError TokenKind :=
  match Decimal.read? run with
  | some d => .ok (.literal (.number (.ofDecimal false d)))
  | none => .error (.malformedNumber (String.ofList run) 0)

/-- **One token** at the start of a text, and the number of characters taken. Positions in
errors are counted from the start of this text. -/
def scan : List Char → Except LexError TokenKind × Nat
  | [] => (.ok .eof, 0)
  | c :: text =>
    if c = '"' ∨ c = '\'' then
      match scanString c text with
      | .closed body length => (.ok (.literal (.string (String.ofList body))), length + 1)
      | .invalidEscape escaped length =>
        (.error (.invalidEscape escaped (length + 1)), length + 1)
      | .unterminated => (.error (.unterminatedString 0), text.length + 1)
    else if isNameStart c then
      let name := (c :: text).takeWhile isNamePart
      (.ok (.ofName (String.ofList name)), name.length)
    else if c.isDigit then
      let run := (c :: text).takeWhile isNumberPart
      (scanNumber run, run.length)
    else match Mark.leading? (c :: text) with
      | some mark => (.ok (.mark mark), mark.symbol.length)
      | none => (.error (.unexpectedChar c 0), 0)

/-! ## A text from start to end -/

/-- The text still to be read, and the offset of its first character. -/
structure Lexer where
  /-- the characters not yet read -/
  rest : List Char
  /-- how many were read before them -/
  position : Nat
deriving DecidableEq

namespace Lexer

/-- A lexer at the start of a text. -/
def ofText (text : String) : Lexer := ⟨text.toList, 0⟩

/-- Skips blank characters. -/
def skipBlanks (lexer : Lexer) : Lexer :=
  ⟨lexer.rest.dropWhile Text.isBlank,
   lexer.position + (lexer.rest.takeWhile Text.isBlank).length⟩

/-- Moves past that many characters. -/
def advance (lexer : Lexer) (length : Nat) : Lexer :=
  ⟨lexer.rest.drop length, lexer.position + length⟩

/-- **The next token**, or what is wrong there, and the lexer after it. -/
def next (lexer : Lexer) : Except LexError Token × Lexer :=
  let here := lexer.skipBlanks
  let (result, length) := scan here.rest
  let after := here.advance length
  match result with
  | .ok kind => (.ok ⟨kind, ⟨here.position, after.position⟩⟩, after)
  | .error e => (.error (e.shift here.position), after)

/-- At most that many tokens, up to the end of the input or the first error. -/
def take : Nat → Lexer → Except LexError (List Token)
  | 0, _ => .ok []
  | count + 1, lexer =>
    match lexer.next with
    | (.error e, _) => .error e
    | (.ok token, after) =>
      if token.kind = .eof then .ok [token] else (after.take count).map (token :: ·)

end Lexer

/-- **The tokens of a text**, the last one being the end of the input. Every other token
takes a character at least, so the text's length bounds their number. -/
def tokenize (text : String) : Except LexError (List Token) :=
  (Lexer.ofText text).take (text.toList.length + 1)

end ScreenedExpr
