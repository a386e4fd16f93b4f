import ScreenedExpr.Literal
import ScreenedExpr.Decimal.Layout

/-!
# Tokens

A source text is read as a sequence of tokens: literals, names, and the fixed *marks* that
serve as operators and punctuation. Each token knows the span of characters it was read
from. The sequence ends with one token for the end of the input.

* `Mark.symbol` — how a mark is spelled;
* `TokenKind.ofName` — the four keywords, and every other name;
* `TokenKind.describe` — how a token is named in a message.
-/

namespace ScreenedExpr

/-- A half-open range of character offsets in the source text. -/
structure Span where
  /-- the offset of the first character -/
  start : Nat
  /-- the offset after the last character -/
  stop : Nat
deriving DecidableEq

/-- A span in a message: `3..5`. -/
def Span.describe (span : Span) : String := s!"{span.start}..{span.stop}"

/-! ## Marks -/

/-- An operator or a piece of punctuation. -/
inductive Mark where
  | looseEqual | looseNotEqual | strictEqual | strictNotEqual
  | less | greater | lessEqual | greaterEqual
  | plus | minus | star | slash | percent
  | andAnd | orOr | bang
  | question | colon
  | leftParen | rightParen | leftBracket | rightBracket
  | dot | comma
deriving DecidableEq

/-- The spelling of a mark. -/
def Mark.symbol : Mark → String
  | looseEqual => "==" | looseNotEqual => "!="
  | strictEqual => "===" | strictNotEqual => "!=="
  | less => "<" | greater => ">" | lessEqual => "<=" | greaterEqual => ">="
  | plus => "+" | minus => "-" | star => "*" | slash => "/" | percent => "%"
  | andAnd => "&&" | orOr => "||" | bang => "!"
  | question => "?" | colon => ":"
  | leftParen => "(" | rightParen => ")" | leftBracket => "[" | rightBracket => "]"
  | dot => "." | comma => ","

/-- The longest mark that a text starts with. -/
def Mark.leading? : List Char → Option Mark
  | '=' :: '=' :: '=' :: _ => some strictEqual
  | '=' :: '=' :: _ => some looseEqual
  | '!' :: '=' :: '=' :: _ => some strictNotEqual
  | '!' :: '=' :: _ => some looseNotEqual
  | '!' :: _ => some bang
  | '<' :: '=' :: _ => some lessEqual
  | '<' :: _ => some less
  | '>' :: '=' :: _ => some greaterEqual
  | '>' :: _ => some greater
  | '&' :: '&' :: _ => some andAnd
  | '|' :: '|' :: _ => some orOr
  | '+' :: _ => some plus
  | '-' :: _ => some minus
  | '*' :: _ => some star
  | '/' :: _ => some slash
  | '%' :: _ => some percent
  | '?' :: _ => some question
  | ':' :: _ => some colon
  | '(' :: _ => some leftParen
  | ')' :: _ => some rightParen
  | '[' :: _ => some leftBracket
  | ']' :: _ => some rightBracket
  | '.' :: _ => some dot
  | ',' :: _ => some comma
  | _ => none

/-- A mark spelled at the end of a text is found there. -/
theorem Mark.leading?_symbol (mark : Mark) : leading? mark.symbol.toList = some mark := by
  cases mark <;> rfl

/-! ## Kinds of token -/

/-- What a token is, apart from where it stands. -/
inductive TokenKind where
  /-- a literal -/
  | literal (value : Literal)
  /-- a name that is not a keyword -/
  | identifier (name : String)
  /-- an operator or a piece of punctuation -/
  | mark (mark : Mark)
  /-- the end of the input -/
  | eof
deriving DecidableEq

/-- A name starts with an ASCII letter, `_` or `$`. -/
def isNameStart (c : Char) : Bool := c.isAlpha || c == '_' || c == '$'

/-- A name goes on with ASCII letters, ASCII digits, `_` and `$`. -/
def isNamePart (c : Char) : Bool := c.isAlphanum || c == '_' || c == '$'

/-- The token that a name makes: a keyword's literal, or an identifier. -/
def TokenKind.ofName (name : String) : TokenKind :=
  if name = "true" then literal (.boolean true)
  else if name = "false" then literal (.boolean false)
  else if name = "null" then literal .null
  else if name = "undefined" then literal .undefined
  else identifier name

/-- The name that a token stands for behind a point, where keywords are ordinary names. -/
def TokenKind.propertyName? : TokenKind → Option String
  | identifier name => some name
  | literal (.boolean true) => some "true"
  | literal (.boolean false) => some "false"
  | literal .null => some "null"
  | literal .undefined => some "undefined"
  | _ => none

/-- Numbers in messages are always positional. -/
def messageLayout : Decimal.Layout := ⟨none, false, .away⟩

/-- The text of a number in a message; here a negative zero shows its sign. -/
def describeNumber : Double → String
  | .nan => "NaN"
  | .infinite false => "inf"
  | .infinite true => "-inf"
  | .finite negative units _ => messageLayout.text negative units

/-- How a token is named in a message. -/
def TokenKind.describe : TokenKind → String
  | literal (.number n) => "number " ++ describeNumber n
  | literal (.string _) => "string literal"
  | literal (.boolean b) => if b then "true" else "false"
  | literal .null => "null"
  | literal .undefined => "undefined"
  | identifier name => s!"identifier '{name}'"
  | mark m => s!"'{m.symbol}'"
  | eof => "end of input"

/-- A token and the characters it was read from. -/
structure Token where
  /-- what the token is -/
  kind : TokenKind
  /-- where it stands -/
  span : Span
deriving DecidableEq

/-- A name keeps its spelling behind a point, keyword or not. -/
theorem TokenKind.propertyName?_ofName (name : String) :
    (ofName name).propertyName? = some name := by
  unfold ofName
  split
  · next h => simp [propertyName?, h]
  split
  · next h => simp [propertyName?, h]
  split
  · next h => simp [propertyName?, h]
  split
  · next h => simp [propertyName?, h]
  · rfl

end ScreenedExpr
