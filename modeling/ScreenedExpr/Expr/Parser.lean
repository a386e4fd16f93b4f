import ScreenedExpr.Expr.Basic
import ScreenedExpr.Limits
import ScreenedExpr.Token.Lexer

/-!
# Parsing expressions

From weak to strong binding, an expression is

* a **conditional** `test ? consequent : alternate`, whose branches are full expressions;
* **connected operands**, at six strengths, each associating to the left:
  `||`, `&&`, equality, order, sum, product;
* an **operand**: `!` or `-` in front of an operand, or a member chain;
* a **member chain**: a primary followed by `.name` and `[expression]` steps;
* a **primary**: a literal, a name, or an expression in parentheses, which leave no node.

Two limits hold. The *depth* counts the expressions and prefix operators that enclose the
current token; what is left of it is the `room`, which every nested expression and every
prefix operator takes one from, and on which the recursion descends. The *height* of the
tree is checked whenever a node is completed.

A failure says where the parser stood: the tokens left and the room left there. A `Parser`
goes on from that point when it is asked again.
-/

namespace ScreenedExpr

/-! ## Errors -/

/-- What the grammar asked for. -/
inductive Expectation where
  /-- a certain mark -/
  | mark (mark : Mark)
  /-- a name behind a point -/
  | propertyName
deriving DecidableEq

/-- How an expectation is named in a message. -/
def Expectation.describe : Expectation → String
  | mark m => (TokenKind.mark m).describe
  | propertyName => "property name after '.'"

/-- Why a sequence of tokens is not an expression. -/
inductive SyntaxError where
  /-- something certain is missing in front of this token -/
  | expected (what : Expectation) (found : TokenKind) (span : Span)
  /-- no operand starts with this token -/
  | unexpectedToken (found : TokenKind) (span : Span)
  /-- the input ends too early -/
  | unexpectedEnd
  /-- an expression is complete, but the input goes on -/
  | trailingInput (found : TokenKind) (span : Span)
  /-- the nesting exceeds the limit -/
  | tooDeep (limit : Nat)
  /-- the tree exceeds the limit -/
  | tooTall (limit : Nat)
deriving DecidableEq

/-- The wording of a syntax error. -/
def SyntaxError.message : SyntaxError → String
  | expected what found span =>
    s!"expected {what.describe}, got {found.describe} at {span.describe}"
  | unexpectedToken found span => s!"unexpected {found.describe} at {span.describe}"
  | unexpectedEnd => "unexpected end of input"
  | trailingInput found span => s!"trailing input: {found.describe} at {span.describe}"
  | tooDeep limit => s!"expression nested deeper than {limit} levels"
  | tooTall limit => s!"expression tree taller than {limit} levels"

namespace Parser

/-- An error at the first of the tokens left; at the end of the input it is always the same
one. -/
def errorAt (error : TokenKind → Span → SyntaxError) : List Token → SyntaxError
  | [] => .unexpectedEnd
  | token :: _ => if token.kind = .eof then .unexpectedEnd else error token.kind token.span

/-! ## Outcomes -/

/-- An expression that was read, its height, and the tokens after it. -/
structure Parsed where
  /-- the tree -/
  expr : Expr
  /-- the height of the tree -/
  height : Nat
  /-- the tokens not yet read -/
  rest : List Token
deriving DecidableEq

/-- An error, and where the parser stood. -/
structure Failure where
  /-- what is wrong -/
  error : SyntaxError
  /-- the tokens not yet read -/
  rest : List Token
  /-- the nesting levels not yet used -/
  room : Nat
deriving DecidableEq

/-- What became of reading one construct. -/
abbrev Outcome := Except Failure Parsed

/-- A node completed in front of the tokens `rest`, unless it is too high. -/
def built (limits : Limits) (room : Nat) (expr : Expr) (height : Nat) (rest : List Token) :
    Outcome :=
  if limits.height < height then .error ⟨.tooTall limits.height, rest, room⟩
  else .ok ⟨expr, height, rest⟩

/-- The nesting is used up. -/
def tooDeep (limits : Limits) (tokens : List Token) : Outcome :=
  .error ⟨.tooDeep limits.depth, tokens, 0⟩

/-- Takes a mark that the grammar asks for. -/
def expect (room : Nat) (mark : Mark) (tokens : List Token) :
    Except Failure (List Token) :=
  match tokens with
  | ⟨.mark found, _⟩ :: rest =>
    if found = mark then .ok rest
    else .error ⟨errorAt (.expected (.mark mark)) tokens, tokens, room⟩
  | _ => .error ⟨errorAt (.expected (.mark mark)) tokens, tokens, room⟩

/-- Takes the name that the grammar asks for behind a point. -/
def propertyName (room : Nat) (tokens : List Token) :
    Except Failure (String × List Token) :=
  match tokens with
  | [] => .error ⟨errorAt (.expected .propertyName) tokens, tokens, room⟩
  | token :: rest =>
    match token.kind.propertyName? with
    | some name => .ok (name, rest)
    | none => .error ⟨errorAt (.expected .propertyName) tokens, tokens, room⟩

/-- Extends an expression by further steps as long as there are any. Every step takes a
token, so there are at most as many steps as tokens in `bound`, the tokens left at first. -/
def extend (step : Parsed → Option Outcome) : List Token → Parsed → Outcome
  | [], left => .ok left
  | _ :: bound, left =>
    match step left with
    | none => .ok left
    | some (.error failure) => .error failure
    | some (.ok longer) => extend step bound longer

/-! ## Primaries and member chains -/

/-- A literal, a name, or an expression in parentheses. -/
def primary (limits : Limits) (room : Nat) (nested : List Token → Outcome)
    (tokens : List Token) : Outcome :=
  match tokens with
  | ⟨.literal value, _⟩ :: rest => built limits room (.literal (.ofLiteral value)) 1 rest
  | ⟨.identifier name, _⟩ :: rest => built limits room (.identifier name) 1 rest
  | ⟨.mark .leftParen, _⟩ :: rest => do
    let inner ← nested rest
    let rest ← expect room .rightParen inner.rest
    return { inner with rest }
  | _ => .error ⟨errorAt .unexpectedToken tokens, tokens, room⟩

/-- One step of a member chain, if there is one. -/
def memberStep (limits : Limits) (room : Nat) (nested : List Token → Outcome)
    (object : Parsed) : Option Outcome :=
  match object.rest with
  | ⟨.mark .dot, _⟩ :: rest => some do
    let (name, rest) ← propertyName room rest
    built limits room (.dot object.expr name) (object.height + 1) rest
  | ⟨.mark .leftBracket, _⟩ :: rest => some do
    let key ← nested rest
    let rest ← expect room .rightBracket key.rest
    built limits room (.member object.expr key.expr true) (max object.height key.height + 1)
      rest
  | _ => none

/-- A primary and the member steps behind it. -/
def member (limits : Limits) (room : Nat) (nested : List Token → Outcome)
    (tokens : List Token) : Outcome := do
  let object ← primary limits room nested tokens
  extend (memberStep limits room nested) object.rest object

/-! ## Operators -/

/-- An operator between two operands. -/
inductive Connective where
  /-- both operands are evaluated -/
  | binary (op : BinaryOp)
  /-- the right operand may be left alone -/
  | logical (op : LogicalOp)
deriving DecidableEq

/-- The node of two connected operands. -/
def Connective.node : Connective → Expr → Expr → Expr
  | binary op => .binary op
  | logical op => .logical op

/-- The operator of a mark, and its strength: the greater, the weaker it binds. -/
def connective? : Mark → Option (Nat × Connective)
  | .star => some (0, .binary .multiply)
  | .slash => some (0, .binary .divide)
  | .percent => some (0, .binary .remainder)
  | .plus => some (1, .binary .add)
  | .minus => some (1, .binary .subtract)
  | .less => some (2, .binary .less)
  | .greater => some (2, .binary .greater)
  | .lessEqual => some (2, .binary .lessEqual)
  | .greaterEqual => some (2, .binary .greaterEqual)
  | .looseEqual => some (3, .binary .looseEqual)
  | .looseNotEqual => some (3, .binary .looseNotEqual)
  | .strictEqual => some (3, .binary .strictEqual)
  | .strictNotEqual => some (3, .binary .strictNotEqual)
  | .andAnd => some (4, .logical .and)
  | .orOr => some (5, .logical .or)
  | _ => none

/-- The number of strengths. -/
def strengths : Nat := 6

/-- The operator of a token, if it has the given strength. -/
def connectiveAt (strength : Nat) : TokenKind → Option Connective
  | .mark mark =>
    match connective? mark with
    | some (s, connective) => if s = strength then some connective else none
    | none => none
  | _ => none

/-- One more operator of the given strength and its right operand, if there is one. -/
def connectedStep (limits : Limits) (room strength : Nat) (operand : List Token → Outcome)
    (left : Parsed) : Option Outcome :=
  match left.rest with
  | [] => none
  | token :: rest =>
    match connectiveAt strength token.kind with
    | none => none
    | some connective => some do
      let right ← operand rest
      built limits room (connective.node left.expr right.expr)
        (max left.height right.height + 1) right.rest

/-- Operands connected by operators of strengths below the given one. -/
def connected (limits : Limits) (room : Nat) (operand : List Token → Outcome) :
    Nat → List Token → Outcome
  | 0, tokens => operand tokens
  | strength + 1, tokens => do
    let left ← connected limits room operand strength tokens
    extend (connectedStep limits room strength (connected limits room operand strength))
      left.rest left

/-- Connected operands, or a conditional that they are the test of. -/
def conditional (limits : Limits) (room : Nat) (nested operand : List Token → Outcome)
    (tokens : List Token) : Outcome := do
  let test ← connected limits room operand strengths tokens
  match test.rest with
  | ⟨.mark .question, _⟩ :: rest =>
    let consequent ← nested rest
    let rest ← expect room .colon consequent.rest
    let alternate ← nested rest
    built limits room (.conditional test.expr consequent.expr alternate.expr)
      (max (max test.height consequent.height) alternate.height + 1) alternate.rest
  | _ => return test

/-- An operator in front of an operand, or a member chain. -/
def prefixed (limits : Limits) (room : Nat) (nested operand : List Token → Outcome)
    (tokens : List Token) : Outcome :=
  match tokens with
  | ⟨.mark .bang, _⟩ :: rest => do
    let inner ← operand rest
    built limits room (.unary .not inner.expr) (inner.height + 1) inner.rest
  | ⟨.mark .minus, _⟩ :: rest => do
    let inner ← operand rest
    built limits room (.unary .negate inner.expr) (inner.height + 1) inner.rest
  | _ => member limits room nested tokens

/-! ## The recursion -/

mutual

/-- **An expression**, with room for that many nested levels. -/
def expression (limits : Limits) : Nat → List Token → Outcome
  | 0, tokens => tooDeep limits tokens
  | room + 1, tokens =>
    conditional limits room (expression limits room) (operand limits room) tokens

/-- **An operand**, with room for that many nested levels. -/
def operand (limits : Limits) : Nat → List Token → Outcome
  | 0, tokens => prefixed limits 0 (tooDeep limits) (tooDeep limits) tokens
  | room + 1, tokens =>
    prefixed limits (room + 1)
      (conditional limits room (expression limits room) (operand limits room))
      (operand limits room) tokens

end

/-- What is nested in an operand with room to spare is an expression with the same room. -/
theorem operand_succ (limits : Limits) (room : Nat) :
    operand limits (room + 1) =
      prefixed limits (room + 1) (expression limits (room + 1)) (operand limits room) :=
  funext fun _ => rfl

/-- An expression in a room is a conditional in the room left. -/
theorem expression_succ (limits : Limits) (room : Nat) :
    expression limits (room + 1) =
      conditional limits room (expression limits room) (operand limits room) :=
  funext fun _ => rfl

end Parser

/-! ## Parsers that can be asked again -/

/-- A sequence of tokens with an end: one is added if the last token is not an end. -/
def closeTokens (tokens : List Token) : List Token :=
  match tokens.getLast? with
  | none => [⟨.eof, ⟨0, 0⟩⟩]
  | some last =>
    if last.kind = .eof then tokens
    else tokens ++ [⟨.eof, ⟨last.span.stop, last.span.stop⟩⟩]

/-- The state of a parser between two requests. -/
structure Parser where
  /-- the limits it works under -/
  limits : Limits
  /-- the nesting levels not yet used -/
  room : Nat
  /-- the tokens not yet read -/
  rest : List Token
deriving DecidableEq

namespace Parser

/-- A parser at the start of a sequence of tokens. -/
def ofTokens (limits : Limits) (tokens : List Token) : Parser :=
  ⟨limits, limits.depth, closeTokens tokens⟩

/-- Reads one expression. Room taken by a failure is not given back. -/
def nextExpr (parser : Parser) : Except SyntaxError Expr × Parser :=
  match expression parser.limits parser.room parser.rest with
  | .ok parsed => (.ok parsed.expr, { parser with rest := parsed.rest })
  | .error failure =>
    (.error failure.error, { parser with room := failure.room, rest := failure.rest })

/-- Reads one expression that has to reach the end of the input. -/
def whole (parser : Parser) : Except SyntaxError Expr × Parser :=
  match parser.nextExpr with
  | (.error e, after) => (.error e, after)
  | (.ok expr, after) =>
    match after.rest with
    | [] => (.ok expr, after)
    | token :: _ =>
      if token.kind = .eof then (.ok expr, after)
      else (.error (.trailingInput token.kind token.span), after)

end Parser

/-! ## From tokens and from text -/

/-- **The expression** that a sequence of tokens is. -/
def Expr.ofTokens (limits : Limits) (tokens : List Token) : Except SyntaxError Expr :=
  (Parser.ofTokens limits tokens).whole.1

/-- Why a text is not an expression. -/
inductive SourceError where
  /-- it is not a sequence of tokens -/
  | lexical (error : LexError)
  /-- its tokens are not an expression -/
  | syntactic (error : SyntaxError)
deriving DecidableEq

/-- The wording of the error. -/
def SourceError.message : SourceError → String
  | lexical e => e.message
  | syntactic e => e.message

/-- **The expression** that a text is. -/
def Expr.ofText (limits : Limits) (text : String) : Except SourceError Expr :=
  match tokenize text with
  | .error e => .error (.lexical e)
  | .ok tokens => (Expr.ofTokens limits tokens).mapError .syntactic

end ScreenedExpr
