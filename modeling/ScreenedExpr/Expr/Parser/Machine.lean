import ScreenedExpr.Expr.Parser

/-!
# The parser at work

How a parser works in place. It holds all its tokens, those it has read too, and a position
among them; it counts the levels it has entered; and it has one register for the height of the
tree that was completed last. A literal and a name are taken out of the tokens, and an end of
the input is left where they stood.

Every action changes this state, whether it succeeds or is refused, and a refusal leaves the
state as it is at that moment: the levels entered are not left again. So a machine can be asked
again after a refusal.

What must not happen is a `Crash`: a position without a token, a level left that was not
entered, a token of no kind that was tested for, and a loop or a recursion that goes on beyond
its bound. A refusal is an answer, a crash is none.

* `Parser.Machine` — the state;
* `Parser.Machine.Action` — what changes it;
* `Parser.Machine.expression` — reading an expression;
* `Parser.Machine.Request` — what a machine can be asked for.
-/

namespace ScreenedExpr.Parser

/-- What a parser must never come to. -/
inductive Crash where
  /-- no token stands at the position -/
  | noToken
  /-- a level is left that was not entered -/
  | noLevel
  /-- a token is of none of the kinds that were tested for -/
  | noKind
  /-- a loop or a recursion goes on beyond its bound -/
  | endless
deriving DecidableEq

/-- **The state of a parser at work.** -/
structure Machine where
  /-- the limits it works under -/
  limits : Limits
  /-- all tokens, read or not -/
  tokens : Array Token
  /-- how many tokens are read -/
  position : Nat
  /-- how many levels are entered -/
  depth : Nat
  /-- the height of the tree completed last -/
  height : Nat
deriving DecidableEq

namespace Machine

/-- **An action**: from a state it comes to another with a result or a refusal, or it crashes. -/
abbrev Action : Type → Type := ExceptT SyntaxError (StateT Machine (Except Crash))

/-- Comes to no state. -/
def crash {α : Type} (what : Crash) : Action α := throwThe Crash what

/-! ## Tokens -/

/-- The token at the position. -/
def current : Action Token := do
  let machine ← get
  match machine.tokens[machine.position]? with
  | some token => return token
  | none => crash .noToken

/-- Moves to the next token, if there is one. -/
def advance : Action Unit := modify fun machine =>
  if machine.position + 1 < machine.tokens.size then
    { machine with position := machine.position + 1 }
  else machine

/-- Takes the token at the position out of the tokens, and moves to the next one. -/
def bump : Action Token := do
  let token ← current
  modify fun machine =>
    { machine with
      tokens := machine.tokens.setIfInBounds machine.position ⟨.eof, token.span⟩ }
  advance
  return token

/-- Whether a certain mark stands at the position. -/
def check (mark : Mark) : Action Bool := return (← current).kind = .mark mark

/-- Refuses the token at the position. -/
def refuse {α : Type} (error : TokenKind → Span → SyntaxError) : Action α := do
  let token ← current
  throw (errorAt error [token])

/-- Takes a mark that the grammar asks for. -/
def expect (mark : Mark) : Action Unit := do
  if ← check mark then advance else refuse (.expected (.mark mark))

/-! ## Depth and height -/

/-- Enters a level. It is entered also if it is too deep. -/
def descend : Action Unit := do
  modify fun machine => { machine with depth := machine.depth + 1 }
  let machine ← get
  if machine.limits.depth < machine.depth then throw (.tooDeep machine.limits.depth)

/-- Leaves a level. -/
def ascend : Action Unit := do
  let machine ← get
  if machine.depth = 0 then crash .noLevel
  set { machine with depth := machine.depth - 1 }

/-- Reads something one level deeper. -/
def enclosed (action : Action Expr) : Action Expr := do
  descend
  let expr ← action
  ascend
  return expr

/-- The height of the tree completed last. -/
def lastHeight : Action Nat := return (← get).height

/-- Completes a tree of that height. -/
def built (height : Nat) : Action Unit := do
  let machine ← get
  if machine.limits.height < height then throw (.tooTall machine.limits.height)
  set { machine with height }

/-! ## Loops -/

/-- A tree, and its height as a loop keeps it for itself. -/
abbrev Partial := Expr × Nat

/-- Extends a tree by further steps as long as there are any, and no more than the bound. -/
def extend (step : Partial → Action (Option Partial)) : Nat → Partial → Action Expr
  | 0, _ => crash .endless
  | bound + 1, left => do
    match ← step left with
    | some longer => extend step bound longer
    | none => return left.1

/-- Extends the tree completed last. Every step takes a token, so no loop makes more steps
than there are tokens. -/
def extended (step : Partial → Action (Option Partial)) (first : Expr) : Action Expr := do
  let machine ← get
  extend step machine.tokens.size (first, machine.height)

/-! ## Primaries and member chains -/

/-- Takes a literal or a name. -/
def leaf : Action Expr := do
  match (← bump).kind with
  | .literal value => return .literal (.ofLiteral value)
  | .identifier name => return .identifier name
  | _ => crash .noKind

/-- A literal, a name, or an expression in parentheses. -/
def primary (nested : Action Expr) : Action Expr := do
  match (← current).kind with
  | .literal _ | .identifier _ =>
    let expr ← leaf
    built 1
    return expr
  | .mark .leftParen =>
    advance
    let expr ← nested
    expect .rightParen
    return expr
  | _ => refuse .unexpectedToken

/-- Takes the name that the grammar asks for behind a point. -/
def propertyName : Action String := do
  match (← current).kind.propertyName? with
  | some name =>
    advance
    return name
  | none => refuse (.expected .propertyName)

/-- One step of a member chain, if there is one. -/
def memberStep (nested : Action Expr) (object : Partial) : Action (Option Partial) := do
  if ← check .dot then
    advance
    let name ← propertyName
    let height := object.2 + 1
    built height
    return some (.dot object.1 name, height)
  else if ← check .leftBracket then
    advance
    let key ← nested
    expect .rightBracket
    let height := max object.2 (← lastHeight) + 1
    built height
    return some (.member object.1 key true, height)
  else return none

/-- A primary and the member steps behind it. -/
def member (nested : Action Expr) : Action Expr := do
  let object ← primary nested
  extended (memberStep nested) object

/-! ## Operators -/

/-- One more operator of the given strength and its right operand, if there is one. -/
def connectedStep (strength : Nat) (operand : Action Expr) (left : Partial) :
    Action (Option Partial) := do
  match connectiveAt strength (← current).kind with
  | some connective =>
    advance
    let right ← operand
    let height := max left.2 (← lastHeight) + 1
    built height
    return some (connective.node left.1 right, height)
  | none => return none

/-- Operands connected by operators of strengths below the given one. -/
def connected (operand : Action Expr) : Nat → Action Expr
  | 0 => operand
  | strength + 1 => do
    let left ← connected operand strength
    extended (connectedStep strength (connected operand strength)) left

/-- Connected operands, or a conditional that they are the test of. -/
def conditional (nested operand : Action Expr) : Action Expr := do
  let test ← connected operand strengths
  let height ← lastHeight
  if ← check .question then
    advance
    let consequent ← nested
    let height := max height (← lastHeight)
    expect .colon
    let alternate ← nested
    built (max height (← lastHeight) + 1)
    return .conditional test consequent alternate
  else return test

/-- An operator in front of an operand. -/
def negated (op : UnaryOp) (operand : Action Expr) : Action Expr := do
  advance
  let inner ← enclosed operand
  built ((← lastHeight) + 1)
  return .unary op inner

/-- An operator in front of an operand, or a member chain. -/
def prefixed (nested operand : Action Expr) : Action Expr := do
  match (← current).kind with
  | .mark .bang => negated .not operand
  | .mark .minus => negated .negate operand
  | _ => member nested

/-! ## The recursion -/

mutual

/-- **An expression.** Each call of one part of the recursion by the other takes one from the
bound. -/
def expression : Nat → Machine → Except Crash (Except SyntaxError Expr × Machine)
  | 0, machine => crash .endless machine
  | bound + 1, machine => enclosed (conditional (expression bound) (operand bound)) machine

/-- **An operand.** -/
def operand : Nat → Machine → Except Crash (Except SyntaxError Expr × Machine)
  | 0, machine => crash .endless machine
  | bound + 1, machine => prefixed (expression bound) (operand bound) machine

end

/-! ## Requests -/

/-- A machine at the start of a sequence of tokens. -/
def ofTokens (limits : Limits) (tokens : List Token) : Machine :=
  ⟨limits, (closeTokens tokens).toArray, 0, 0, 0⟩

/-- Reads one expression. At each level an operand may call for an expression and an
expression for an operand, before the levels are used up. -/
def nextExpr : Action Expr := do
  let machine ← get
  expression (2 * machine.limits.depth + 1)

/-- Reads one expression that has to reach the end of the input. -/
def whole : Action Expr := do
  let expr ← nextExpr
  let token ← current
  if token.kind = .eof then return expr
  else throw (.trailingInput token.kind token.span)

/-- What a machine can be asked for. -/
inductive Request where
  /-- one expression -/
  | expression
  /-- one expression up to the end of the input -/
  | whole
deriving DecidableEq

/-- **Answers a request.** -/
def answer : Request → Machine → Except Crash (Except SyntaxError Expr × Machine)
  | .expression => nextExpr
  | .whole => whole

/-- Answers requests one after the other, whatever came of those before. -/
def answers : List Request → Machine → Except Crash (List (Except SyntaxError Expr) × Machine)
  | [], machine => .ok ([], machine)
  | request :: requests, machine => do
    let (first, machine) ← answer request machine
    let (others, machine) ← answers requests machine
    return (first :: others, machine)

end Machine

end ScreenedExpr.Parser
