import ScreenedExpr.Expr.Basic
import ScreenedExpr.Context
import ScreenedExpr.Value.Comparison
import ScreenedExpr.Value.Member

/-!
# Evaluating expressions

Evaluation cannot fail: what is missing is `undefined`, and what is no number is *not a
number*. It only reads the context.

* `BinaryOp.apply`, `UnaryOp.apply` — operators on values;
* `Expr.eval` — a key is evaluated only if its object is not nullish, a right operand only
  if the left one does not decide, and of two branches only the one chosen.
-/

namespace ScreenedExpr

/-- Two values have the given order. -/
def Value.isOrdered (a b : Value) (order : Ordering → Bool) : Bool :=
  match a.compare? b with
  | some o => order o
  | none => false

/-- A binary operator on two values. -/
def BinaryOp.apply (op : BinaryOp) (a b : Value) : Value :=
  match op with
  | looseEqual => .boolean (a.looseEq b)
  | looseNotEqual => .boolean !(a.looseEq b)
  | strictEqual => .boolean (a.strictEq b)
  | strictNotEqual => .boolean !(a.strictEq b)
  | less => .boolean (a.isOrdered b Ordering.isLT)
  | greater => .boolean (a.isOrdered b Ordering.isGT)
  | lessEqual => .boolean (a.isOrdered b Ordering.isLE)
  | greaterEqual => .boolean (a.isOrdered b Ordering.isGE)
  | add => a.add b
  | subtract => .number (a.toNumber.sub b.toNumber)
  | multiply => .number (a.toNumber.mul b.toNumber)
  | divide => .number (a.toNumber.div b.toNumber)
  | remainder => .number (a.toNumber.rem b.toNumber)

/-- A unary operator on a value. -/
def UnaryOp.apply (op : UnaryOp) (a : Value) : Value :=
  match op with
  | not => .boolean !a.isTruthy
  | negate => .number a.toNumber.neg

/-- The left operand alone decides a logical operation. -/
def LogicalOp.decides (op : LogicalOp) (left : Value) : Bool :=
  match op with
  | and => !left.isTruthy
  | or => left.isTruthy

namespace Expr

/-- **The value of an expression** in a context. -/
def eval (context : Context) : Expr → Value
  | literal value => value
  | identifier name => context.value name
  | member object property _ =>
    let object := object.eval context
    if object.isNullish then .undefined else object.member (property.eval context)
  | binary op left right => op.apply (left.eval context) (right.eval context)
  | logical op left right =>
    let left := left.eval context
    if op.decides left then left else right.eval context
  | unary op operand => op.apply (operand.eval context)
  | conditional test consequent alternate =>
    if (test.eval context).isTruthy then consequent.eval context else alternate.eval context

end Expr

end ScreenedExpr
