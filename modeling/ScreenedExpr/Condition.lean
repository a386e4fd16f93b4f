import ScreenedExpr.Expr.Eval

/-!
# Conditions

A condition is an expression that was screened once and is evaluated any number of times,
as a value or as a truth value. A *field condition* compares one field of the data with a
literal value by one of eight operators.
-/

namespace ScreenedExpr

/-- A screened expression, with its text. -/
structure Condition where
  /-- the text it was read from -/
  source : String
  /-- the expression -/
  expr : Expr
deriving DecidableEq

namespace Condition

/-- The value of a condition. -/
def value (condition : Condition) (context : Context) : Value := condition.expr.eval context

/-- The truth of a condition. -/
def holds (condition : Condition) (context : Context) : Bool :=
  (condition.value context).isTruthy

end Condition

/-- A comparison of a field with a literal. -/
inductive FieldOperator where
  | strictEqual | strictNotEqual | looseEqual | looseNotEqual
  | greater | greaterEqual | less | lessEqual
deriving DecidableEq

namespace FieldOperator

/-- All field operators. -/
def all : List FieldOperator :=
  [strictEqual, strictNotEqual, looseEqual, looseNotEqual,
   greater, greaterEqual, less, lessEqual]

/-- The operator of expressions that does the comparison. -/
def toBinaryOp : FieldOperator → BinaryOp
  | strictEqual => .strictEqual
  | strictNotEqual => .strictNotEqual
  | looseEqual => .looseEqual
  | looseNotEqual => .looseNotEqual
  | greater => .greater
  | greaterEqual => .greaterEqual
  | less => .less
  | lessEqual => .lessEqual

/-- The spelling of a field operator. -/
def symbol (op : FieldOperator) : String := op.toBinaryOp.symbol

/-- The field operator that a text spells. -/
def ofSymbol? (text : String) : Option FieldOperator :=
  all.find? fun op => op.symbol == text

/-- The outcome of a comparison. -/
def compare (op : FieldOperator) (actual literal : Value) : Bool :=
  (op.toBinaryOp.apply actual literal).isTruthy

end FieldOperator

end ScreenedExpr
