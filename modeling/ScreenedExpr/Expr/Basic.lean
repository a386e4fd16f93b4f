import ScreenedExpr.Value.Basic

/-!
# Expressions

The tree of an expression. There is no call, no assignment and no constructor among the
nodes, so no tree can describe running code: an expression reads data and computes.

Whoever builds a tree by hand may put any value into a literal and any tree behind a point.
A text denotes no such tree: its literals are scalars, and behind a point stands a name.

* `Expr.dot` — a member by name, whose property is the literal of that name;
* `Expr.size` — the number of nodes, where the name behind a point is a node of its own;
* `Expr.height` — one for a leaf, and one more than its highest child for any other node.
-/

namespace ScreenedExpr

/-- An operator of two operands that are both evaluated. -/
inductive BinaryOp where
  | looseEqual | looseNotEqual | strictEqual | strictNotEqual
  | less | greater | lessEqual | greaterEqual
  | add | subtract | multiply | divide | remainder
deriving DecidableEq

/-- The spelling of a binary operator. -/
def BinaryOp.symbol : BinaryOp → String
  | looseEqual => "==" | looseNotEqual => "!="
  | strictEqual => "===" | strictNotEqual => "!=="
  | less => "<" | greater => ">" | lessEqual => "<=" | greaterEqual => ">="
  | add => "+" | subtract => "-" | multiply => "*" | divide => "/" | remainder => "%"

/-- An operator that evaluates its right operand only if the left does not decide. -/
inductive LogicalOp where
  | and | or
deriving DecidableEq

/-- An operator in front of its operand. -/
inductive UnaryOp where
  | not | negate
deriving DecidableEq

/-- An expression. -/
inductive Expr where
  /-- a value that the tree holds itself -/
  | literal (value : Value)
  /-- a name looked up in the context -/
  | identifier (name : String)
  /-- a member, by computed key as in `object[key]` or by name as in `object.name` -/
  | member (object property : Expr) (computed : Bool)
  /-- an operation on both operands -/
  | binary (op : BinaryOp) (left right : Expr)
  /-- an operation that may leave its right operand alone -/
  | logical (op : LogicalOp) (left right : Expr)
  /-- an operation on one operand -/
  | unary (op : UnaryOp) (operand : Expr)
  /-- one of two branches: `test ? consequent : alternate` -/
  | conditional (test consequent alternate : Expr)
deriving DecidableEq

namespace Expr

/-- A member by name: `object.name`. -/
def dot (object : Expr) (name : String) : Expr :=
  member object (literal (.string name)) false

/-- The number of nodes of a tree. -/
def size : Expr → Nat
  | literal _ | identifier _ => 1
  | member object property _ => object.size + property.size + 1
  | binary _ left right | logical _ left right => left.size + right.size + 1
  | unary _ operand => operand.size + 1
  | conditional test consequent alternate =>
    test.size + consequent.size + alternate.size + 1

/-- The number of nodes on the longest path from the root to a leaf. -/
def height : Expr → Nat
  | literal _ | identifier _ => 1
  | member object property _ => max object.height property.height + 1
  | binary _ left right | logical _ left right => max left.height right.height + 1
  | unary _ operand => operand.height + 1
  | conditional test consequent alternate =>
    max (max test.height consequent.height) alternate.height + 1

theorem one_le_height (e : Expr) : 1 ≤ e.height := by
  cases e <;> simp [height]

/-- The name behind a point is a leaf, and no leaf is higher than the object. -/
theorem height_dot (object : Expr) (name : String) :
    (dot object name).height = object.height + 1 := by
  have h := one_le_height object
  simp only [dot, height]
  omega

/-- A tree is at most as high as it has nodes. -/
theorem height_le_size (e : Expr) : e.height ≤ e.size := by
  induction e with
  | literal => exact Nat.le_refl _
  | identifier => exact Nat.le_refl _
  | _ => simp only [height, size]; omega

/-- A field path is a name followed by members with names or literal keys. -/
def isFieldPath : Expr → Bool
  | identifier _ => true
  | member object (literal _) _ => object.isFieldPath
  | _ => false

end Expr

end ScreenedExpr
