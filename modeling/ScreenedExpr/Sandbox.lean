import ScreenedExpr.Condition
import ScreenedExpr.Denylist.Rules
import ScreenedExpr.Expr.Parser

/-!
# The sandbox

The way from a text to a value leads through screening: a text is refused if it is blank,
too long, contains a name of the denylist, or is not an expression within the limits. The
first of these reasons, in this order, is the one reported. Nothing is evaluated before all
checks have passed, and an accepted expression cannot fail.

* `Sandbox.check`, `Sandbox.screen` — the expression of a text, or why it is refused;
* `Sandbox.evaluate`, `Sandbox.compile`, `Sandbox.fieldCondition` — the ways to use it.
-/

namespace ScreenedExpr

/-- Why a text is refused. -/
inductive RejectReason where
  /-- it has no character but blank ones -/
  | empty
  /-- it has more characters than allowed -/
  | tooLong (limit : Nat)
  /-- it contains a blocked name -/
  | denylisted (category : Denylist.Category)
  /-- it is not a sequence of tokens -/
  | lexical (error : LexError)
  /-- its tokens are not an expression within the limits -/
  | syntactic (error : SyntaxError)
  /-- it is an expression, but not a path to a field -/
  | notAFieldPath
deriving DecidableEq

/-- The wording of a reason. -/
def RejectReason.message : RejectReason → String
  | empty => "empty expression"
  | tooLong limit => s!"expression longer than {limit} characters"
  | denylisted category => s!"references a blocked identifier ({category.describe})"
  | lexical error => s!"invalid token: {error.message}"
  | syntactic error => s!"syntax error: {error.message}"
  | notAFieldPath => "not a field path"

/-- The reason that a text is no expression is a reason to refuse it. -/
def RejectReason.ofSource : SourceError → RejectReason
  | .lexical error => lexical error
  | .syntactic error => syntactic error

/-- A refused text and the reason. -/
structure Rejection where
  /-- the whole text -/
  expression : String
  /-- why it is refused -/
  reason : RejectReason
deriving DecidableEq

/-- The wording of a refusal. -/
def Rejection.message (rejection : Rejection) : String :=
  s!"expression not permitted: `{rejection.expression}` ({rejection.reason.message})"

/-- The rules under which texts are accepted. -/
structure Sandbox where
  /-- what an expression may cost -/
  limits : Limits
deriving DecidableEq

namespace Sandbox

/-- The sandbox with the standard limits. -/
def standard : Sandbox := ⟨.standard⟩

instance : Inhabited Sandbox := ⟨standard⟩

/-- The reason to refuse a text before any of it is read as a token. -/
def textual? (sandbox : Sandbox) (text : String) : Option RejectReason :=
  if text.toList.all Text.isBlank then some .empty
  else if sandbox.limits.length < text.toList.length then some (.tooLong sandbox.limits.length)
  else (Denylist.blocked? text).map .denylisted

/-- The expression of a text, or the reason to refuse it. -/
def check (sandbox : Sandbox) (text : String) : Except RejectReason Expr :=
  match sandbox.textual? text with
  | some reason => .error reason
  | none => (Expr.ofText sandbox.limits text).mapError .ofSource

/-- **Screening**: the expression of a text, or its refusal. -/
def screen (sandbox : Sandbox) (text : String) : Except Rejection Expr :=
  (sandbox.check text).mapError fun reason => ⟨text, reason⟩

/-- The text passes every check. -/
def accepts (sandbox : Sandbox) (text : String) : Bool := (sandbox.check text).isOk

/-- The value of a text in a context. -/
def evaluate (sandbox : Sandbox) (text : String) (context : Context) :
    Except Rejection Value :=
  (sandbox.screen text).map fun expr => expr.eval context

/-- The condition of a text. -/
def compile (sandbox : Sandbox) (text : String) : Except Rejection Condition :=
  (sandbox.screen text).map fun expr => ⟨text, expr⟩

/-- The expression of a text that is a path to a field: a name followed by steps with names
or literal keys. -/
def fieldPath (sandbox : Sandbox) (text : String) : Except Rejection Expr :=
  match sandbox.screen text with
  | .error rejection => .error rejection
  -- the shape is looked at last, when every other check has passed
  | .ok path => if path.isFieldPath then .ok path else .error ⟨text, .notAFieldPath⟩

/-- Compares the field at a path with a literal value. -/
def fieldCondition (sandbox : Sandbox) (path : String) (op : FieldOperator)
    (literal : Value) (context : Context) : Except Rejection Bool :=
  (sandbox.fieldPath path).map fun expr => op.compare (expr.eval context) literal

end Sandbox

end ScreenedExpr
