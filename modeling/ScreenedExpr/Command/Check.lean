import ScreenedExpr.Command.Basic

/-!
# Checking an expression

An expression is screened, and unless only that was asked for it is evaluated against the
data given: to a document, or to a truth value as a condition. The expression is screened
before the data is looked at, so a refusal does not depend on the data.
-/

namespace ScreenedExpr.Command

/-- What is to be checked, and how. -/
structure CheckRequest where
  /-- the text of the expression -/
  expression : String
  /-- the text of the data -/
  input : Option String
  /-- only screen the expression -/
  syntaxOnly : Bool
  /-- answer with a truth value -/
  condition : Bool
deriving DecidableEq

/-- The answer to a check. -/
inductive CheckResult where
  /-- the expression passes screening -/
  | permitted
  /-- the value of the expression -/
  | value (json : Json)
  /-- the truth of the condition -/
  | condition (holds : Bool)

/-- **Checks an expression.** -/
def check (sandbox : Sandbox) (request : CheckRequest) : Except Failure CheckResult :=
  if request.syntaxOnly then
    match sandbox.screen request.expression with
    | .error rejection => .error (.rejected rejection)
    | .ok _ => .ok .permitted
  else if request.condition then
    match sandbox.compile request.expression with
    | .error rejection => .error (.rejected rejection)
    | .ok condition =>
      (readContext request.input).map fun context => .condition (condition.holds context)
  else
    match sandbox.screen request.expression with
    | .error rejection => .error (.rejected rejection)
    | .ok expr =>
      (readContext request.input).map fun context => .value (expr.eval context).toJson

end ScreenedExpr.Command
