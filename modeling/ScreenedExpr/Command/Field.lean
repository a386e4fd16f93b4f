import ScreenedExpr.Command.Basic

/-!
# Comparing a field

One field of the data is compared with a literal value. The comparison is read first, then
the literal, then the data, and only then the path is screened.
-/

namespace ScreenedExpr.Command

/-- What is to be compared. -/
structure FieldRequest where
  /-- the text of the path to the field -/
  path : String
  /-- the spelling of the comparison -/
  operator : String
  /-- the text of the literal value, a document -/
  literal : String
  /-- the text of the data -/
  input : Option String
deriving DecidableEq

/-- **Compares a field.** -/
def field (sandbox : Sandbox) (request : FieldRequest) : Except Failure Bool := do
  let op ← readOperator request.operator
  let literal ← readJson request.literal
  let context ← readContext request.input
  (sandbox.fieldCondition request.path op (Value.ofJson literal) context).mapError .rejected

end ScreenedExpr.Command
