import ScreenedExpr.Sandbox
import ScreenedExpr.Json.Reader
import ScreenedExpr.Json.Convert

/-!
# Commands

What every command has in common: the ways in which one can fail, and the reading of the
data that an expression is evaluated against, which arrives as the text of a JSON object.
-/

namespace ScreenedExpr.Command

/-- Why a command fails. -/
inductive Failure where
  /-- the expression is refused -/
  | rejected (rejection : Rejection)
  /-- the data is no object, but a value of this type -/
  | invalidContext (found : String)
  /-- there is no such comparison -/
  | unknownOperator (symbol : String)
  /-- a text is no document, or not one of the form asked for -/
  | invalidJson
  /-- a file or the standard input cannot be read -/
  | unreadable
  /-- there is no data -/
  | noInput
deriving DecidableEq

/-- The wording of a failure. -/
def Failure.message : Failure → String
  | rejected rejection => rejection.message
  | invalidContext found => s!"context must be a JSON object, got {found}"
  | unknownOperator symbol => s!"unsupported field operator '{symbol}'"
  | invalidJson => "Invalid JSON"
  | unreadable => "IO error"
  | noInput => "No input provided. Use --input or pipe JSON to stdin."

/-- The context of a document. -/
def contextOfJson (json : Json) : Except Failure Context :=
  (Context.ofValue? (Value.ofJson json)).mapError .invalidContext

/-- The document of a text. -/
def readJson (text : String) : Except Failure Json :=
  match Json.read? text with
  | some json => .ok json
  | none => .error .invalidJson

/-- The context of the data given to a command. -/
def readContext (input : Option String) : Except Failure Context :=
  match input with
  | none => .error .noInput
  | some text => (readJson text).bind contextOfJson

/-- The comparison that a text spells. -/
def readOperator (text : String) : Except Failure FieldOperator :=
  match FieldOperator.ofSymbol? text with
  | some op => .ok op
  | none => .error (.unknownOperator text)

end ScreenedExpr.Command
