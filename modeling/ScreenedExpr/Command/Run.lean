import ScreenedExpr.Command.Arguments
import ScreenedExpr.Json.Limits
import ScreenedExpr.Json.Writer

/-!
# Running a command line

A run is a function of the arguments, the text of the file that configures the limits, and
the text of the standard input. The limits are read first; then the standard input, if the
arguments hold no data and the action needs some; then the action is done.

* exit code 0 — what was asked for is on the standard output;
* exit code 1 — the action failed;
* exit code 2 — the arguments are mistaken.
-/

namespace ScreenedExpr.Command

/-- What a run leaves behind. -/
structure Result where
  /-- the exit code -/
  code : UInt32
  /-- the text on the standard output -/
  output : String
  /-- why the action failed -/
  failure : Option Failure
deriving DecidableEq

/-- What is printed for the version. -/
def versionText : String := "cordon 0.1.0\n"

/-- What is printed for help. -/
def helpText : String :=
  "Usage: cordon [--config FILE] check EXPRESSION [-i JSON] [-p] [--syntax-only] [--condition]
       cordon [--config FILE] field PATH OPERATOR LITERAL [-i JSON]
"

/-- The limits of a run: the standard ones without a file, and else those of its text. -/
def readLimits (config : Option String) (fileText : Option String) :
    Except Failure Limits :=
  match config, fileText with
  | none, _ => .ok .standard
  | some _, none => .error .unreadable
  | some _, some text =>
    match Limits.read? text with
    | some limits => .ok limits
    | none => .error .invalidJson

/-- The action takes its data from the standard input. -/
def Action.readsInput : Action → Bool
  | .check request _ => !request.syntaxOnly && request.input.isNone
  | .field request => request.input.isNone

/-- The text that an answer to a check is printed as. -/
def CheckResult.text (pretty : Bool) : CheckResult → String
  | permitted => "Expression is permitted"
  | condition holds => if holds then "true" else "false"
  | value json => if pretty then json.indented else json.compact

/-- Does an action and gives the line to print. -/
def Action.perform (sandbox : Sandbox) (standardInput : String) :
    Action → Except Failure String
  | .check request pretty =>
    (Command.check sandbox { request with input := request.input.or (some standardInput) }).map
      (CheckResult.text pretty)
  | .field request =>
    (Command.field sandbox { request with input := request.input.or (some standardInput) }).map
      fun holds => if holds then "true" else "false"

/-- Does what an invocation asks for. -/
def Invocation.perform (invocation : Invocation) (fileText : Option String)
    (standardInput : String) : Except Failure String :=
  (readLimits invocation.config fileText).bind fun limits =>
    invocation.action.perform ⟨limits⟩ standardInput

/-- The result of reading the arguments when they ask for nothing to be done. -/
def Stop.result : Stop → Result
  | usage => ⟨2, "", none⟩
  | version => ⟨0, versionText, none⟩
  | help => ⟨0, helpText, none⟩

/-- The result of doing what was asked for. -/
def Result.ofOutcome : Except Failure String → Result
  | .ok line => ⟨0, line ++ "\n", none⟩
  | .error failure => ⟨1, "", some failure⟩

/-- **Runs a command line.** -/
def run (args : List String) (fileText : Option String) (standardInput : String) : Result :=
  match parseArguments args with
  | .error stop => stop.result
  | .ok invocation => .ofOutcome (invocation.perform fileText standardInput)

end ScreenedExpr.Command
