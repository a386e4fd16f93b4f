import ScreenedExpr.Command.Run

/-!
# The program

The outer layer: it reads the file and the standard input that a run needs, and prints what
the run leaves behind.
-/

namespace ScreenedExpr.Command

/-- The text of a file, if it can be read. -/
def readText? (path : String) : IO (Option String) := do
  try
    return some (← IO.FS.readFile path)
  catch _ =>
    return none

/-- The text of the file that an invocation names. -/
def configText? (invocation : Invocation) : IO (Option String) :=
  match invocation.config with
  | some path => readText? path
  | none => return none

/-- The text of the standard input, if an invocation reads it. -/
def inputText (invocation : Invocation) : IO String := do
  if invocation.action.readsInput then (← IO.getStdin).readToEnd else return ""

/-- Prints a result and gives the exit code. -/
def report (result : Result) : IO UInt32 := do
  IO.print result.output
  match result.failure with
  | some failure => IO.eprintln failure.message
  | none => pure ()
  return result.code

end ScreenedExpr.Command

open ScreenedExpr.Command in
/-- Runs the program on its arguments. -/
def main (args : List String) : IO UInt32 := do
  match parseArguments args with
  | .error stop => report stop.result
  | .ok invocation =>
    let fileText ← configText? invocation
    match readLimits invocation.config fileText with
    | .error failure => report (.ofOutcome (.error failure))
    | .ok _ => report (run args fileText (← inputText invocation))
