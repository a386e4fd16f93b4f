import ScreenedExpr.Command.Check
import ScreenedExpr.Command.Field

/-!
# Command line arguments

A command line is a command's name and its operands, mixed with switches. A switch has a
long name, possibly a letter, and possibly a value: `--input VALUE`, `--input=VALUE`,
`-i VALUE`, `-iVALUE`, `-i=VALUE`. Letters of switches without values may be joined. Behind
a lone `--` everything is an operand; otherwise nothing is that starts with `-`, a lone `-`
apart, and no such argument is taken as the value of a switch before it.

No switch may be given twice at the same place. `--config` may stand before the command's
name as well as behind it, and the later place wins. Arguments are read from left to right,
and the first mistake or request for help or the version ends the reading.
-/

namespace ScreenedExpr.Command

/-- A switch. -/
inductive Switch where
  | config | input | pretty | syntaxOnly | condition | version | help
deriving DecidableEq

namespace Switch

/-- The long name, written behind `--`. -/
def long : Switch → String
  | config => "config"
  | input => "input"
  | pretty => "pretty"
  | syntaxOnly => "syntax-only"
  | condition => "condition"
  | version => "version"
  | help => "help"

/-- The letter, written behind `-`. -/
def letter? : Switch → Option Char
  | input => some 'i'
  | pretty => some 'p'
  | version => some 'V'
  | help => some 'h'
  | _ => none

/-- The switch has a value. -/
def takesValue : Switch → Bool
  | config | input => true
  | _ => false

end Switch

/-- Why the arguments ask for nothing to be done. -/
inductive Stop where
  /-- they are mistaken -/
  | usage
  /-- they ask for the version -/
  | version
  /-- they ask for help -/
  | help
deriving DecidableEq

/-- What was found on a part of the command line. -/
structure Found where
  /-- the switches, with their values or an empty text -/
  switches : List (Switch × String)
  /-- the operands, in order -/
  operands : List String
deriving DecidableEq

namespace Found

/-- Nothing yet. -/
def nothing : Found := ⟨[], []⟩

/-- The value of a switch. -/
def value? (found : Found) (switch : Switch) : Option String :=
  found.switches.lookup switch

/-- The switch was given. -/
def has (found : Found) (switch : Switch) : Bool := (found.value? switch).isSome

/-- One more switch. A file's name is not empty. -/
def addSwitch (found : Found) (switch : Switch) (value : String) : Except Stop Found :=
  if switch = .version then .error .version
  else if switch = .help then .error .help
  else if found.has switch then .error .usage
  else if switch = .config ∧ value = "" then .error .usage
  else .ok { found with switches := found.switches ++ [(switch, value)] }

end Found

/-- The argument is neither an operand nor a value. -/
def looksLikeSwitch (arg : String) : Bool :=
  match arg.toList with
  | '-' :: _ :: _ => true
  | _ => false

/-- A switch by its long name; it may be left waiting for its value. -/
def readLong (allowed : List Switch) (text : List Char) (found : Found) :
    Except Stop (Found × Option Switch) :=
  let name := text.takeWhile (· ≠ '=')
  match allowed.find? fun switch => switch.long == String.ofList name,
      text.dropWhile (· ≠ '=') with
  | none, _ => .error .usage
  | some switch, [] =>
    if switch.takesValue then .ok (found, some switch)
    else (found.addSwitch switch "").map fun found => (found, none)
  | some switch, _ :: value =>
    if switch.takesValue then
      (found.addSwitch switch (String.ofList value)).map fun found => (found, none)
    else .error .usage

/-- Switches by their letters; the last one may be left waiting for its value. -/
def readLetters (allowed : List Switch) : List Char → Found →
    Except Stop (Found × Option Switch)
  | [], found => .ok (found, none)
  | letter :: rest, found =>
    match allowed.find? fun switch => switch.letter? == some letter with
    | none => .error .usage
    | some switch =>
      if switch.takesValue then
        match rest with
        | [] => .ok (found, some switch)
        | '=' :: value =>
          (found.addSwitch switch (String.ofList value)).map fun found => (found, none)
        | value =>
          (found.addSwitch switch (String.ofList value)).map fun found => (found, none)
      else
        match found.addSwitch switch "" with
        | .error stop => .error stop
        | .ok found => readLetters allowed rest found

/-- An argument that looks like a switch. -/
def readSwitch (allowed : List Switch) (arg : String) (found : Found) :
    Except Stop (Found × Option Switch) :=
  match arg.toList with
  | '-' :: '-' :: text => readLong allowed text found
  | '-' :: letters => readLetters allowed letters found
  | _ => .error .usage

/-- Arguments up to the first operand, and the arguments from there on. -/
def readLeading (allowed : List Switch) : List String → Found →
    Except Stop (Found × List String)
  | [], found => .ok (found, [])
  | arg :: args, found =>
    -- behind it even the command's name would be an operand
    if arg = "--" then .error .usage
    else if looksLikeSwitch arg then
      match readSwitch allowed arg found with
      | .error stop => .error stop
      | .ok (found, none) => readLeading allowed args found
      | .ok (found, some waiting) =>
        match args with
        | [] => .error .usage
        | value :: args =>
          if looksLikeSwitch value then .error .usage
          else match found.addSwitch waiting value with
            | .error stop => .error stop
            | .ok found => readLeading allowed args found
    else .ok (found, arg :: args)

/-- The switches and operands of a command that takes so many operands. -/
def readAll (allowed : List Switch) (count : Nat) : List String → Found → Except Stop Found
  | [], found => if found.operands.length = count then .ok found else .error .usage
  | arg :: args, found =>
    if arg = "--" then
      if found.operands.length + args.length = count then
        .ok { found with operands := found.operands ++ args }
      else .error .usage
    else if looksLikeSwitch arg then
      match readSwitch allowed arg found with
      | .error stop => .error stop
      | .ok (found, none) => readAll allowed count args found
      | .ok (found, some waiting) =>
        match args with
        | [] => .error .usage
        | value :: args =>
          if looksLikeSwitch value then .error .usage
          else match found.addSwitch waiting value with
            | .error stop => .error stop
            | .ok found => readAll allowed count args found
    else if found.operands.length < count then
      readAll allowed count args { found with operands := found.operands ++ [arg] }
    else .error .usage

/-! ## Invocations -/

/-- What a command line asks for. -/
inductive Action where
  /-- to check an expression, and to print a document in the indented form or not -/
  | check (request : CheckRequest) (pretty : Bool)
  /-- to compare a field -/
  | field (request : FieldRequest)
deriving DecidableEq

/-- An action and the file that configures the limits. -/
structure Invocation where
  /-- the name of the file -/
  config : Option String
  /-- what is to be done -/
  action : Action
deriving DecidableEq

/-- The switches in front of the command's name. -/
def leadingSwitches : List Switch := [.config, .version, .help]

/-- The switches of checks. -/
def checkSwitches : List Switch :=
  [.config, .input, .pretty, .syntaxOnly, .condition, .help]

/-- The switches of comparisons. -/
def fieldSwitches : List Switch := [.config, .input, .help]

/-- What may follow the command that asks for help: nothing, or the name of a command. -/
def helpTopics : List (List String) := [[], ["check"], ["field"], ["help"]]

/-- **The invocation of a command line.** -/
def parseArguments (args : List String) : Except Stop Invocation := do
  let (leading, rest) ← readLeading leadingSwitches args .nothing
  match rest with
  | "check" :: rest =>
    let found ← readAll checkSwitches 1 rest .nothing
    match found.operands with
    | [expression] =>
      return {
        config := (found.value? .config).or (leading.value? .config)
        action := .check
          { expression, input := found.value? .input,
            syntaxOnly := found.has .syntaxOnly, condition := found.has .condition }
          (found.has .pretty) }
    | _ => .error .usage
  | "field" :: rest =>
    let found ← readAll fieldSwitches 3 rest .nothing
    match found.operands with
    | [path, operator, literal] =>
      return {
        config := (found.value? .config).or (leading.value? .config)
        action := .field { path, operator, literal, input := found.value? .input } }
    | _ => .error .usage
  | "help" :: topics => .error (if topics ∈ helpTopics then .help else .usage)
  | _ => .error .usage

end ScreenedExpr.Command
