import ScreenedExpr.Sandbox

/-!
# The journal of a sandbox

What each use of a sandbox leaves in a journal, in order. The records follow from the
outcomes alone, so they are functions beside the operations and not effects inside them.

* reading a text as tokens is traced when it succeeds, and only when it is reached;
* every refusal is a warning;
* a compiled condition and an answered field condition leave a note.
-/

namespace ScreenedExpr

/-- The weight of a record. -/
inductive Journal.Level where
  | trace | debug | warn
deriving DecidableEq

/-- A record in the journal. -/
structure Journal.Record where
  /-- how much it matters -/
  level : Journal.Level
  /-- what it says -/
  message : String
deriving DecidableEq

namespace Journal

/-- Reading a text as tokens. -/
def tokenized (text : String) : List Record :=
  match tokenize text with
  | .ok tokens => [⟨.trace, s!"lexed {tokens.length} tokens"⟩]
  | .error _ => []

/-- Checking a text without reporting on it. -/
def checked (sandbox : Sandbox) (text : String) : List Record :=
  match sandbox.textual? text with
  | some _ => []
  | none => tokenized text

/-- The warning that a text is refused. -/
def refused (text : String) (reason : RejectReason) : Record :=
  ⟨.warn, s!"rejected expression `{text}`: {reason.message}"⟩

/-- Screening a text, for whatever use. -/
def screened (sandbox : Sandbox) (text : String) : List Record :=
  checked sandbox text ++
    match sandbox.check text with
    | .ok _ => []
    | .error reason => [refused text reason]

/-- Compiling a text. -/
def compiled (sandbox : Sandbox) (text : String) : List Record :=
  screened sandbox text ++
    match sandbox.check text with
    | .ok expr => [⟨.debug, s!"compiled condition `{text}` ({expr.size} nodes)"⟩]
    | .error _ => []

/-- Answering a field condition. -/
def fieldCompared (sandbox : Sandbox) (path : String) (op : FieldOperator)
    (literal : Value) (context : Context) : List Record :=
  screened sandbox path ++
    match sandbox.check path with
    | .error _ => []
    | .ok expr =>
      if expr.isFieldPath then
        let holds := op.compare (expr.eval context) literal
        [⟨.debug, s!"field condition `{path} {op.symbol}` -> {holds}"⟩]
      else
        [⟨.warn,
          s!"rejected field path `{path}`: {RejectReason.notAFieldPath.message}"⟩]

end Journal

end ScreenedExpr
