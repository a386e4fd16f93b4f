import ScreenedExpr.Denylist.Pattern

/-!
# The denylist

Names of constructs that reach outside the data, by category. A text that contains such a
name as a whole word is refused before it is read any further, wherever the name stands:
inside a string and behind a point as well. A word goes on through ASCII letters, digits and
the underscore only, so that a `$` beside a name does not hide it.

The list is a second wall. No expression can reach any of these names in the first place,
because there are no calls and a member is always a part of the data.

* `Rule.pattern` — a listed name between two ends of a word;
* `blocked?` — the category of the first rule, in order, that a text breaks.
-/

namespace ScreenedExpr.Denylist

/-- The kind of construct that a name belongs to. -/
inductive Category where
  /-- compilers of code from text -/
  | codeExecution
  /-- loading of modules and resources -/
  | moduleLoading
  /-- handles on the runtime and its environment -/
  | globalAccess
  /-- network calls, promises and timers -/
  | asyncPrimitive
  /-- reflection and access to prototypes -/
  | reflection
deriving DecidableEq

/-- How a category is named in a message. -/
def Category.describe : Category → String
  | codeExecution => "code execution"
  | moduleLoading => "module loading"
  | globalAccess => "global object access"
  | asyncPrimitive => "network or scheduling primitive"
  | reflection => "reflection or prototype access"

/-- A category and its names. -/
structure Rule where
  /-- what the names have in common -/
  category : Category
  /-- the blocked names -/
  names : List String

/-- The rules, in the order in which they are checked. -/
def rules : List Rule :=
  [⟨.codeExecution,
    ["eval", "Function", "AsyncFunction", "GeneratorFunction", "AsyncGeneratorFunction",
     "execScript", "WebAssembly"]⟩,
   ⟨.moduleLoading, ["require", "import", "importScripts"]⟩,
   ⟨.globalAccess,
    ["process", "global", "globalThis", "window", "document", "this", "self", "arguments",
     "module", "exports", "__dirname", "__filename", "Deno", "Bun"]⟩,
   ⟨.asyncPrimitive,
    ["fetch", "XMLHttpRequest", "WebSocket", "Promise", "setTimeout", "setInterval",
     "setImmediate", "queueMicrotask"]⟩,
   ⟨.reflection,
    ["__proto__", "constructor", "prototype", "Reflect", "Proxy", "defineProperty",
     "defineProperties", "setPrototypeOf", "getPrototypeOf", "getOwnPropertyDescriptor",
     "__defineGetter__", "__defineSetter__", "__lookupGetter__", "__lookupSetter__"]⟩]

/-- A character that a word goes on with. -/
def isWordChar (c : Char) : Bool := c.isAlphanum || c == '_'

/-- A rule's names as whole words. -/
def Rule.pattern (rule : Rule) : Pattern :=
  .seq (.alt .start (.char fun c => !isWordChar c))
    (.seq (.oneOf rule.names) (.alt (.char fun c => !isWordChar c) .stop))

/-- A text breaks a rule. -/
def Rule.isBrokenBy (rule : Rule) (text : String) : Bool := rule.pattern.occursIn text

/-- The categories of all rules that a text breaks, in order. -/
def broken (text : String) : List Category :=
  (rules.filter fun rule => rule.isBrokenBy text).map Rule.category

/-- **The category of the first rule that a text breaks.** -/
def blocked? (text : String) : Option Category :=
  (rules.find? fun rule => rule.isBrokenBy text).map Rule.category

end ScreenedExpr.Denylist
