/-!
# Text patterns

A small language of patterns that are looked for inside a text: the ends of the text, a
character of a class, a fixed text, sequence and choice. A match starts at a place in the
text and may end at several.

* `Pattern.run` — the places where a match that starts here can end;
* `Pattern.occursIn` — a match starts somewhere in the text.
-/

namespace ScreenedExpr.Denylist

/-- A pattern. -/
inductive Pattern where
  /-- the start of the text -/
  | start
  /-- the end of the text -/
  | stop
  /-- one character of a class -/
  | char (accepts : Char → Bool)
  /-- a fixed text -/
  | literal (text : List Char)
  /-- one pattern after another -/
  | seq (first second : Pattern)
  /-- either of two patterns -/
  | alt (first second : Pattern)

/-- A place in a text: whether it is the start, and what follows it. -/
structure Place where
  /-- nothing comes before -/
  atStart : Bool
  /-- the characters that follow -/
  rest : List Char
deriving DecidableEq

namespace Pattern

/-- One of several fixed texts. -/
def oneOf (texts : List String) : Pattern :=
  texts.foldr (fun text others => alt (literal text.toList) others) (char fun _ => false)

/-- The places where a match that starts here can end. -/
def run : Pattern → Place → List Place
  | start, here => if here.atStart then [here] else []
  | stop, here => if here.rest = [] then [here] else []
  | char accepts, here =>
    match here.rest with
    | [] => []
    | c :: rest => if accepts c then [⟨false, rest⟩] else []
  | literal text, here =>
    if text.isPrefixOf here.rest then
      [⟨here.atStart && text.isEmpty, here.rest.drop text.length⟩]
    else []
  | seq first second, here => (first.run here).flatMap second.run
  | alt first second, here => first.run here ++ second.run here

/-- A match starts at this place. -/
def matchesAt (pattern : Pattern) (here : Place) : Bool := !(pattern.run here).isEmpty

/-- A match starts at this place or later. -/
def occursFrom (pattern : Pattern) : Bool → List Char → Bool
  | atStart, [] => pattern.matchesAt ⟨atStart, []⟩
  | atStart, c :: rest => pattern.matchesAt ⟨atStart, c :: rest⟩ || pattern.occursFrom false rest

/-- **The pattern occurs in a text.** -/
def occursIn (pattern : Pattern) (text : String) : Bool := pattern.occursFrom true text.toList

end Pattern

end ScreenedExpr.Denylist
