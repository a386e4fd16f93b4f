/-!
# Limits

What an expression may cost at most, decided on its text alone: its length in characters,
how deep its parser has to nest, and the height of its tree. Limits only refuse; they never
change what an accepted expression means.
-/

namespace ScreenedExpr

/-- The limits under which an expression is accepted. -/
structure Limits where
  /-- the greatest length of the text, in characters -/
  length : Nat
  /-- the deepest nesting of parentheses, brackets, conditional branches and operators in
  front of an operand -/
  depth : Nat
  /-- the greatest height of the tree -/
  height : Nat
deriving DecidableEq

/-- The limits in force when none are given. -/
def Limits.standard : Limits := ⟨4096, 64, 256⟩

instance : Inhabited Limits := ⟨Limits.standard⟩

end ScreenedExpr
