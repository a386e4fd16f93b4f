import ScreenedExpr.Double.Basic

/-!
# Literals

The values that a source text can write down directly. Containers are not among them: an
expression reaches an array or an object only through the data it is evaluated against.
-/

namespace ScreenedExpr

/-- A value written in the source text. -/
inductive Literal where
  /-- the value of everything missing -/
  | undefined
  /-- the explicit null -/
  | null
  /-- a truth value -/
  | boolean (value : Bool)
  /-- a number -/
  | number (value : Double)
  /-- a string -/
  | string (value : String)
deriving DecidableEq

end ScreenedExpr
