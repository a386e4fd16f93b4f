import ScreenedExpr.Double.Basic

/-!
# JSON documents

A document as it was written: the entries of an object keep their order, and a name may
occur more than once. What a repeated name means is for the reader of a document to say.

Whole numbers that fit 64 bits are kept as integers; every other number is a double.
-/

namespace ScreenedExpr

/-- A number in a document. -/
inductive JsonNumber where
  /-- a whole number that fits 64 bits, signed or unsigned -/
  | int (value : Int)
  /-- any other number -/
  | double (value : Double)
deriving DecidableEq

/-- The double nearest to a number. -/
def JsonNumber.toDouble : JsonNumber → Double
  | int i => .ofInt i
  | double d => d

/-- A document. -/
inductive Json where
  /-- the null -/
  | null
  /-- a truth value -/
  | bool (value : Bool)
  /-- a number -/
  | number (value : JsonNumber)
  /-- a string -/
  | string (value : String)
  /-- a sequence of documents -/
  | array (items : List Json)
  /-- named documents, as written -/
  | object (entries : List (String × Json))

instance : Inhabited Json := ⟨.null⟩

end ScreenedExpr
