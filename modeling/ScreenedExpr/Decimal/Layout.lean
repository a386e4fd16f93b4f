import ScreenedExpr.Decimal.Shortest

/-!
# Writing decimals

The digits of a double are its shortest decimal; a **layout** says how they are set. It
fixes which numbers are written out in positional notation and which with an exponent,
whether a whole number shows a point, and which way an exact tie between two shortest
decimals goes. Every text of a finite number comes from one function and a layout.

* positional: `1500`, `0.015`, `1.5`;
* with an exponent: the first digit, the others after a point, `e`, a sign and the
  exponent of the first digit: `1.5e+21`, `1e-7`.
-/

namespace ScreenedExpr.Decimal

/-- How the digits of a number are set. -/
structure Layout where
  /-- the least and greatest exponent of the first digit in positional notation, or none
  if every number is positional -/
  positional : Option (Int × Int)
  /-- whether a whole number in positional notation ends in `.0` -/
  pointZero : Bool
  /-- the choice between two shortest decimals at the same distance -/
  tie : Tie

/-- The exponent is one of those written in positional notation. -/
def Layout.isPositional (layout : Layout) (exponent : Int) : Bool :=
  match layout.positional with
  | none => true
  | some (least, greatest) => least ≤ exponent && exponent ≤ greatest

/-- Digits in positional notation, with `point` of them before the decimal point. -/
def positionalText (pointZero : Bool) (digits : List Char) (point : Int) : List Char :=
  if point ≤ 0 then '0' :: '.' :: (List.replicate (-point).toNat '0' ++ digits)
  else if digits.length ≤ point.toNat then
    digits ++ List.replicate (point.toNat - digits.length) '0' ++
      if pointZero then ['.', '0'] else []
  else digits.take point.toNat ++ '.' :: digits.drop point.toNat

/-- The digits after the first, behind a point if there are any. -/
def afterPoint : List Char → List Char
  | [] => []
  | digits => '.' :: digits

/-- Digits with the exponent of the first one. -/
def exponentText (digits : List Char) (exponent : Int) : List Char :=
  digits.take 1 ++ afterPoint (digits.drop 1) ++
    'e' :: (if exponent < 0 then '-' else '+') :: Nat.toDigits 10 exponent.natAbs

/-- The text of a decimal in a layout. -/
def Layout.set (layout : Layout) (d : Decimal) : List Char :=
  let digits := Nat.toDigits 10 d.coefficient
  let exponent := d.exponent + digits.length - 1
  if layout.isPositional exponent then positionalText layout.pointZero digits (exponent + 1)
  else exponentText digits exponent

/-- **The text of a finite number**: its sign and its shortest decimal in the layout. -/
def Layout.text (layout : Layout) (negative : Bool) (units : Nat) : String :=
  String.ofList ((if negative then ['-'] else []) ++ layout.set (shortest layout.tie units))

end ScreenedExpr.Decimal
