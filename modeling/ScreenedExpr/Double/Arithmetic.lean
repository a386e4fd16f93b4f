import ScreenedExpr.Double.Basic

/-!
# Arithmetic of doubles

Each operation computes the exact result in units and rounds once. What is left are the
conventions on zeros, infinities and *not a number*:

* a sum that is exactly zero is positive unless both terms are negative zeros or the like;
* a product or quotient takes the sign that differs from its operands' when they differ;
* a nonzero number divided by zero is infinite, and `0 / 0`, `∞ / ∞`, `∞ - ∞` and `0 * ∞`
  are not a number;
* a remainder is exact, takes the sign of the dividend and is smaller than the divisor.
-/

namespace ScreenedExpr.Double

/-- The same magnitude with the other sign. -/
def neg : Double → Double
  | nan => nan
  | infinite negative => infinite !negative
  | finite negative units h => finite (!negative) units h

/-- The finite magnitude with its sign, in units. -/
def signedUnits (negative : Bool) (units : Nat) : Int :=
  if negative then -(units : Int) else units

/-- Addition. -/
def add : Double → Double → Double
  | nan, _ | _, nan => nan
  | infinite m, infinite n => if m = n then infinite m else nan
  | infinite m, finite .. => infinite m
  | finite .., infinite n => infinite n
  | finite m a _, finite n b _ =>
    let sum := signedUnits m a + signedUnits n b
    -- a sum that is exactly zero has no sign of its own
    if sum = 0 then zero (m && n) else round (decide (sum < 0)) sum.natAbs 1

/-- Subtraction: addition of the negated number. -/
def sub (a b : Double) : Double := add a (neg b)

/-- Multiplication. -/
def mul : Double → Double → Double
  | nan, _ | _, nan => nan
  | infinite m, infinite n => infinite (m != n)
  | infinite m, finite n b _ => if b = 0 then nan else infinite (m != n)
  | finite m a _, infinite n => if a = 0 then nan else infinite (m != n)
  | finite m a _, finite n b _ => round (m != n) (a * b) unitsPerOne

/-- Division. -/
def div : Double → Double → Double
  | nan, _ | _, nan => nan
  | infinite _, infinite _ => nan
  | infinite m, finite n _ _ => infinite (m != n)
  | finite m _ _, infinite n => zero (m != n)
  | finite m a _, finite n b _ =>
    if b = 0 then if a = 0 then nan else infinite (m != n)
    else round (m != n) (a * unitsPerOne) b

/-- The remainder of the division that truncates toward zero. -/
def rem : Double → Double → Double
  | nan, _ | _, nan => nan
  | infinite _, _ => nan
  | a, infinite _ => a
  | finite m a _, finite _ b _ => if b = 0 then nan else round m (a % b) 1

end ScreenedExpr.Double
