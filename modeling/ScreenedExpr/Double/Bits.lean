import ScreenedExpr.Double.Basic

/-!
# The interchange encoding of doubles

A double as 64 bits: the sign, eleven bits of exponent and 52 of fraction. On magnitudes
the encoding is monotone, so it is computed on the number of units alone: with the last
significand bit at exponent `e`, the units divided by `2 ^ e` are added to `e` shifted past
the fraction, and the leading significand bit carries into the exponent field.
-/

namespace ScreenedExpr.Double

/-- The low 63 bits of a finite magnitude. -/
def magnitudeBits (units : Nat) : Nat :=
  (lastBit units <<< 52) + (units >>> lastBit units)

/-- The 64 bits of a number; *not a number* has the quiet pattern without payload. -/
def toBits : Double → Nat
  | nan => 0x7FF8000000000000
  | infinite negative => (negative.toNat <<< 63) + 0x7FF0000000000000
  | finite negative units _ => (negative.toNat <<< 63) + magnitudeBits units

/-- The number that 64 bits stand for. -/
def ofBits (bits : Nat) : Double :=
  let negative := (bits >>> 63) % 2 == 1
  let exponent := (bits >>> 52) % (1 <<< 11)
  let fraction := bits % (1 <<< 52)
  if exponent = 2047 then if fraction = 0 then infinite negative else nan
  else if exponent = 0 then round negative fraction 1
  else round negative (((1 <<< 52) + fraction) <<< (exponent - 1)) 1

end ScreenedExpr.Double
