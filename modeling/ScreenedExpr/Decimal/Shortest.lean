import ScreenedExpr.Decimal.Basic

/-!
# The shortest decimal of a double

Of all decimals that read back as a given double, the ones with the fewest digits lie on
the coarsest grid of powers of ten that has any, and there the nearest to the double is
taken. If a grid has a decimal that reads back, then one of the double's two neighbours on
that grid does, because the decimals that read back form an interval around the double.

The search goes from a grid coarser than the double itself down to finer ones, and tests
the two neighbours by **reading them back**. It ends at the grid of `10 ^ -1074` at the
latest, on which every double lies exactly.

A grid is numbered by its exponent plus 1074, so that the double in units is a whole
multiple of the finest one: `units * 5 ^ 1074` steps of `10 ^ -1074`.
-/

namespace ScreenedExpr.Decimal

/-- Which of two neighbours to take when a double lies exactly half way between them. -/
inductive Tie where
  /-- the one farther from zero -/
  | away
  /-- the one with the even coefficient -/
  | even
deriving DecidableEq

/-- The decimal of a coefficient on the grid of `10 ^ (grid - 1074)`. -/
def onGrid (coefficient grid : Nat) : Decimal := ⟨coefficient, (grid : Int) - 1074⟩

/-- The decimal rounds to the magnitude. -/
def readsBack (d : Decimal) (units : Nat) : Bool :=
  match Double.ofDecimal false d with
  | .finite _ u _ => u == units
  | _ => false

/-- The nearer of two neighbouring coefficients, of which the lower is `steps / width`. -/
def nearer (tie : Tie) (steps width : Nat) : Nat :=
  let low := steps / width
  let twice := 2 * (steps % width)
  if twice < width then low
  else if width < twice then low + 1
  else match tie with
    | .away => low + 1
    | .even => low + low % 2

/-- The search for an accepted decimal, from the given grid downward. The number of steps of the
finest grid is what the decimals are to come near to. -/
def searchFrom (tie : Tie) (accepts : Decimal → Bool) (steps : Nat) : Nat → Decimal
  | 0 => onGrid steps 0
  | finer + 1 =>
    let width := Nat.pow 10 (finer + 1)
    let low := steps / width
    match accepts (onGrid low (finer + 1)), accepts (onGrid (low + 1) (finer + 1)) with
    | true, true => onGrid (nearer tie steps width) (finer + 1)
    | true, false => onGrid low (finer + 1)
    | false, true => onGrid (low + 1) (finer + 1)
    | false, false => searchFrom tie accepts steps finer

/-- A grid whose step is at least the magnitude: `30103 / 100000` is `log10 2` and a
magnitude is below `2 ^ (log2 + 1)` units. -/
def coarsestGrid (units : Nat) : Nat := units.log2 * 30103 / 100000 + 753

/-- **The shortest decimal** that reads back as the magnitude. -/
def shortest (tie : Tie) (units : Nat) : Decimal :=
  if units = 0 then ⟨0, 0⟩
  else searchFrom tie (fun d => readsBack d units) (units * Nat.pow 5 1074) (coarsestGrid units)

end ScreenedExpr.Decimal
