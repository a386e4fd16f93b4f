/-!
# Double precision numbers

A number is *not a number*, an infinity of either sign, or finite. A finite number is a
sign and a magnitude, and the magnitude is a whole number of **units** of `2 ^ -1074`, the
smallest positive double. All arithmetic is then exact arithmetic on natural numbers
followed by one rounding, and nothing here depends on machine floating point.

* `Double.Representable` — the magnitudes that a double can hold: below `2 ^ 1024`
  in value, and a significand of at most 53 bits times a power of two;
* `Double.round` — the double nearest to a quotient of natural numbers of units, a tie
  going to the even significand and a magnitude too large to hold to an infinity;
* `Double.signed` — the position of a number on the line, by which numbers compare.

Zero keeps its sign, so there are two zeros; they are equal in every comparison.
-/

namespace ScreenedExpr

/-- The number of units in one. -/
def Double.unitsPerOne : Nat := 1 <<< 1074

/-- The first magnitude beyond the finite doubles: `2 ^ 1024` in units. -/
def Double.unitsLimit : Nat := 1 <<< 2098

/-- A magnitude, in units, that fits a double: a significand of at most 53 bits, shifted
left, and below the limit. -/
def Double.Representable (units : Nat) : Prop :=
  units < unitsLimit ∧ ∃ m e, m < 1 <<< 53 ∧ units = m <<< e

/-- A double precision number. -/
inductive Double where
  /-- not a number -/
  | nan
  /-- an infinity, negative or positive -/
  | infinite (negative : Bool)
  /-- a finite number: its sign and its magnitude in units of `2 ^ -1074` -/
  | finite (negative : Bool) (units : Nat) (representable : Double.Representable units)
deriving DecidableEq

namespace Double

/-! ## Rounding -/

/-- The quotient of two natural numbers rounded to the nearest whole number, a half going
to the even neighbour. -/
def roundDiv (num den : Nat) : Nat :=
  let quotient := num / den
  let twice := 2 * (num % den)
  if twice < den then quotient
  else if den < twice then quotient + 1
  else quotient + quotient % 2

theorem roundDiv_le (num den : Nat) : roundDiv num den ≤ num / den + 1 := by
  unfold roundDiv
  dsimp only
  split
  · omega
  · split <;> omega

/-- A whole quotient is its own rounding. -/
theorem roundDiv_mul_right (q : Nat) {den : Nat} (h : 0 < den) :
    roundDiv (q * den) den = q := by
  unfold roundDiv
  dsimp only
  rw [Nat.mul_mod_left, Nat.mul_div_cancel _ h, if_pos (by omega)]

/-- The exponent of the last significand bit of a magnitude: 53 bits are kept, and none
below the unit. -/
def lastBit (units : Nat) : Nat := units.log2 - 52

/-- The magnitude nearest to `num / den` units among those with 53-bit significands. -/
def roundUnits (num den : Nat) : Nat :=
  roundDiv num (den <<< lastBit (num / den)) <<< lastBit (num / den)

theorem lt_shift_lastBit (units : Nat) : units < 1 <<< (lastBit units + 53) := by
  rw [Nat.one_shiftLeft]
  have h := Nat.lt_log2_self (n := units)
  refine Nat.lt_of_lt_of_le h (Nat.pow_le_pow_right (by decide) ?_)
  unfold lastBit
  omega

/-- **A rounded magnitude has a significand of 53 bits.** -/
theorem roundUnits_significand (num den : Nat) :
    ∃ m e, m < 1 <<< 53 ∧ roundUnits num den = m <<< e := by
  unfold roundUnits
  generalize he : lastBit (num / den) = e
  have hq : num / (den <<< e) < 1 <<< 53 := by
    rw [Nat.shiftLeft_eq den, ← Nat.div_div_eq_div_mul,
      Nat.div_lt_iff_lt_mul (Nat.two_pow_pos e), ← Nat.shiftLeft_eq, ← Nat.shiftLeft_add,
      Nat.add_comm, ← he]
    exact lt_shift_lastBit _
  have hle := roundDiv_le num (den <<< e)
  by_cases htop : roundDiv num (den <<< e) = 1 <<< 53
  · -- rounded up to the next power of two, which needs a single bit
    refine ⟨1 <<< 52, e + 1, by decide, ?_⟩
    rw [htop, ← Nat.shiftLeft_add, ← Nat.shiftLeft_add]
    congr 1
    omega
  · exact ⟨_, e, by omega, rfl⟩

/-- **Rounding.** The double of the given sign nearest to `num / den` units; a magnitude of
`2 ^ 1024` or more after rounding is an infinity. -/
def round (negative : Bool) (num den : Nat) : Double :=
  if h : roundUnits num den < unitsLimit then
    .finite negative (roundUnits num den) ⟨h, roundUnits_significand num den⟩
  else .infinite negative

/-- What is rounded is a number. -/
theorem round_ne_nan (negative : Bool) (num den : Nat) : round negative num den ≠ nan := by
  unfold round
  split
  · exact Double.noConfusion
  · exact Double.noConfusion

/-! ## Numbers of special interest -/

/-- Zero is representable. -/
theorem representable_zero : Representable 0 :=
  ⟨by decide +kernel, 0, 0, by decide, by decide⟩

/-- The zero of the given sign. -/
def zero (negative : Bool) : Double := .finite negative 0 representable_zero

/-- The double nearest to a natural number. -/
def ofNat (n : Nat) : Double := round false (n * unitsPerOne) 1

/-- The double nearest to an integer; zero is positive. -/
def ofInt (n : Int) : Double := round (decide (n < 0)) (n.natAbs * unitsPerOne) 1

/-- One for `true`, zero for `false`. -/
def ofBool (b : Bool) : Double := ofNat b.toNat

/-! ## Classification -/

/-- Not a number. -/
def isNaN : Double → Bool
  | nan => true
  | _ => false

/-- Either zero. -/
def isZero : Double → Bool
  | finite _ units _ => units == 0
  | _ => false

/-- The integer that a finite number without a fractional part is. -/
def toInt? : Double → Option Int
  | finite negative units _ =>
    if units % unitsPerOne = 0 then
      some (if negative then -(units / unitsPerOne : Nat) else (units / unitsPerOne : Nat))
    else none
  | _ => none

/-! ## Order -/

/-- The position of a number on the line, in units. The infinities lie just outside the
finite range; *not a number* has no position. -/
def signed : Double → Option Int
  | nan => none
  | infinite negative => some (if negative then -(unitsLimit : Nat) else (unitsLimit : Nat))
  | finite negative units _ => some (if negative then -(units : Nat) else (units : Nat))

/-- Comparison of two numbers: by position, and none if one of them has no position. -/
def compare? (a b : Double) : Option Ordering :=
  match a.signed, b.signed with
  | some x, some y => some (compare x y)
  | _, _ => none

/-- Numeric equality: the two zeros are equal, and *not a number* equals nothing. -/
def eq (a b : Double) : Bool := a.compare? b == some .eq

/-- Two truth values are the same number only if they are the same. -/
@[simp] theorem eq_ofBool (p q : Bool) : (ofBool p).eq (ofBool q) = (p == q) := by
  revert p q
  decide +kernel

/-- Numeric equality is equality of positions. -/
theorem eq_iff {a b : Double} : a.eq b = true ↔ ∃ x, a.signed = some x ∧ b.signed = some x := by
  unfold eq compare?
  generalize a.signed = x
  generalize b.signed = y
  cases x with
  | none => simp
  | some x =>
    cases y with
    | none => simp
    | some y =>
      simp only [beq_iff_eq, Option.some.injEq, Int.compare_eq_eq]
      exact ⟨fun h => ⟨x, rfl, h.symm⟩, fun ⟨_, hx, hy⟩ => hx.trans hy.symm⟩

end Double

end ScreenedExpr
