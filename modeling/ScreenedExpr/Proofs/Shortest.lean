import ScreenedExpr.Decimal.Shortest
import ScreenedExpr.Proofs.Numeral

/-!
# The shortest decimal reads back

The search for the shortest decimal of a magnitude tests what it finds by reading it back, and
ends on a grid where nothing is lost; so what it finds is a decimal of that magnitude. Of a whole
number below `2 ^ 53` it finds the number itself: no other whole number is read as it, and the
search comes by the grid of the whole numbers before it reaches finer ones.

* `Double.pow_le_roundUnits` — rounding does not take a number below a power of two;
* `Double.ofDecimal_whole_eq_iff` — below `2 ^ 53`, whole decimals are told apart by what they
  are read as;
* `exists_searchFrom` — what the search finds, and what it has passed by;
* `ofDecimal_shortest`, `exists_shortest_whole` — the shortest decimal of a magnitude, and of a
  whole number;
* `shortest_bounds` — how far its digits and its exponent can go.
-/

namespace ScreenedExpr

/-! ## Whole numbers -/

namespace Double

theorem div_le_roundDiv (num den : Nat) : num / den ≤ roundDiv num den := by
  unfold roundDiv
  dsimp only
  split
  · exact Nat.le_refl _
  · split <;> omega

/-- **Rounding keeps above a power of two.** -/
theorem pow_le_roundUnits {num den b : Nat} (h : 2 ^ b ≤ num / den) :
    2 ^ b ≤ roundUnits num den := by
  have hpos : num / den ≠ 0 := Nat.ne_of_gt (Nat.lt_of_lt_of_le (Nat.two_pow_pos b) h)
  rw [roundUnits, Nat.shiftLeft_eq, Nat.shiftLeft_eq]
  generalize he : lastBit (num / den) = e
  have hquotient : num / den / 2 ^ e * 2 ^ e ≤ roundDiv num (den * 2 ^ e) * 2 ^ e := by
    rw [Nat.div_div_eq_div_mul]
    exact Nat.mul_le_mul_right _ (div_le_roundDiv _ _)
  refine Nat.le_trans ?_ hquotient
  rcases Nat.le_total e b with hle | hle
  · -- the power of two is not rounded at all
    obtain ⟨d, rfl⟩ := Nat.exists_eq_add_of_le hle
    rw [Nat.add_comm, Nat.pow_add] at h ⊢
    exact Nat.mul_le_mul_right _ ((Nat.le_div_iff_mul_le (Nat.two_pow_pos e)).mpr h)
  · -- one step of the significand is beyond it already
    have hone : 1 ≤ num / den / 2 ^ e := by
      refine (Nat.le_div_iff_mul_le (Nat.two_pow_pos e)).mpr ?_
      rw [Nat.one_mul]
      refine Nat.le_trans (Nat.pow_le_pow_right (by decide) ?_) (Nat.log2_self_le hpos)
      rw [← he, lastBit]
      omega
    calc 2 ^ b ≤ 2 ^ e := Nat.pow_le_pow_right (by decide) hle
      _ = 1 * 2 ^ e := (Nat.one_mul _).symm
      _ ≤ num / den / 2 ^ e * 2 ^ e := Nat.mul_le_mul_right _ hone

theorem shiftLeft_lt {n b limit : Nat} (h : n < 1 <<< 53) (hlimit : 53 + b ≤ limit) :
    n <<< b < 1 <<< limit := by
  rw [Nat.one_shiftLeft] at h
  rw [Nat.one_shiftLeft, Nat.shiftLeft_eq]
  calc n * 2 ^ b < 2 ^ 53 * 2 ^ b := Nat.mul_lt_mul_of_pos_right h (Nat.two_pow_pos b)
    _ = 2 ^ (53 + b) := (Nat.pow_add ..).symm
    _ ≤ 2 ^ limit := Nat.pow_le_pow_right (by decide) hlimit

theorem mul_one_shiftLeft (n b : Nat) : n * 1 <<< b = n <<< b := by
  rw [Nat.one_shiftLeft, Nat.shiftLeft_eq]

theorem unitsPerOne_pos : 0 < unitsPerOne := by
  obtain ⟨places, hplaces⟩ := exists_unitsPerOne
  rw [hplaces]
  exact Nat.two_pow_pos _

/-- A double holds the whole numbers below `2 ^ 53`. -/
theorem representable_whole {n : Nat} (h : n < 1 <<< 53) : Representable (n * unitsPerOne) := by
  have hshift : n * unitsPerOne = n <<< 1074 := mul_one_shiftLeft n 1074
  have hlimit : 53 + 1074 ≤ 2098 := by omega
  rw [hshift]
  exact ⟨shiftLeft_lt h hlimit, n, 1074, h, rfl⟩

/-- Below `2 ^ 53` a whole number is a double. -/
theorem round_whole (negative : Bool) {n : Nat} (h : n < 1 <<< 53) :
    round negative (n * unitsPerOne) 1 =
      .finite negative (n * unitsPerOne) (representable_whole h) := by
  have hround := round_mul negative (representable_whole h) Nat.one_pos
  rwa [Nat.mul_one] at hround

/-- **Below `2 ^ 53`, whole numbers are told apart** by their doubles, also from larger ones. -/
theorem round_whole_eq_iff {m n : Nat} (h : n < 1 <<< 53) :
    round false (m * unitsPerOne) 1 = .finite false (n * unitsPerOne) (representable_whole h) ↔
      m = n := by
  refine ⟨?_, by rintro rfl; exact round_whole false h⟩
  intro hround
  by_cases hm : m < 1 <<< 53
  · rw [round_whole false hm] at hround
    exact Nat.eq_of_mul_eq_mul_right unitsPerOne_pos (Double.finite.inj hround).2
  · have hunits : roundUnits (m * unitsPerOne) 1 = n * unitsPerOne := by
      rw [round] at hround
      split at hround
      · exact (Double.finite.inj hround).2
      · cases hround
    -- a larger number is read as a larger one
    obtain ⟨places, hplaces⟩ := exists_unitsPerOne
    rw [Nat.one_shiftLeft] at h hm
    have hlow : 2 ^ (53 + (places + 1)) ≤ roundUnits (m * unitsPerOne) 1 := by
      refine pow_le_roundUnits ?_
      rw [Nat.div_one, Nat.pow_add, hplaces]
      exact Nat.mul_le_mul_right _ (Nat.le_of_not_lt hm)
    have hhigh : n * unitsPerOne < 2 ^ (53 + (places + 1)) := by
      rw [Nat.pow_add, hplaces]
      exact Nat.mul_lt_mul_of_pos_right h (Nat.two_pow_pos _)
    omega

/-- A whole decimal of moderate size is read by one rounding. -/
theorem ofDecimal_whole (coefficient : Nat) {exponent : Nat} (h : exponent ≤ 400) :
    ofDecimal false ⟨coefficient, exponent⟩ =
      round false (coefficient * 10 ^ exponent * unitsPerOne) 1 := by
  rw [ofDecimal]
  dsimp only
  split
  · next hzero =>
    rw [hzero, Nat.zero_mul, Nat.zero_mul]
    exact (round_mul false representable_zero Nat.one_pos).symm
  · rw [if_neg (by omega), if_neg (by omega)]
    rfl

/-- **Below `2 ^ 53`, whole decimals are told apart** by what they are read as. -/
theorem ofDecimal_whole_eq_iff {coefficient exponent n : Nat} (h : n < 1 <<< 53) :
    ofDecimal false ⟨coefficient, exponent⟩ =
        .finite false (n * unitsPerOne) (representable_whole h) ↔
      coefficient * 10 ^ exponent = n := by
  by_cases hexponent : exponent ≤ 400
  · rw [ofDecimal_whole coefficient hexponent, round_whole_eq_iff h]
  by_cases hzero : coefficient = 0
  · have hread : ofDecimal false ⟨coefficient, exponent⟩ = round false (0 * unitsPerOne) 1 := by
      rw [ofDecimal, if_pos hzero, Nat.zero_mul]
      exact (round_mul false representable_zero Nat.one_pos).symm
    rw [hread, round_whole_eq_iff h, hzero, Nat.zero_mul]
  · -- both sides are out of the question
    have hread : ofDecimal false ⟨coefficient, exponent⟩ = .infinite false := by
      rw [ofDecimal, if_neg hzero, if_pos (by simp only; omega)]
    rw [hread]
    refine iff_of_false Double.noConfusion ?_
    rintro rfl
    refine absurd h (Nat.not_lt_of_le ?_)
    rw [Nat.one_shiftLeft]
    calc 2 ^ 53 ≤ 2 ^ exponent := Nat.pow_le_pow_right (by decide) (by omega)
      _ ≤ 10 ^ exponent := Nat.pow_le_pow_left (by decide) exponent
      _ ≤ coefficient * 10 ^ exponent :=
        Nat.le_mul_of_pos_left _ (Nat.pos_of_ne_zero hzero)

end Double

/-! ## The search -/

namespace Decimal

theorem readsBack_iff {d : Decimal} {units : Nat} (h : Double.Representable units) :
    readsBack d units = true ↔ Double.ofDecimal false d = .finite false units h := by
  have hunsigned := Double.isUnsigned_ofDecimal d
  rw [readsBack]
  cases hread : Double.ofDecimal false d with
  | nan => simp
  | infinite negative => simp
  | finite negative units' h' =>
    rw [hread] at hunsigned
    cases (hunsigned : negative = false)
    simp

/-- The nearer neighbour is one of both. -/
theorem nearer_eq_or (tie : Tie) (steps width : Nat) :
    nearer tie steps width = steps / width ∨ nearer tie steps width = steps / width + 1 := by
  unfold nearer
  dsimp only
  split
  · exact .inl rfl
  split
  · exact .inr rfl
  cases tie with
  | away => exact .inr rfl
  | even =>
    dsimp only
    omega

/-- **What the search finds.** If the finest grid has an accepted decimal, one is found on some
grid up to the first, and the lower neighbours on the coarser grids are not accepted. Its
coefficient is no greater than the one next to the finest. -/
theorem exists_searchFrom (tie : Tie) (accepts : Decimal → Bool) (steps : Nat)
    (hfinest : accepts (onGrid steps 0) = true) (start : Nat) :
    ∃ grid coefficient, grid ≤ start ∧ coefficient ≤ steps + 1 ∧
      searchFrom tie accepts steps start = onGrid coefficient grid ∧
      accepts (onGrid coefficient grid) = true ∧
      ∀ coarser, grid < coarser → coarser ≤ start →
        accepts (onGrid (steps / 10 ^ coarser) coarser) = false := by
  induction start with
  | zero => exact ⟨0, steps, Nat.le_refl 0, Nat.le_succ steps, rfl, hfinest, fun _ _ _ => by omega⟩
  | succ finer ih =>
    -- what is found on the first grid has passed by no other
    have hfirst (coarser : Nat) (hlt : finer + 1 < coarser) (hle : coarser ≤ finer + 1) :
        accepts (onGrid (steps / 10 ^ coarser) coarser) = false := by omega
    have hdiv := Nat.div_le_self steps (Nat.pow 10 (finer + 1))
    rw [searchFrom]
    split
    · next hlow hhigh =>
      rcases nearer_eq_or tie steps (Nat.pow 10 (finer + 1)) with hnearer | hnearer
      · exact ⟨finer + 1, _, Nat.le_refl _, by omega, rfl, by rwa [hnearer], hfirst⟩
      · exact ⟨finer + 1, _, Nat.le_refl _, by omega, rfl, by rwa [hnearer], hfirst⟩
    · next hlow hhigh => exact ⟨finer + 1, _, Nat.le_refl _, by omega, rfl, hlow, hfirst⟩
    · next hlow hhigh => exact ⟨finer + 1, _, Nat.le_refl _, by omega, rfl, hhigh, hfirst⟩
    · next hlow hhigh =>
      obtain ⟨grid, coefficient, hle, hcoefficient, hfound, haccepts, hcoarser⟩ := ih
      refine ⟨grid, coefficient, by omega, hcoefficient, hfound, haccepts, ?_⟩
      intro coarser hlt hle
      by_cases hlast : coarser = finer + 1
      · subst hlast
        exact hlow
      · exact hcoarser coarser hlt (by omega)

/-! ## What is found -/

/-- On the finest grid nothing is lost. -/
theorem readsBack_finest {units : Nat} (h : Double.Representable units) :
    readsBack (onGrid (units * Nat.pow 5 1074) 0) units = true := by
  rw [readsBack_iff h]
  obtain ⟨places, hplaces⟩ : ∃ places, 1074 = places + 1 := ⟨1073, rfl⟩
  have hunits : Double.unitsPerOne = 2 ^ (places + 1) := by
    rw [Double.unitsPerOne, hplaces, Nat.one_shiftLeft]
  have hgrid : onGrid (units * Nat.pow 5 1074) 0 =
      ⟨units * 5 ^ (places + 1), Int.negSucc places⟩ := by
    rw [onGrid, hplaces, Decimal.mk.injEq]
    exact ⟨rfl, by omega⟩
  rw [hgrid, Double.ofDecimal_places h hunits]

/-- **The shortest decimal** is found on some grid, and on no coarser one the lower neighbour of
the magnitude reads back. -/
theorem exists_shortest (tie : Tie) {units : Nat} (h : Double.Representable units)
    (hne : units ≠ 0) : ∃ grid coefficient, grid ≤ coarsestGrid units ∧
      coefficient ≤ units * Nat.pow 5 1074 + 1 ∧ shortest tie units = onGrid coefficient grid ∧
      Double.ofDecimal false (onGrid coefficient grid) = .finite false units h ∧
      ∀ coarser, grid < coarser → coarser ≤ coarsestGrid units →
        Double.ofDecimal false (onGrid (units * Nat.pow 5 1074 / 10 ^ coarser) coarser) ≠
          .finite false units h := by
  obtain ⟨grid, coefficient, hgrid, hcoefficient, hfound, hreads, hcoarser⟩ :=
    exists_searchFrom tie (fun d => readsBack d units) _ (readsBack_finest h) (coarsestGrid units)
  rw [readsBack_iff h] at hreads
  refine ⟨grid, coefficient, hgrid, hcoefficient, ?_, hreads, ?_⟩
  · rw [shortest, if_neg hne, hfound]
  · intro coarser hlt hle
    rw [Ne, ← readsBack_iff h, Bool.not_eq_true]
    exact hcoarser coarser hlt hle

/-- **The shortest decimal reads back.** -/
theorem ofDecimal_shortest (tie : Tie) {units : Nat} (h : Double.Representable units) :
    Double.ofDecimal false (shortest tie units) = .finite false units h := by
  by_cases hzero : units = 0
  · subst hzero
    rfl
  · obtain ⟨grid, coefficient, -, -, hfound, hreads, -⟩ := exists_shortest tie h hzero
    rw [hfound, hreads]

/-- The grids of the search reach up to `10 ^ 310`. -/
theorem coarsestGrid_le {units : Nat} (h : units < Double.unitsLimit) :
    coarsestGrid units ≤ 1384 := by
  obtain ⟨bits, hbits⟩ : ∃ bits, 2098 = bits := ⟨_, rfl⟩
  rw [Double.unitsLimit, Nat.one_shiftLeft, hbits] at h
  have hlog : units.log2 < 2098 := by
    rcases Nat.eq_zero_or_pos units with rfl | hpos
    · decide
    · rw [hbits]
      exact (Nat.log2_lt (Nat.ne_of_gt hpos)).mpr h
  rw [coarsestGrid]
  omega

/-- What has no more bits and fives than that has no more decimal digits than bits and fives. -/
theorem length_toDigits_le {units coefficient bits fives : Nat} (h : units < 2 ^ bits)
    (hcoefficient : coefficient ≤ units * Nat.pow 5 fives + 1) :
    (Nat.toDigits 10 coefficient).length ≤ bits + fives + 1 := by
  rw [Nat.length_toDigits_le_iff (by decide) (Nat.succ_pos _)]
  rw [Nat.pow_eq] at hcoefficient
  have hfive : 0 < 5 ^ fives := Nat.pow_pos (by decide)
  calc coefficient ≤ units * 5 ^ fives + 5 ^ fives := Nat.le_trans hcoefficient (by omega)
    _ = (units + 1) * 5 ^ fives := (Nat.succ_mul _ _).symm
    _ ≤ 10 ^ bits * 10 ^ fives :=
      Nat.mul_le_mul (Nat.le_trans h (Nat.pow_le_pow_left (by decide) bits))
        (Nat.pow_le_pow_left (by decide) fives)
    _ = 10 ^ (bits + fives) := (Nat.pow_add ..).symm
    _ < 10 ^ (bits + fives + 1) := Nat.pow_lt_pow_right (by decide) (Nat.lt_succ_self _)

/-- **The shortest decimal is of moderate size**, in its exponent and its digits. -/
theorem shortest_bounds (tie : Tie) {units : Nat} (h : Double.Representable units) :
    -1074 ≤ (shortest tie units).exponent ∧ (shortest tie units).exponent ≤ 310 ∧
      (Nat.toDigits 10 (shortest tie units).coefficient).length ≤ 3173 := by
  by_cases hzero : units = 0
  · subst hzero
    rw [shortest, if_pos rfl]
    decide
  obtain ⟨grid, coefficient, hgrid, hcoefficient, hfound, -⟩ := exists_shortest tie h hzero
  have hcoarsest := coarsestGrid_le h.1
  rw [hfound, onGrid]
  refine ⟨by simp only; omega, by simp only; omega, ?_⟩
  obtain ⟨bits, hbits⟩ : ∃ bits, 2098 = bits := ⟨_, rfl⟩
  have hunits := h.1
  rw [Double.unitsLimit, Nat.one_shiftLeft, hbits] at hunits
  have hlength := length_toDigits_le hunits hcoefficient
  simp only
  omega

/-- The search begins on a grid of whole numbers, if the magnitude is one or more. -/
theorem le_coarsestGrid {units : Nat} (h : Double.unitsPerOne ≤ units) :
    1074 ≤ coarsestGrid units := by
  have hlog : 1074 ≤ units.log2 := by
    obtain ⟨bits, hbits⟩ : ∃ bits, 1074 = bits := ⟨_, rfl⟩
    rw [Double.unitsPerOne, Nat.one_shiftLeft, hbits] at h
    rw [hbits]
    exact (Nat.le_log2 (Nat.ne_of_gt (Nat.lt_of_lt_of_le (Nat.two_pow_pos bits) h))).mpr h
  rw [coarsestGrid]
  omega

/-- On the grid of the whole numbers, the lower neighbour of a whole number is itself. -/
theorem steps_div_whole (n : Nat) {bits : Nat} (h : 1074 = bits) :
    n * Double.unitsPerOne * Nat.pow 5 1074 / 10 ^ bits = n := by
  have hten : n * Double.unitsPerOne * Nat.pow 5 1074 = n * 10 ^ bits := by
    rw [Double.unitsPerOne, Nat.one_shiftLeft, h, Nat.mul_assoc]
    congr 1
    exact (Nat.mul_pow 2 5 bits).symm
  rw [hten, Nat.mul_div_cancel _ (Nat.pow_pos (by decide))]

/-- On the grid of the whole numbers and coarser ones, decimals are whole. -/
theorem onGrid_whole (coefficient exponent : Nat) :
    onGrid coefficient (1074 + exponent) = ⟨coefficient, exponent⟩ := by
  rw [onGrid, Decimal.mk.injEq]
  exact ⟨rfl, by omega⟩

/-- **The shortest decimal of a whole number** below `2 ^ 53` is a whole decimal of that
value. -/
theorem exists_shortest_whole (tie : Tie) {n : Nat} (hpos : 0 < n) (h : n < 1 <<< 53) :
    ∃ coefficient exponent : Nat,
      shortest tie (n * Double.unitsPerOne) = ⟨coefficient, exponent⟩ ∧
        coefficient * 10 ^ exponent = n := by
  have hle : Double.unitsPerOne ≤ n * Double.unitsPerOne := Nat.le_mul_of_pos_left _ hpos
  have hne : n * Double.unitsPerOne ≠ 0 :=
    Nat.ne_of_gt (Nat.lt_of_lt_of_le Double.unitsPerOne_pos hle)
  obtain ⟨grid, coefficient, -, -, hfound, hreads, hcoarser⟩ :=
    exists_shortest tie (Double.representable_whole h) hne
  -- the search stops at the grid of the whole numbers, if not before
  have hgrid : 1074 ≤ grid := by
    by_contra hlt
    obtain ⟨whole, hwhole⟩ : ∃ whole, whole = 1074 + 0 := ⟨_, rfl⟩
    have hstart := le_coarsestGrid hle
    have hpassed := hcoarser whole (by omega) (by omega)
    rw [steps_div_whole n (by omega), hwhole, onGrid_whole] at hpassed
    refine hpassed ((Double.ofDecimal_whole_eq_iff h).mpr ?_)
    rw [Nat.pow_zero, Nat.mul_one]
  obtain ⟨exponent, rfl⟩ := Nat.exists_eq_add_of_le hgrid
  rw [onGrid_whole] at hfound hreads
  exact ⟨coefficient, exponent, hfound, (Double.ofDecimal_whole_eq_iff h).mp hreads⟩

end Decimal

end ScreenedExpr
