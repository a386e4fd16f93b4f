import ScreenedExpr.Expr.Eval
import ScreenedExpr.Proofs.NumberText

/-!
# Numeric keys

A number reads a value in two ways, as it is and through its text. An object is read by the text
either way. An array or a string is read by position: a number is the position that it is equal
to, and a text is the position whose digits it shows. Below `2 ^ 53` these are the same, because
a number has the digits of a position as its text exactly if it is equal to the position; and no
array or string is taken to have more positions than that.

* `numberPosition?_eq_some_iff`, `textPosition?_numberText_iff` — the position that a number is,
  and the one that its text is;
* `member_of_position`, `elim_standing_congr` — reading by position;
* `member_numberText` — a number and its text select the same member, as keys and in expressions.
-/

namespace ScreenedExpr

/-- A finite number is the natural number at its place. -/
theorem Double.toInt?_eq_some_iff {negative : Bool} {units : Nat} {h : Representable units}
    {i : Nat} : (finite negative units h).toInt? = some (i : Int) ↔
      (finite negative units h).signed = some ((i * unitsPerOne : Nat) : Int) := by
  have hpos := unitsPerOne_pos
  have hwhole (q : Nat) : units % unitsPerOne = 0 ∧ units / unitsPerOne = q ↔
      units = q * unitsPerOne := by
    refine ⟨?_, ?_⟩
    · rintro ⟨hmod, rfl⟩
      exact (Nat.div_mul_cancel (Nat.dvd_of_mod_eq_zero hmod)).symm
    · rintro rfl
      exact ⟨Nat.mul_mod_left .., Nat.mul_div_cancel _ hpos⟩
  have hneg (m n : Nat) : -(m : Int) = n ↔ m = 0 ∧ n = 0 := by omega
  cases negative with
  | false =>
    simp only [toInt?, signed, Bool.false_eq_true, if_false, Option.ite_none_right_eq_some,
      Option.some.injEq, Int.natCast_inj, hwhole]
  | true =>
    -- only zero is a natural number with a minus sign
    simp only [toInt?, signed, if_true, Option.ite_none_right_eq_some, Option.some.injEq, hneg,
      ← and_assoc, hwhole, Nat.zero_mul, Nat.mul_eq_zero, Nat.ne_of_gt hpos, or_false]

namespace Value

/-! ## Positions -/

/-- A text is the position whose digits it shows. -/
theorem textPosition?_eq_some_iff {text : String} {i : Nat} : textPosition? text = some i ↔
    i < UInt64.size ∧ text.toList = Nat.toDigits 10 i := by
  rw [textPosition?, Decimal.readDigits?]
  refine ⟨?_, ?_⟩
  · intro h
    split at h
    · split at h
      · next hplain =>
        cases h
        exact ⟨hplain.1, hplain.2.symm⟩
      · cases h
    · cases h
  · rintro ⟨hsize, htext⟩
    have hdigits : text.toList ≠ [] ∧ text.toList.all Char.isDigit = true := by
      rw [htext]
      exact ⟨Nat.toDigits_ne_nil,
        List.all_eq_true.mpr fun c hc => Decimal.isDigit_of_mem_toDigits hc⟩
    rw [if_pos hdigits, htext, Nat.ofDigitChars_toDigits (by decide) (by decide)]
    exact if_pos ⟨hsize, rfl⟩

/-- **The position that the text of a number is**: the one equal to the number. -/
theorem textPosition?_numberText_iff {n : Double} {i : Nat} (h : i < 1 <<< 53) :
    textPosition? (numberText n) = some i ↔ n.eq (.ofNat i) = true := by
  have hsize : i < UInt64.size := Nat.lt_trans h (by decide)
  rw [textPosition?_eq_some_iff, and_iff_right hsize, ← numberText_eq_iff h,
    ← String.toList_inj, String.toList_ofList]

/-- **The position that a number is**: the one equal to it. -/
theorem numberPosition?_eq_some_iff {n : Double} {i : Nat} (h : i < 1 <<< 53) :
    numberPosition? n = some i ↔ n.eq (.ofNat i) = true := by
  have hsize : i < UInt64.size := Nat.lt_trans h (by decide)
  have hint : numberPosition? n = some i ↔ n.toInt? = some (i : Int) := by
    rw [numberPosition?]
    cases n.toInt? with
    | none => simp
    | some j =>
      simp only [Option.ite_none_right_eq_some, Option.some.injEq]
      omega
  rw [hint]
  cases n with
  | nan => exact iff_of_false nofun nofun
  | infinite negative =>
    refine iff_of_false nofun ?_
    intro heq
    obtain hsame | ⟨hzero, -⟩ := Double.eq_or_isZero heq
    · rw [Double.ofNat_eq h] at hsame
      cases hsame
    · cases hzero
  | finite negative units hunits =>
    rw [Double.toInt?_eq_some_iff, Double.eq_ofNat_iff h]

/-! ## Members -/

/-- How many positions a value has: items of an array or units of a string. -/
def positions : Value → Nat
  | array items => items.length
  | string s => (Text.units s).length
  | _ => 0

/-- What a value has at a position: an item of an array or the text of a unit. -/
def standing (value : Value) (i : Nat) : Value :=
  match value with
  | array items => items[i]?.getD undefined
  | string s => ((Text.units s)[i]?.map fun unit => string (Text.ofUnit unit)).getD undefined
  | _ => undefined

/-- Nothing stands behind the last position. -/
theorem standing_of_le {v : Value} {i : Nat} (h : v.positions ≤ i) :
    v.standing i = undefined := by
  cases v with
  | array items => rw [standing, List.getElem?_eq_none h, Option.getD_none]
  | string s => rw [standing, List.getElem?_eq_none h, Option.map_none, Option.getD_none]
  | _ => rfl

/-- A position that the value does not have selects nothing. -/
theorem elim_standing_eq_undefined {v : Value} {position : Option Nat}
    (h : ∀ i < v.positions, position ≠ some i) :
    position.elim undefined v.standing = undefined := by
  cases position with
  | none => rfl
  | some i => exact standing_of_le (Nat.le_of_not_lt fun hi => h i hi rfl)

/-- What a position selects depends only on the positions that the value has. -/
theorem elim_standing_congr {v : Value} {p q : Option Nat}
    (h : ∀ i < v.positions, p = some i ↔ q = some i) :
    p.elim undefined v.standing = q.elim undefined v.standing := by
  by_cases hfound : ∃ i < v.positions, p = some i
  · obtain ⟨i, hi, rfl⟩ := hfound
    rw [(h i hi).mp rfl]
  · have hp : ∀ i < v.positions, p ≠ some i := fun i hi hsome => hfound ⟨i, hi, hsome⟩
    have hq : ∀ i < v.positions, q ≠ some i := fun i hi hsome => hp i hi ((h i hi).mpr hsome)
    rw [elim_standing_eq_undefined hp, elim_standing_eq_undefined hq]

/-- A value with positions is read by position, unless the key asks for the length. -/
theorem member_of_position {v key : Value} (hfields : ∀ fields, v ≠ object fields)
    (hlength : key.isLengthKey = false) :
    v.member key = key.position?.elim undefined v.standing := by
  cases v with
  | object fields => exact absurd rfl (hfields fields)
  | array items | string s =>
    rw [member, hlength, if_neg Bool.false_ne_true]
    cases key.position? <;> rfl
  | _ => cases key.position? <;> rfl

/-- No number asks for the length. -/
theorem numberText_ne_length (n : Double) : numberText n ≠ "length" := by
  intro h
  obtain ⟨c, more, htext, hfirst⟩ := exists_numberText_cons n
  rw [h] at htext
  obtain rfl : c = 'l' := (List.cons.inj htext).1.symm
  exact absurd hfirst (by decide)

/-- A value is read alike by a number and by its text. -/
theorem member_eq_member_numberText {v : Value} (n : Double) (h : v.positions ≤ 1 <<< 53) :
    v.member (number n) = v.member (string (numberText n)) := by
  by_cases hobject : ∃ fields, v = object fields
  · obtain ⟨fields, rfl⟩ := hobject
    -- either key names the same field
    rfl
  have hfields (fields) : v ≠ object fields := fun hv => hobject ⟨fields, hv⟩
  have hlength : (string (numberText n)).isLengthKey = false :=
    beq_eq_false_iff_ne.mpr (numberText_ne_length n)
  rw [member_of_position hfields rfl, member_of_position hfields hlength]
  refine elim_standing_congr ?_
  intro i hi
  have hsmall := Nat.lt_of_lt_of_le hi h
  exact (numberPosition?_eq_some_iff hsmall).trans (textPosition?_numberText_iff hsmall).symm

/-- An empty text in front of a number leaves its text. -/
theorem string_empty_add_number (n : Double) :
    (string "").add (number n) = string (numberText n) := by
  have hadd : (string "").add (number n) = string ("" ++ (number n).toText) := rfl
  rw [hadd, String.empty_append, toText]

/-- **Numeric keys and their texts** select the same member of every value with at most `2 ^ 53`
positions, whatever the number; and so do the expressions `v[n]` and `v["" + n]`. -/
theorem member_numberText (v : Value) (n : Double) (h : v.positions ≤ 1 <<< 53) :
    v.member (number n) = v.member (string (numberText n)) ∧
      ∀ (context : Context) (object key : Expr),
        object.eval context = v → key.eval context = number n →
          (Expr.member object key true).eval context =
            (Expr.member object (.binary .add (.literal (string "")) key) true).eval context := by
  refine ⟨member_eq_member_numberText n h, ?_⟩
  intro context object key hobject hkey
  simp only [Expr.eval, hobject, hkey, BinaryOp.apply, string_empty_add_number,
    member_eq_member_numberText n h]

/-- The second half of a pair stands at the number `2` and at its text. -/
theorem member_numberText_pair :
    let v := string "a😀"
    let n := Double.ofNat 2
    let context := Context.ofList [("v", v), ("n", number n)]
    let key := Expr.identifier "n"
    v.positions ≤ 1 <<< 53 ∧ context.value "v" = v ∧ context.value "n" = number n ∧
      v.member (string (numberText n)) = string "\uFFFD" ∧
      (Expr.member (.identifier "v") (.binary .add (.literal (string "")) key) true).eval context =
        string "\uFFFD" := by
  intro v n context key
  have hpositions : v.positions ≤ 1 <<< 53 := by decide +kernel
  have hv : context.value "v" = v := by decide +kernel
  have hn : context.value "n" = number n := by decide +kernel
  have hmember : v.member (number n) = string "\uFFFD" := by decide +kernel
  obtain ⟨htext, heval⟩ := member_numberText v n hpositions
  refine ⟨hpositions, hv, hn, htext.symm.trans hmember, ?_⟩
  rw [← heval context (.identifier "v") key hv hn]
  decide +kernel

end Value

end ScreenedExpr
