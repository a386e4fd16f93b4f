import ScreenedExpr.Proofs.NumericKeys

/-!
# Strings by their units

A string is measured and indexed by its 16-bit units, so its length is where its positions end.
The units taken out one by one are strings of one character, and what they come to when they are
put together again is the string, except that a supplementary character, one at or above
`U+10000`, has become two replacement characters.

* `Text.shown` — a text as its single units show it;
* `Double.add_ofNat` — whole numbers are added exactly, as lengths are;
* `Value.IndexedTo` — what indexing says of a string of a length;
* `Value.string_indexed` — every string is indexed to its number of units, and the lengths of
  two strings add up to that of their concatenation.
-/

namespace ScreenedExpr

namespace Text

/-- A character as its single units show it: both halves of a pair as replacement characters. -/
def charShown (c : Char) : List Char :=
  if c.toNat < 0x10000 then [c] else ['\uFFFD', '\uFFFD']

/-- **A text as its single units show it.** -/
def shown (text : String) : String := String.ofList (text.toList.flatMap charShown)

theorem toList_ofUnit (unit : Nat) : (ofUnit unit).toList =
    [if 0xD800 ≤ unit ∧ unit ≤ 0xDFFF then '\uFFFD' else Char.ofNat unit] := by
  unfold ofUnit
  split <;> exact String.toList_singleton _

/-- The single units of one character. -/
theorem flatMap_charUnits (c : Char) :
    (charUnits c).flatMap (fun unit => (ofUnit unit).toList) = charShown c := by
  have hrange := toNat_range c
  unfold charUnits charShown
  split
  · rw [List.flatMap_singleton, toList_ofUnit, if_neg (by omega), Char.ofNat_toNat]
  · -- both units of a pair are surrogates
    rw [List.flatMap_cons, List.flatMap_singleton, toList_ofUnit, toList_ofUnit,
      if_pos (by omega), if_pos (by omega)]
    rfl

/-- **The single units of a text, put together.** -/
theorem join_ofUnit (text : String) : String.join ((units text).map ofUnit) = shown text := by
  rw [← String.toList_inj, String.toList_join, List.flatMap_map, shown, String.toList_ofList,
    units, List.flatMap_assoc]
  simp only [flatMap_charUnits]

end Text

namespace Double

/-- A whole number below `2 ^ 53` is that integer. -/
theorem toInt?_ofNat {n : Nat} (h : n < 1 <<< 53) : (ofNat n).toInt? = some (n : Int) := by
  rw [ofNat_eq h, toInt?_eq_some_iff]
  rfl

/-- **Whole numbers are added exactly**, below `2 ^ 53`. -/
theorem add_ofNat {m n : Nat} (h : m + n < 1 <<< 53) : (ofNat m).add (ofNat n) = ofNat (m + n) := by
  have hm : m < 1 <<< 53 := Nat.lt_of_le_of_lt (Nat.le_add_right m n) h
  have hn : n < 1 <<< 53 := Nat.lt_of_le_of_lt (Nat.le_add_left n m) h
  have hsum : signedUnits false (m * unitsPerOne) + signedUnits false (n * unitsPerOne) =
      (((m + n) * unitsPerOne : Nat) : Int) := by
    rw [Nat.add_mul, Int.natCast_add]
    rfl
  rw [ofNat_eq hm, ofNat_eq hn, add]
  simp only [hsum]
  split
  · next hzero =>
    have hnone : m + n = 0 := by
      have hunits := Nat.mul_eq_zero.mp (Int.natCast_eq_zero.mp hzero)
      exact hunits.resolve_right (Nat.ne_of_gt unitsPerOne_pos)
    rw [hnone, ofNat, Nat.zero_mul]
    exact (round_mul false representable_zero Nat.one_pos).symm
  · rw [ofNat, Int.natAbs_natCast, decide_eq_false (by omega)]

end Double

namespace Value

/-! ## Positions in a string -/

section positions

variable {s : String} {n : Double} {i : Nat}

/-- A whole number is the position that it is equal to. -/
theorem numberPosition?_of_toInt? (hn : n.toInt? = some (i : Int)) (hi : i < 1 <<< 53) :
    numberPosition? n = some i := by
  have hsize : i < UInt64.size := Nat.lt_trans hi (by decide)
  rw [numberPosition?, hn]
  exact if_pos ⟨Int.natCast_nonneg i, hsize⟩

/-- A whole number selects what stands at its place. -/
theorem member_string_of_toInt? (hn : n.toInt? = some (i : Int)) (hi : i < 1 <<< 53) :
    (string s).member (number n) = (string s).standing i := by
  have hfields (fields) : string s ≠ object fields := Value.noConfusion
  rw [member_of_position hfields rfl, position?, numberPosition?_of_toInt? hn hi]
  rfl

/-- What stands at the places before the end. -/
theorem standing_string (hi : i < (Text.units s).length) :
    (string s).standing i = string (Text.ofUnit (Text.units s)[i]) := by
  rw [standing, List.getElem?_eq_getElem hi, Option.map_some, Option.getD_some]

/-- A place of a string is empty exactly if it is behind the end. -/
theorem standing_string_eq_undefined_iff :
    (string s).standing i = undefined ↔ (Text.units s).length ≤ i := by
  refine ⟨?_, fun hle => standing_of_le (v := string s) hle⟩
  intro h
  by_contra hlt
  rw [standing_string (Nat.lt_of_not_le hlt)] at h
  cases h

end positions

/-! ## Putting strings together -/

theorem add_string (s t : String) : (string s).add (string t) = string (s ++ t) := by
  have hadd : (string s).add (string t) = string (s ++ (string t).toText) := rfl
  rw [hadd, toText_string]

/-- Adding strings up is joining them. -/
theorem foldl_add_string (texts : List String) (start : String) :
    (texts.map string).foldl add (string start) = string (start ++ String.join texts) := by
  induction texts generalizing start with
  | nil => simp
  | cons text texts ih =>
    rw [List.map_cons, List.foldl_cons, add_string, ih, String.join_cons, String.append_assoc]

/-- **All the units of a string**, added up from the first to the last. -/
theorem foldl_add_member {s : String} (h : (Text.units s).length < 1 <<< 53) :
    ((List.range (Text.units s).length).map fun i =>
      (string s).member (number (.ofNat i))).foldl add (string "") = string (Text.shown s) := by
  have hmembers : ((List.range (Text.units s).length).map fun i =>
      (string s).member (number (.ofNat i))) = ((Text.units s).map Text.ofUnit).map string := by
    refine List.ext_getElem (by simp) ?_
    intro i hi _
    rw [List.length_map, List.length_range] at hi
    have hsmall := Nat.lt_trans hi h
    simp only [List.getElem_map, List.getElem_range]
    rw [member_string_of_toInt? (Double.toInt?_ofNat hsmall) hsmall, standing_string hi]
  rw [hmembers, foldl_add_string, Text.join_ofUnit, String.empty_append]

theorem member_length (s : String) :
    (string s).member (string "length") = number (.ofNat (Text.units s).length) := rfl

/-- **The length of a concatenation** is the sum of the lengths, as numbers are added. -/
theorem member_length_add {s t : String}
    (h : (Text.units s).length + (Text.units t).length < 1 <<< 53) :
    ((string s).add (string t)).member (string "length") =
      ((string s).member (string "length")).add ((string t).member (string "length")) := by
  rw [add_string, member_length, member_length, member_length, Text.units_append,
    List.length_append, ← Double.add_ofNat h]
  rfl

/-! ## Length and positions together -/

/-- **A string has a length, and positions up to it.** -/
structure IndexedTo (s : String) (length : Nat) : Prop where
  /-- the length is a number -/
  member_length : (string s).member (string "length") = number (.ofNat length)
  /-- and nothing is lost in it -/
  toInt?_length : (Double.ofNat length).toInt? = some (length : Int)
  /-- a whole number, of either zero too, selects nothing exactly if it is the length or more -/
  eq_undefined_iff {n : Double} {i : Nat} (hn : n.toInt? = some (i : Int)) (hi : i < 1 <<< 53) :
    (string s).member (number n) = undefined ↔ length ≤ i
  /-- and else a string of one character -/
  exists_char {n : Double} {i : Nat} (hn : n.toInt? = some (i : Int)) (hi : i < length) :
    ∃ c, (string s).member (number n) = string (String.singleton c)
  /-- put together, these are the string, but two replacement characters for every
  supplementary one -/
  foldl_add : ((List.range length).map fun i =>
    (string s).member (number (.ofNat i))).foldl add (string "") = string (Text.shown s)

/-- A string in range is indexed to the number of its units. -/
theorem indexedTo_units {s : String} (h : (Text.units s).length < 1 <<< 53) :
    IndexedTo s (Text.units s).length := by
  refine ⟨member_length s, Double.toInt?_ofNat h, ?_, ?_, foldl_add_member h⟩
  · intro n i hn hi
    rw [member_string_of_toInt? hn hi, standing_string_eq_undefined_iff]
  · intro n i hn hi
    rw [member_string_of_toInt? hn (Nat.lt_trans hi h), standing_string hi, Text.ofUnit]
    split
    · exact ⟨_, rfl⟩
    · exact ⟨_, rfl⟩

/-- **Length and indexing agree.** A string of fewer than `2 ^ 53` units is indexed to their
number; and with another one that leaves their number in this range, its length and that of the
other add up to the length of both together. -/
theorem string_indexed (s : String) (h : (Text.units s).length < 1 <<< 53) :
    IndexedTo s (Text.units s).length ∧
      ∀ t, (Text.units s).length + (Text.units t).length < 1 <<< 53 →
        IndexedTo (s ++ t) ((Text.units s).length + (Text.units t).length) ∧
          (string s).add (string t) = string (s ++ t) ∧
          ((string s).add (string t)).member (string "length") =
            ((string s).member (string "length")).add ((string t).member (string "length")) := by
  refine ⟨indexedTo_units h, ?_⟩
  intro t hboth
  refine ⟨?_, add_string s t, member_length_add hboth⟩
  rw [← List.length_append, ← Text.units_append] at hboth ⊢
  exact indexedTo_units hboth

/-- A string of three characters and four units, of which two show as replacement characters,
and one of a single character and two units. -/
theorem string_indexed_pair :
    4 + 2 < 1 <<< 53 ∧ (Text.units "a😀z").length = 4 ∧ (Text.units "😀").length = 2 ∧
      IndexedTo "a😀z" 4 ∧ Text.shown "a😀z" = "a\uFFFD\uFFFDz" ∧
      ((string "a😀z").add (string "😀")).member (string "length") = number (.ofNat 6) := by
  have hs : (Text.units "a😀z").length = 4 := by decide +kernel
  have ht : (Text.units "😀").length = 2 := by decide +kernel
  have hboth : 4 + 2 < 1 <<< 53 := by decide
  obtain ⟨hindexed, hadd⟩ := string_indexed "a😀z" (by rw [hs]; decide)
  obtain ⟨hconcat, hstring, -⟩ := hadd "😀" (by rwa [hs, ht])
  rw [hs] at hindexed hconcat
  rw [ht] at hconcat
  exact ⟨hboth, hs, ht, hindexed, by decide +kernel, hstring ▸ hconcat.member_length⟩

end Value

end ScreenedExpr
