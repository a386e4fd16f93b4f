import ScreenedExpr.Proofs.StrictEquality
import ScreenedExpr.Proofs.Verdict

/-!
# What is lost in a document

A value that is written as a document and read back comes out with null in place of `undefined`
and of the numbers that are not finite, and with one zero in place of both. Nothing else is
lost, at any depth: whole numbers are read back from integers, all others from doubles, and
arrays and objects keep their items and fields.

* `Value.documented` — a value with these losses;
* `Value.ofJson_toJson` — what is read back;
* `Value.IsDocumentable` — the values that are read back as equal ones;
* `Json.IsSound` — the documents that can be read, whose numbers are of 64 bits;
* `Value.document_roundTrip` — the laws, together.
-/

namespace ScreenedExpr

/-! ## Numbers -/

namespace Double

/-- A number that is no infinity and not *not a number*. -/
def isFinite : Double → Bool
  | finite .. => true
  | _ => false

/-- A zero of either sign is the integer zero. -/
theorem toInt?_of_isZero {n : Double} (h : n.isZero = true) : n.toInt? = some 0 := by
  cases n with
  | finite negative units =>
    obtain rfl : units = 0 := beq_iff_eq.mp h
    rw [toInt?, if_pos (Nat.zero_mod _), Nat.zero_div]
    cases negative <;> rfl
  | _ => cases h

/-- An integer other than zero has the sign of its number. -/
theorem eq_of_toInt? {negative : Bool} {units : Nat} {h : Representable units} {i : Int}
    (hi : (finite negative units h).toInt? = some i) (hne : units ≠ 0) :
    decide (i < 0) = negative := by
  rw [toInt?] at hi
  split at hi
  · next hmod =>
    have hquotient : units / unitsPerOne ≠ 0 := by
      intro hzero
      have hunits := Nat.div_mul_cancel (Nat.dvd_of_mod_eq_zero hmod)
      rw [hzero, Nat.zero_mul] at hunits
      exact hne hunits.symm
    generalize units / unitsPerOne = quotient at hi hquotient
    cases hi
    cases negative with
    | false => exact decide_eq_false (by rw [if_neg Bool.false_ne_true]; omega)
    | true => exact decide_eq_true (by rw [if_pos rfl]; omega)
  · cases hi

/-- A whole number of units is at most doubled by rounding. -/
theorem roundUnits_le (units : Nat) : roundUnits units 1 ≤ 2 * units := by
  rw [roundUnits, Nat.div_one, Nat.one_shiftLeft, Nat.shiftLeft_eq]
  rcases Nat.eq_zero_or_pos units with rfl | hpos
  · rw [roundDiv, Nat.zero_div, Nat.zero_mod, if_pos (Nat.two_pow_pos _), Nat.zero_mul]
  -- at most one step of the last significand bit is added, and that bit is none above the first
  have hbit : 2 ^ lastBit units ≤ units :=
    Nat.le_trans (Nat.pow_le_pow_right (by decide) (Nat.sub_le _ _))
      (Nat.log2_self_le (Nat.ne_of_gt hpos))
  calc roundDiv units (2 ^ lastBit units) * 2 ^ lastBit units
      ≤ (units / 2 ^ lastBit units + 1) * 2 ^ lastBit units :=
        Nat.mul_le_mul_right _ (roundDiv_le _ _)
    _ = units / 2 ^ lastBit units * 2 ^ lastBit units + 2 ^ lastBit units := by
        rw [Nat.add_mul, Nat.one_mul]
    _ ≤ units + units := Nat.add_le_add (Nat.div_mul_le_self _ _) hbit
    _ = 2 * units := (Nat.two_mul units).symm

/-- **Integers of up to 64 bits are finite** as doubles. -/
theorem isFinite_ofInt {i : Int} (h : i.natAbs ≤ 1 <<< 64) : (ofInt i).isFinite = true := by
  have hlimit : roundUnits (i.natAbs * unitsPerOne) 1 < unitsLimit := by
    have hshift (bits one limit : Nat) (hlt : bits + 1 + one < limit) :
        2 * (1 <<< bits * 1 <<< one) < 1 <<< limit := by
      rw [Nat.one_shiftLeft, Nat.one_shiftLeft, Nat.one_shiftLeft, ← Nat.pow_add, Nat.mul_comm,
        ← Nat.pow_succ]
      exact Nat.pow_lt_pow_right (by decide) (by omega)
    calc roundUnits (i.natAbs * unitsPerOne) 1
        ≤ 2 * (i.natAbs * unitsPerOne) := roundUnits_le _
      _ ≤ 2 * (1 <<< 64 * unitsPerOne) := Nat.mul_le_mul_left 2 (Nat.mul_le_mul_right _ h)
      _ < unitsLimit := hshift 64 1074 2098 (by decide)
  rw [ofInt, round, dif_pos hlimit]
  rfl

end Double

namespace Value

/-! ## The losses -/

/-- What is left of a number: nothing unless it is finite, and of zero no sign. -/
def documentedNumber (n : Double) : Value :=
  if n.isZero then number (.zero false) else if n.isFinite then number n else null

mutual

/-- **What is left of a value** in a document. -/
def documented : Value → Value
  | undefined => null
  | number n => documentedNumber n
  | array items => array (documentedItems items)
  | object fields => object (documentedFields fields)
  | value => value

/-- What is left of the items of an array. -/
def documentedItems : List Value → List Value
  | [] => []
  | item :: items => item.documented :: documentedItems items

/-- What is left of the fields of an object. -/
def documentedFields : List (String × Value) → List (String × Value)
  | [] => []
  | (name, value) :: fields => (name, value.documented) :: documentedFields fields

end

/-- An array keeps its length and the order of its items. -/
theorem documented_array (items : List Value) :
    (array items).documented = array (items.map documented) := by
  rw [documented, array.injEq]
  induction items with
  | nil => rfl
  | cons item items ih => rw [documentedItems, ih, List.map_cons]

/-- An object keeps the names of its fields. -/
theorem documented_object (fields : List (String × Value)) : (object fields).documented =
    object (fields.map fun field => (field.1, field.2.documented)) := by
  rw [documented, object.injEq]
  induction fields with
  | nil => rfl
  | cons field fields ih => rw [documentedFields, ih, List.map_cons]

/-! ## Reading back -/

/-- A finite number other than zero is left as it is. -/
theorem documentedNumber_finite {negative : Bool} {units : Nat} {h : Double.Representable units}
    (hne : units ≠ 0) :
    documentedNumber (.finite negative units h) = number (.finite negative units h) := by
  have hzero : ¬(Double.finite negative units h).isZero = true :=
    fun hzero => hne (beq_iff_eq.mp hzero)
  rw [documentedNumber, if_neg hzero]
  rfl

/-- **A number is read back** with its losses. Only the integers among the numbers pass through
an integer, and only zero loses its sign there. -/
theorem ofJson_toJson_number (n : Double) : ofJson n.toJson = documentedNumber n := by
  cases n with
  | nan => rfl
  | infinite => rfl
  | finite negative units h =>
    by_cases hunits : units = 0
    · subst hunits
      have hzero : (Double.finite negative 0 h).isZero = true := rfl
      rw [Double.toJson, Double.toInt?_of_isZero hzero, documentedNumber, if_pos hzero]
      exact congrArg number (Double.ofInt_eq (Double.toInt?_of_isZero hzero))
    · rw [documentedNumber_finite hunits, Double.toJson]
      split
      · next i hi =>
        split
        · rw [ofJson, JsonNumber.toDouble, Double.ofInt_eq hi, Double.eq_of_toInt? hi hunits]
        · rfl
      · rfl

/-- **A value is read back** with its losses. -/
theorem ofJson_toJson {v : Value} (h : v.Ordered) : ofJson v.toJson = v.documented := by
  induction v using induction with
  | scalar v hv =>
    cases v with
    | number n => exact ofJson_toJson_number n
    | array | object => cases hv
    | _ => rfl
  | array items ih =>
    have hitems := orderedItems_iff.mp h
    rw [toJson, ofJson, toJsonItems_eq_map, ofJsonItems_eq_map, List.map_map, documented_array,
      array.injEq]
    exact List.map_congr_left fun item hitem => ih item hitem (hitems item hitem)
  | object fields ih =>
    obtain ⟨hsorted, hfields⟩ := h
    rw [orderedFields_iff] at hfields
    have hread : (fields.map fun field => (field.1, ofJson field.2.toJson)) =
        fields.map fun field => (field.1, field.2.documented) :=
      List.map_congr_left fun field hfield =>
        congrArg (Prod.mk field.1) (ih field hfield (hfields field hfield))
    rw [toJson, ofJson, toJsonEntries_eq_map, ofJsonEntries_eq_map, List.map_map,
      documented_object, object.injEq]
    -- the fields are in order already, so reading them changes nothing
    exact (congrArg Fields.ofList hread).trans
      (Fields.ofList_of_sorted (Fields.sorted_map documented hsorted))

/-- The losses leave the fields of all objects in order. -/
theorem ordered_documented {v : Value} (h : v.Ordered) : v.documented.Ordered := by
  induction v using induction with
  | scalar v hv =>
    cases v with
    | number n =>
      rw [documented, documentedNumber]
      split
      · exact trivial
      split
      · exact trivial
      · exact trivial
    | array | object => cases hv
    | _ => exact trivial
  | array items ih =>
    have hitems := orderedItems_iff.mp h
    rw [documented_array, Ordered, orderedItems_iff, List.forall_mem_map]
    exact fun item hitem => ih item hitem (hitems item hitem)
  | object fields ih =>
    obtain ⟨hsorted, hfields⟩ := h
    rw [orderedFields_iff] at hfields
    rw [documented_object, Ordered, orderedFields_iff, List.forall_mem_map]
    exact ⟨Fields.sorted_map documented hsorted,
      fun field hfield => ih field hfield (hfields field hfield)⟩

/-- **What is lost is lost at once.** -/
theorem documented_documented (v : Value) : v.documented.documented = v.documented := by
  induction v using induction with
  | scalar v hv =>
    cases v with
    | number n =>
      cases n with
      | nan | infinite => rfl
      | finite negative units h =>
        by_cases hunits : units = 0
        · subst hunits
          rfl
        · rw [documented, documentedNumber_finite hunits, documented,
            documentedNumber_finite hunits]
    | array | object => cases hv
    | _ => rfl
  | array items ih =>
    rw [documented_array, documented_array, List.map_map, array.injEq]
    exact List.map_congr_left ih
  | object fields ih =>
    rw [documented_object, documented_object, List.map_map, object.injEq]
    exact List.map_congr_left fun field hfield => congrArg (Prod.mk field.1) (ih field hfield)

/-! ## Values without losses -/

/-- **A value that a document can say**, but for the sign of zeros: there is neither `undefined`
nor a number that is not finite in it. -/
def IsDocumentable (v : Value) : Prop :=
  ∀ piece, v.Component piece → piece ≠ undefined ∧ ∀ n, piece = number n → n.isFinite = true

/-- A document can say a value if it can say its parts. -/
theorem isDocumentable_iff {v : Value} : v.IsDocumentable ↔
    (v ≠ undefined ∧ ∀ n, v = number n → n.isFinite = true) ∧
      ∀ part ∈ v.parts, part.IsDocumentable := by
  simp only [IsDocumentable, component_iff (a := v), or_imp, forall_and, forall_eq,
    forall_exists_index, and_imp]
  tauto

theorem isDocumentable_of_scalar {v : Value} (hv : v.isContainer = false) :
    v.IsDocumentable ↔ v ≠ undefined ∧ ∀ n, v = number n → n.isFinite = true := by
  rw [isDocumentable_iff, parts_of_scalar hv]
  exact and_iff_left (List.forall_mem_nil _)

theorem isDocumentable_of_container {v : Value} (hv : v.isContainer = true) :
    v.IsDocumentable ↔ ∀ part ∈ v.parts, part.IsDocumentable := by
  rw [isDocumentable_iff]
  refine and_iff_right ⟨?_, ?_⟩
  · rintro rfl
    cases hv
  · rintro n rfl
    cases hv

/-- A number equals what is left of it exactly if it is finite. -/
theorem strictEq_documentedNumber_iff {n : Double} :
    (documentedNumber n).strictEq (number n) = true ↔ n.isFinite = true := by
  cases n with
  | nan | infinite => exact iff_of_false Bool.false_ne_true Bool.false_ne_true
  | finite negative units h =>
    refine iff_of_true ?_ rfl
    by_cases hunits : units = 0
    · subst hunits
      cases negative <;> rfl
    · rw [documentedNumber_finite hunits]
      exact StrictEqual.strictEq (.number (Double.eq_self_iff.mpr Double.noConfusion))

/-- **What is left of a value equals the value** exactly if a document can say it. -/
theorem strictEq_documented_iff {v : Value} :
    v.documented.strictEq v = true ↔ v.IsDocumentable := by
  induction v using induction with
  | scalar v hv =>
    rw [isDocumentable_of_scalar hv]
    cases v with
    | undefined => exact iff_of_false Bool.false_ne_true fun h => h.1 rfl
    | number n =>
      rw [documented, strictEq_documentedNumber_iff]
      exact ⟨fun h => ⟨Value.noConfusion, fun _ hn => number.inj hn ▸ h⟩, fun h => h.2 n rfl⟩
    | array | object => cases hv
    | _ =>
      exact iff_of_true (StrictEqual.strictEq (.same rfl fun _ => Value.noConfusion))
        ⟨Value.noConfusion, fun _ => Value.noConfusion⟩
  | array items ih =>
    rw [isDocumentable_of_container rfl, documented_array]
    have hitems : (array (items.map documented)).strictEq (array items) = true ↔
        ∀ item ∈ items, item.documented.strictEq item = true :=
      strictEqItems_iff.trans (List.forall₂_map_left_iff.trans List.forall₂_same)
    exact hitems.trans (forall₂_congr ih)
  | object fields ih =>
    rw [isDocumentable_of_container rfl, documented_object]
    have hfields : (object (fields.map fun field => (field.1, field.2.documented))).strictEq
          (object fields) = true ↔
        ∀ field ∈ fields, field.2.documented.strictEq field.2 = true := by
      refine strictEqFields_iff.trans (List.forall₂_map_left_iff.trans (List.forall₂_same.trans ?_))
      simp only [true_and]
    rw [hfields, parts, List.forall_mem_map]
    exact forall₂_congr ih

end Value

/-! ## Documents -/

/-- A number that a document can be read with: an integer that fits 64 bits, signed or unsigned,
or a finite double. -/
inductive JsonNumber.IsSound : JsonNumber → Prop where
  /-- an integer -/
  | int {i : Int} (hleast : -(1 <<< 63) ≤ i) (hgreatest : i < 1 <<< 64) : IsSound (.int i)
  /-- a double -/
  | double {d : Double} (h : d.isFinite = true) : IsSound (.double d)

/-- **A document that can be read**, which is one with such numbers. -/
inductive Json.IsSound : Json → Prop where
  /-- the null -/
  | null : IsSound .null
  /-- a truth value -/
  | bool (b : Bool) : IsSound (.bool b)
  /-- a number -/
  | number {n : JsonNumber} (h : n.IsSound) : IsSound (.number n)
  /-- a string -/
  | string (s : String) : IsSound (.string s)
  /-- an array of such documents -/
  | array {items : List Json} (h : ∀ item ∈ items, IsSound item) : IsSound (.array items)
  /-- an object of such documents -/
  | object {entries : List (String × Json)} (h : ∀ entry ∈ entries, IsSound entry.2) :
    IsSound (.object entries)

theorem JsonNumber.IsSound.isFinite_toDouble {n : JsonNumber} (h : n.IsSound) :
    n.toDouble.isFinite = true := by
  cases h with
  | int hleast hgreatest => exact Double.isFinite_ofInt (by omega)
  | double h => exact h

namespace Value

variable {json : Json}

/-- The fields of the value of a document come from its entries. -/
theorem exists_of_mem_ofJson {entries : List (String × Json)} {field : String × Value}
    (h : field ∈ Fields.ofList (ofJsonEntries entries)) :
    ∃ entry ∈ entries, field = (entry.1, ofJson entry.2) := by
  rw [ofJsonEntries_eq_map] at h
  obtain ⟨entry, hentry, rfl⟩ := List.mem_map.mp (Fields.mem_ofList h)
  exact ⟨entry, hentry, rfl⟩

/-- In the value of a document, the fields of all objects are in order. -/
theorem ordered_ofJson (h : json.IsSound) : (ofJson json).Ordered := by
  induction h with
  | array _ ih =>
    rw [ofJson, Ordered, orderedItems_iff, ofJsonItems_eq_map, List.forall_mem_map]
    exact ih
  | object _ ih =>
    rw [ofJson, Ordered, orderedFields_iff]
    refine ⟨Fields.sorted_ofList _, ?_⟩
    intro field hfield
    obtain ⟨entry, hentry, rfl⟩ := exists_of_mem_ofJson hfield
    exact ih entry hentry
  | _ => exact trivial

/-- **The value of a document is one that a document can say.** -/
theorem isDocumentable_ofJson (h : json.IsSound) : (ofJson json).IsDocumentable := by
  induction h with
  | number h =>
    rw [ofJson, isDocumentable_of_scalar rfl]
    exact ⟨Value.noConfusion, fun _ hn => number.inj hn ▸ h.isFinite_toDouble⟩
  | array _ ih =>
    rw [ofJson, isDocumentable_of_container rfl, parts, ofJsonItems_eq_map, List.forall_mem_map]
    exact ih
  | object _ ih =>
    rw [ofJson, isDocumentable_of_container rfl, parts, List.forall_mem_map]
    intro field hfield
    obtain ⟨entry, hentry, rfl⟩ := exists_of_mem_ofJson hfield
    exact ih entry hentry
  | _ =>
    rw [ofJson, isDocumentable_of_scalar rfl]
    exact ⟨Value.noConfusion, fun _ => Value.noConfusion⟩

/-! ## The laws together -/

/-- **Writing a value and reading it back** loses what documents cannot say: null takes the place
of `undefined` and of the numbers that are not finite, and positive zero that of negative zero.
So the value is equal to what is read back exactly if none of the former is in it, and a second
round changes nothing. In what was read from a document there is none of it, so one round leaves
an equal value: only the signs of zeros can differ. -/
theorem document_roundTrip (v : Value) (h : v.Ordered) :
    ofJson v.toJson = v.documented ∧
      ((ofJson v.toJson).strictEq v = true ↔ v.IsDocumentable) ∧
      ofJson (ofJson v.toJson).toJson = ofJson v.toJson ∧
      ∀ json : Json, json.IsSound →
        (ofJson json).IsDocumentable ∧
          ofJson (ofJson json).toJson = (ofJson json).documented ∧
          (ofJson (ofJson json).toJson).strictEq (ofJson json) = true := by
  have hread := ofJson_toJson h
  refine ⟨hread, ?_, ?_, ?_⟩
  · rw [hread, strictEq_documented_iff]
  · rw [hread, ofJson_toJson (ordered_documented h), documented_documented]
  · intro json hjson
    have hsay := isDocumentable_ofJson hjson
    have hagain := ofJson_toJson (ordered_ofJson hjson)
    refine ⟨hsay, hagain, ?_⟩
    rw [hagain, strictEq_documented_iff]
    exact hsay

/-- All the losses inside one object, with a whole number that is too large to be written as an
integer; and the greatest integer of a document, next to a negative zero. -/
theorem document_roundTrip_losses :
    let large := number (.ofInt (-(1 <<< 53)))
    let v := object [("a", array [undefined, number .nan, number (.infinite true)]),
      ("b", array [number (.zero true), large])]
    let json := Json.array [.number (.int ((1 <<< 64) - 1)), .number (.double (.zero true))]
    v.Ordered ∧ json.IsSound ∧
      ofJson v.toJson =
        object [("a", array [null, null, null]), ("b", array [number (.zero false), large])] ∧
      (ofJson (ofJson json).toJson).strictEq (ofJson json) = true := by
  intro large v json
  have hv : v.Ordered := by
    have hsorted : Fields.Sorted
        [("a", array [undefined, number .nan, number (.infinite true)]),
          ("b", array [number (.zero true), large])] :=
      List.pairwise_pair.mpr (by decide)
    exact ⟨hsorted, ⟨trivial, trivial, trivial, trivial⟩, ⟨trivial, trivial, trivial⟩, trivial⟩
  have hjson : json.IsSound := by
    refine .array (List.forall_mem_cons.mpr ⟨.number (.int (by decide) (by decide)), ?_⟩)
    exact List.forall_mem_singleton.mpr (.number (.double rfl))
  obtain ⟨hread, -, -, hdocuments⟩ := document_roundTrip v hv
  obtain ⟨-, -, hequal⟩ := hdocuments json hjson
  exact ⟨hv, hjson, hread.trans (by decide +kernel), hequal⟩

end Value

end ScreenedExpr
