import ScreenedExpr.Proofs.Fields
import ScreenedExpr.Proofs.Numeral
import ScreenedExpr.Proofs.OwnData

/-!
# Equality without coercion

Strict equality compares values by content at every depth. It is no identity: the two zeros are
equal, wherever they stand, and *not a number* equals nothing, so a value that has it inside
does not even equal itself. Apart from that it is an equivalence, and nothing that a value is
coerced to tells equal values apart.

* `Value.induction` — to show a fact of all values, show it of the scalars, and of a container
  with the fact of its items or fields at hand;
* `StrictEqual` — what makes two values equal, one level deep;
* `strictEq_self_iff` — which values equal themselves;
* `strictEq_object_iff` — objects are compared name by name;
* `toText_eq_of_strictEq` — equal values have the same text;
* `strictEq_equivalence` — the laws, together.
-/

namespace ScreenedExpr

/-! ## Numbers -/

namespace Double

variable {a b c : Double}

theorem eq_comm (a b : Double) : a.eq b = b.eq a := by
  rw [Bool.eq_iff_iff, eq_iff, eq_iff]
  simp only [and_comm]

theorem eq_trans (h : a.eq b = true) (h' : b.eq c = true) : a.eq c = true := by
  obtain ⟨x, ha, hb⟩ := eq_iff.mp h
  obtain ⟨y, hb', hc⟩ := eq_iff.mp h'
  obtain rfl := Option.some.inj (hb.symm.trans hb')
  exact eq_iff.mpr ⟨x, ha, hc⟩

/-- Only *not a number* does not equal itself. -/
theorem eq_self_iff : a.eq a = true ↔ a ≠ nan := by
  rw [eq_iff]
  cases a with
  | nan => simp [signed]
  | infinite => simp [signed]
  | finite => simp [signed]

/-- A position is known by its distance from zero and, away from zero, its side. -/
theorem position_inj {m n : Bool} {units units' : Nat}
    (h : (if m then -(units : Int) else units) = if n then -(units' : Int) else units') :
    units = units' ∧ (m = n ∨ units = 0) := by
  cases m <;> cases n <;> simp at h ⊢ <;> omega

/-- **Equal numbers** are the same number, or both are zero. -/
theorem eq_or_isZero (h : a.eq b = true) : a = b ∨ a.isZero = true ∧ b.isZero = true := by
  obtain ⟨x, ha, hb⟩ := eq_iff.mp h
  have hsigned : a.signed = b.signed := ha.trans hb.symm
  have hlimit : unitsLimit ≠ 0 := Nat.ne_of_gt unitsLimit_pos
  -- the infinities lie apart from each other, and from all finite numbers
  cases a with
  | nan => cases ha
  | infinite m =>
    cases b with
    | nan => cases hb
    | infinite n =>
      obtain ⟨-, rfl | hzero⟩ := position_inj (Option.some.inj hsigned)
      · exact .inl rfl
      · exact absurd hzero hlimit
    | finite n units' hunits' =>
      obtain ⟨rfl, -⟩ := position_inj (Option.some.inj hsigned)
      exact absurd hunits'.1 (Nat.lt_irrefl _)
  | finite m units hunits =>
    cases b with
    | nan => cases hb
    | infinite n =>
      obtain ⟨rfl, -⟩ := position_inj (Option.some.inj hsigned)
      exact absurd hunits.1 (Nat.lt_irrefl _)
    | finite n units' hunits' =>
      obtain ⟨rfl, rfl | rfl⟩ := position_inj (Option.some.inj hsigned)
      · exact .inl rfl
      · exact .inr ⟨rfl, rfl⟩

end Double

/-! ## Lists, pair by pair -/

section pairs

variable {α : Type} {R S : α → α → Prop} {as bs cs : List α}

theorem forall₂_imp_of_mem (h : ∀ a ∈ as, ∀ b, R a b → S a b) (hpairs : List.Forall₂ R as bs) :
    List.Forall₂ S as bs :=
  ((List.forall₂_and_left _ _).mpr ⟨h, hpairs⟩).imp fun _ b hab => hab.1 b hab.2

theorem forall₂_trans (h : ∀ a ∈ as, ∀ b c, R a b → R b c → R a c)
    (hpairs : List.Forall₂ R as bs) (hpairs' : List.Forall₂ R bs cs) : List.Forall₂ R as cs := by
  induction hpairs generalizing cs with
  | nil => exact hpairs'
  | cons hfirst _ ih =>
    obtain ⟨ha, hmore⟩ := List.forall_mem_cons.mp h
    cases hpairs' with
    | cons hfirst' hrest' => exact .cons (ha _ _ hfirst hfirst') (ih hmore hrest')

end pairs

namespace Value

variable {a b c : Value}

/-! ## Values, one level deep -/

/-- **Induction on values.** -/
@[elab_as_elim]
theorem induction {motive : Value → Prop} (scalar : ∀ a, a.isContainer = false → motive a)
    (array : ∀ items, (∀ item ∈ items, motive item) → motive (array items))
    (object : ∀ fields, (∀ field ∈ fields, motive field.2) → motive (object fields))
    (a : Value) : motive a :=
  @Value.rec motive (fun items => ∀ item ∈ items, motive item)
    (fun fields => ∀ field ∈ fields, motive field.2) (fun field => motive field.2)
    (scalar _ rfl) (scalar _ rfl) (fun _ => scalar _ rfl) (fun _ => scalar _ rfl)
    (fun _ => scalar _ rfl) array object nofun
    (fun _ _ hfirst hrest => List.forall_mem_cons.mpr ⟨hfirst, hrest⟩) nofun
    (fun _ _ hfirst hrest => List.forall_mem_cons.mpr ⟨hfirst, hrest⟩)
    (fun _ _ hvalue => hvalue) a

/-- **What makes two values equal**, one level deep. -/
inductive StrictEqual : Value → Value → Prop where
  /-- a scalar that is no number equals itself -/
  | same {a : Value} (hscalar : a.isContainer = false) (hnumber : ∀ n, a ≠ number n) :
      StrictEqual a a
  /-- numbers are equal as numbers -/
  | number {m n : Double} (h : m.eq n = true) : StrictEqual (number m) (number n)
  /-- arrays are equal item by item -/
  | array {items items' : List Value}
      (h : List.Forall₂ (fun a b => strictEq a b = true) items items') :
      StrictEqual (array items) (array items')
  /-- objects are equal field by field -/
  | object {fields fields' : List (String × Value)}
      (h : List.Forall₂ (fun a b => a.1 = b.1 ∧ strictEq a.2 b.2 = true) fields fields') :
      StrictEqual (object fields) (object fields')

theorem strictEqItems_iff {items items' : List Value} :
    strictEqItems items items' = true ↔
      List.Forall₂ (fun a b => strictEq a b = true) items items' := by
  induction items generalizing items' with
  | nil => cases items' <;> simp [strictEqItems]
  | cons item items ih => cases items' <;> simp [strictEqItems, ih]

theorem strictEqFields_iff {fields fields' : List (String × Value)} :
    strictEqFields fields fields' = true ↔
      List.Forall₂ (fun a b => a.1 = b.1 ∧ strictEq a.2 b.2 = true) fields fields' := by
  induction fields generalizing fields' with
  | nil => cases fields' <;> simp [strictEqFields]
  | cons field fields ih => cases fields' <;> simp [strictEqFields, ih]

/-- **Inversion of strict equality.** -/
theorem StrictEqual.of_strictEq (h : a.strictEq b = true) : StrictEqual a b := by
  cases a with
  | undefined =>
    cases b with
    | undefined => exact .same rfl (by simp)
    | _ => cases h
  | null =>
    cases b with
    | null => exact .same rfl (by simp)
    | _ => cases h
  | boolean p =>
    cases b with
    | boolean q =>
      obtain rfl : p = q := beq_iff_eq.mp h
      exact .same rfl (by simp)
    | _ => cases h
  | string s =>
    cases b with
    | string t =>
      obtain rfl : s = t := beq_iff_eq.mp h
      exact .same rfl (by simp)
    | _ => cases h
  | number m =>
    cases b with
    | number n => exact .number h
    | _ => cases h
  | array items =>
    cases b with
    | array items' => exact .array (strictEqItems_iff.mp h)
    | _ => cases h
  | object fields =>
    cases b with
    | object fields' => exact .object (strictEqFields_iff.mp h)
    | _ => cases h

theorem StrictEqual.strictEq (h : StrictEqual a b) : a.strictEq b = true := by
  cases h with
  | same hscalar hnumber =>
    cases a with
    | number n => exact absurd rfl (hnumber n)
    | array | object => cases hscalar
    | _ => simp [Value.strictEq]
  | number h => exact h
  | array h => exact strictEqItems_iff.mpr h
  | object h => exact strictEqFields_iff.mpr h

/-! ## A partial equivalence -/

/-- **Equality is symmetric.** -/
theorem strictEq_symm (h : a.strictEq b = true) : b.strictEq a = true := by
  induction a using induction generalizing b with
  | scalar a ha =>
    cases StrictEqual.of_strictEq h with
    | same => exact h
    | number hnumber => exact StrictEqual.strictEq (.number (by rwa [Double.eq_comm]))
    | array | object => cases ha
  | array items ih =>
    cases StrictEqual.of_strictEq h with
    | same hscalar => cases hscalar
    | array hitems =>
      exact StrictEqual.strictEq (.array (forall₂_imp_of_mem (fun a ha b => ih a ha) hitems).flip)
  | object fields ih =>
    cases StrictEqual.of_strictEq h with
    | same hscalar => cases hscalar
    | object hfields =>
      refine StrictEqual.strictEq (.object (forall₂_imp_of_mem ?_ hfields).flip)
      rintro a ha b ⟨hname, hvalue⟩
      exact ⟨hname.symm, ih a ha hvalue⟩

theorem strictEq_comm (a b : Value) : a.strictEq b = b.strictEq a := by
  rw [Bool.eq_iff_iff]
  exact ⟨strictEq_symm, strictEq_symm⟩

/-- **Equality is transitive.** -/
theorem strictEq_trans (h : a.strictEq b = true) (h' : b.strictEq c = true) :
    a.strictEq c = true := by
  induction a using induction generalizing b c with
  | scalar a ha =>
    cases StrictEqual.of_strictEq h with
    | same => exact h'
    | number hnumber =>
      cases StrictEqual.of_strictEq h' with
      | same _ hno => exact absurd rfl (hno _)
      | number hnumber' => exact StrictEqual.strictEq (.number (Double.eq_trans hnumber hnumber'))
    | array | object => cases ha
  | array items ih =>
    cases StrictEqual.of_strictEq h with
    | same hscalar => cases hscalar
    | array hitems =>
      cases StrictEqual.of_strictEq h' with
      | same hscalar => cases hscalar
      | array hitems' =>
        exact StrictEqual.strictEq (.array (forall₂_trans (fun a ha _ _ => ih a ha) hitems hitems'))
  | object fields ih =>
    cases StrictEqual.of_strictEq h with
    | same hscalar => cases hscalar
    | object hfields =>
      cases StrictEqual.of_strictEq h' with
      | same hscalar => cases hscalar
      | object hfields' =>
        refine StrictEqual.strictEq (.object (forall₂_trans ?_ hfields hfields'))
        rintro a ha b c ⟨hname, hvalue⟩ ⟨hname', hvalue'⟩
        exact ⟨hname.trans hname', ih a ha hvalue hvalue'⟩

/-! ### What equals itself -/

/-- The pieces of a piece are pieces. -/
theorem Component.trans (h : a.Component b) (h' : b.Component c) : a.Component c := by
  induction h' with
  | self => exact h
  | item _ hitem ih => exact ih.item hitem
  | field _ hfield ih => exact ih.field hfield

/-- What a value consists of: the items of an array, the values of the fields of an object. -/
def parts : Value → List Value
  | array items => items
  | object fields => fields.map Prod.snd
  | _ => []

theorem parts_of_scalar (h : a.isContainer = false) : a.parts = [] := by
  cases a with
  | array | object => cases h
  | _ => rfl

/-- The pieces of a value are the value and the pieces of its parts. -/
theorem component_iff : a.Component b ↔ b = a ∨ ∃ part ∈ a.parts, part.Component b := by
  refine ⟨?_, ?_⟩
  · intro h
    induction h with
    | self => exact .inl rfl
    | item _ hitem ih =>
      obtain rfl | ⟨part, hpart, hbetween⟩ := ih
      · exact .inr ⟨_, hitem, .self⟩
      · exact .inr ⟨part, hpart, hbetween.item hitem⟩
    | field _ hfield ih =>
      obtain rfl | ⟨part, hpart, hbetween⟩ := ih
      · exact .inr ⟨_, List.mem_map_of_mem hfield, .self⟩
      · exact .inr ⟨part, hpart, hbetween.field hfield⟩
  · rintro (rfl | ⟨part, hpart, h⟩)
    · exact .self
    · cases a with
      | array => exact (Component.self.item hpart).trans h
      | object =>
        obtain ⟨⟨name, value⟩, hfield, rfl⟩ := List.mem_map.mp hpart
        exact (Component.self.field hfield).trans h
      | _ => cases hpart

/-- **A value equals itself** exactly if *not a number* is no piece of it. -/
theorem strictEq_self_iff : a.strictEq a = true ↔ ¬a.Component (number .nan) := by
  induction a using induction with
  | scalar a ha =>
    rw [component_iff, parts_of_scalar ha]
    simp only [List.not_mem_nil, false_and, exists_false, or_false]
    by_cases hnumber : ∃ n, a = number n
    · obtain ⟨n, rfl⟩ := hnumber
      rw [number.injEq, @Eq.comm _ Double.nan]
      exact Double.eq_self_iff
    · have hsame := StrictEqual.strictEq (.same ha fun n hn => hnumber ⟨n, hn⟩)
      exact iff_of_true hsame fun h => hnumber ⟨_, h.symm⟩
  | array items ih =>
    have hitems : (array items).strictEq (array items) = true ↔
        ∀ item ∈ items, item.strictEq item = true :=
      strictEqItems_iff.trans List.forall₂_same
    rw [hitems, component_iff]
    simp only [parts, reduceCtorEq, false_or, not_exists, not_and]
    exact forall₂_congr ih
  | object fields ih =>
    have hfields : (object fields).strictEq (object fields) = true ↔
        ∀ field ∈ fields, field.2.strictEq field.2 = true :=
      strictEqFields_iff.trans (List.forall₂_same.trans (by simp only [true_and]))
    rw [hfields, component_iff]
    simp only [parts, List.mem_map, reduceCtorEq, false_or, not_exists, not_and,
      forall_exists_index, and_imp, forall_apply_eq_imp_iff₂]
    exact forall₂_congr ih

/-! ### Objects -/

/-- **Objects are compared name by name.** Under each name, either both have a field, with
equal values, or none has. -/
theorem strictEq_object_iff {fields fields' : List (String × Value)} (h : Fields.Sorted fields)
    (h' : Fields.Sorted fields') : (object fields).strictEq (object fields') = true ↔
      ∀ name, Option.Rel (fun a b => strictEq a b = true) (fields.lookup name)
        (fields'.lookup name) :=
  strictEqFields_iff.trans
    (Fields.forall₂_iff_lookup (fun a b : Value => strictEq a b = true) h h')

/-! ## Coercions of equal values -/

/-- Both zeros have the same text. -/
theorem numberText_of_isZero {n : Double} (h : n.isZero = true) : numberText n = "0" := by
  cases n with
  | finite negative units =>
    obtain rfl : units = 0 := beq_iff_eq.mp h
    rfl
  | _ => cases h

/-- Equal numbers have the same text. -/
theorem numberText_eq_of_eq {m n : Double} (h : m.eq n = true) : numberText m = numberText n := by
  obtain rfl | ⟨hm, hn⟩ := Double.eq_or_isZero h
  · rfl
  · rw [numberText_of_isZero hm, numberText_of_isZero hn]

theorem isNullish_eq_of_strictEq (h : a.strictEq b = true) : a.isNullish = b.isNullish := by
  cases StrictEqual.of_strictEq h <;> rfl

/-- The text of an item does not depend on its neighbours. -/
theorem itemTexts_eq_map (items : List Value) :
    itemTexts items = items.map fun item => if item.isNullish then "" else item.toText := by
  induction items with
  | nil => rfl
  | cons item items ih => rw [itemTexts, ih, List.map_cons]

/-- **Equal values have the same text**, whatever zeros are inside them. -/
theorem toText_eq_of_strictEq (h : a.strictEq b = true) : a.toText = b.toText := by
  induction a using induction generalizing b with
  | scalar a ha =>
    cases StrictEqual.of_strictEq h with
    | same => rfl
    | number hnumber => exact numberText_eq_of_eq hnumber
    | array | object => cases ha
  | array items ih =>
    cases StrictEqual.of_strictEq h with
    | same hscalar => cases hscalar
    | array hitems =>
      rw [toText, toText, itemTexts_eq_map, itemTexts_eq_map]
      congr 1
      rw [← List.forall₂_eq_eq_eq, List.forall₂_map_left_iff, List.forall₂_map_right_iff]
      refine forall₂_imp_of_mem ?_ hitems
      intro a ha b hab
      rw [isNullish_eq_of_strictEq hab, ih a ha hab]
  | object fields =>
    cases StrictEqual.of_strictEq h with
    | same hscalar => cases hscalar
    | object => rfl

theorem isTruthy_eq_of_strictEq (h : a.strictEq b = true) : a.isTruthy = b.isTruthy := by
  cases StrictEqual.of_strictEq h with
  | same | array | object => rfl
  | @number m n hnumber =>
    obtain rfl | ⟨hm, hn⟩ := Double.eq_or_isZero hnumber
    · rfl
    · rw [isTruthy, isTruthy, hm, hn]
      rfl

/-- Neither a truth value nor null is *not a number* as a number. -/
theorem toNumber_eq_self (ha : a = null ∨ ∃ p, a = boolean p) :
    a.toNumber.eq a.toNumber = true := by
  rw [Double.eq_self_iff]
  rcases ha with rfl | ⟨p, rfl⟩
  · rw [toNumber, Double.zero]
    exact Double.noConfusion
  · exact Double.round_ne_nan _ _ _

/-- **Equal values are equal after coercion.** -/
theorem looseEq_of_strictEq (h : a.strictEq b = true) : a.looseEq b = true := by
  cases StrictEqual.of_strictEq h with
  | number hnumber =>
    rw [looseEq_of_not_isTextual rfl rfl rfl]
    exact hnumber
  | array | object => rwa [looseEq_of_isContainer rfl rfl]
  | same hscalar hnumber =>
    cases a with
    | undefined | null => rw [looseEq_of_isNullish rfl, isNullish, Bool.and_self]
    | boolean p =>
      rw [looseEq_of_not_isTextual rfl rfl rfl]
      exact toNumber_eq_self (.inr ⟨p, rfl⟩)
    | string s => rw [looseEq_of_isTextual rfl rfl rfl, beq_self_eq_true]
    | number n => exact absurd rfl (hnumber n)
    | array | object => cases hscalar

/-- Values with the same text stand at the same place among texts. -/
theorem compare?_of_toText_eq (ha : a.isTextual = true) (hb : b.isTextual = true)
    (h : a.toText = b.toText) : a.compare? b = some .eq := by
  rw [compare?_of_isTextual ha hb, h, Std.ReflOrd.compare_self]

/-- **Equal values stand at the same place in the order**, unless they have none: `undefined` is
*not a number* as a number. -/
theorem compare?_of_strictEq (h : a.strictEq b = true) (ha : a ≠ undefined) :
    a.compare? b = some .eq := by
  cases StrictEqual.of_strictEq h with
  | number hnumber =>
    rw [compare?_of_not_isTextual rfl]
    exact beq_iff_eq.mp hnumber
  | array | object => exact compare?_of_toText_eq rfl rfl (toText_eq_of_strictEq h)
  | same hscalar hnumber =>
    cases a with
    | undefined => exact absurd rfl ha
    | null =>
      rw [compare?_of_not_isTextual rfl]
      exact beq_iff_eq.mp (toNumber_eq_self (.inl rfl))
    | boolean p =>
      rw [compare?_of_not_isTextual rfl]
      exact beq_iff_eq.mp (toNumber_eq_self (.inr ⟨p, rfl⟩))
    | string s => exact compare?_of_toText_eq rfl rfl rfl
    | number n => exact absurd rfl (hnumber n)
    | array | object => cases hscalar

/-- Equal values have equal numbers, or the same that is not one. -/
theorem toNumber_of_strictEq (h : a.strictEq b = true) :
    a.toNumber = b.toNumber ∨ a.toNumber.eq b.toNumber = true := by
  cases StrictEqual.of_strictEq h with
  | same => exact .inl rfl
  | number hnumber => exact .inr hnumber
  | array | object =>
    rw [toNumber_eq_textNumber rfl, toNumber_eq_textNumber rfl, toText_eq_of_strictEq h]
    exact .inl rfl

/-! ## The laws together -/

/-- **No coercion tells two values apart.** -/
structure CoercesAlike (a b : Value) : Prop where
  /-- they are equal after coercion -/
  looseEq_eq : a.looseEq b = true
  /-- they have the same truth -/
  isTruthy_eq : a.isTruthy = b.isTruthy
  /-- they have the same text -/
  toText_eq : a.toText = b.toText
  /-- their numbers are equal, or the same that is not one -/
  toNumber_eq : a.toNumber = b.toNumber ∨ a.toNumber.eq b.toNumber = true
  /-- they stand at the same place in the order, if they have one -/
  compare?_eq (h : a ≠ undefined) : a.compare? b = some .eq

/-- **Strict equality is a partial equivalence by content.** It is symmetric and transitive, and
leaves out exactly the values with *not a number* inside. Objects are equal by what is found
under each name, which is what was inserted last. And equal values are alike under all
coercions: the two zeros in particular, and values that differ only in them. -/
theorem strictEq_equivalence (a b c : Value) :
    a.strictEq b = b.strictEq a ∧
      (a.strictEq b = true → b.strictEq c = true → a.strictEq c = true) ∧
      (a.strictEq a = true ↔ ¬a.Component (number .nan)) ∧
      (∀ fields fields', Fields.Sorted fields → Fields.Sorted fields' →
        ((object fields).strictEq (object fields') = true ↔
          ∀ name, Option.Rel (fun a b => strictEq a b = true) (fields.lookup name)
            (fields'.lookup name))) ∧
      (∀ pairs pairs',
        (object (Fields.ofList pairs)).strictEq (object (Fields.ofList pairs')) = true ↔
          ∀ name, Option.Rel (fun a b => strictEq a b = true) (pairs.reverse.lookup name)
            (pairs'.reverse.lookup name)) ∧
      (∀ m n, (number (.zero m)).strictEq (number (.zero n)) = true) ∧
      (a.strictEq b = true → CoercesAlike a b) := by
  refine ⟨strictEq_comm a b, strictEq_trans, strictEq_self_iff,
    fun _ _ h h' => strictEq_object_iff h h', ?_, ?_, ?_⟩
  · intro pairs pairs'
    rw [strictEq_object_iff (Fields.sorted_ofList pairs) (Fields.sorted_ofList pairs')]
    simp only [Fields.lookup_ofList]
  · intro m n
    cases m <;> cases n <;> rfl
  · intro h
    exact ⟨looseEq_of_strictEq h, isTruthy_eq_of_strictEq h, toText_eq_of_strictEq h,
      toNumber_of_strictEq h, compare?_of_strictEq h⟩

/-- Neither the order of insertion nor the sign of a zero deep inside makes a difference. -/
theorem strictEq_zeros :
    let a := object (Fields.ofList [("x", array [null, number (.zero false)]), ("y", string "s")])
    let b := object (Fields.ofList [("y", string "s"), ("x", array [null, number (.zero true)])])
    a.strictEq b = true ∧ a ≠ b ∧ CoercesAlike a b := by
  intro a b
  have h : a.strictEq b = true := by decide +kernel
  obtain ⟨-, -, -, -, -, -, hcoerces⟩ := strictEq_equivalence a b a
  exact ⟨h, by decide +kernel, hcoerces h⟩

end Value

end ScreenedExpr
