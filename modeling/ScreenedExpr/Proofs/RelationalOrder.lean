import ScreenedExpr.Expr.Eval

/-!
# The order that the relational operators ask for

Two values are compared as texts if both are textual, and by number otherwise. So there are two
lines, and on each of them the order is what one expects of an order; only *not a number* has no
place on the second. A comparison across the lines is by number, and no law joins it to the
order of texts: `"10" < "9"` and `"9" < 10`, but not `"10" < 10`.

* `comparePlaces?` — the order of two places on a line, either of which may be missing;
* `compare?_swap`, `compare?_eq_none_iff` — a comparison from the other side, and one that
  fails;
* `AsksFor` — each operator by the outcomes of the comparison for which it is true;
* `AsksFor.trans` — `<` and `<=` are transitive on a line;
* `relates` — the laws, together.
-/

namespace ScreenedExpr

/-! ## Places on a line -/

section places

variable {α : Type} [Ord α]

/-- The order of two places on a line, if neither is missing. -/
def comparePlaces? : Option α → Option α → Option Ordering
  | some x, some y => some (compare x y)
  | _, _ => none

theorem comparePlaces?_eq_none_iff {p q : Option α} :
    comparePlaces? p q = none ↔ p = none ∨ q = none := by
  cases p <;> cases q <;> simp [comparePlaces?]

variable [Std.TransOrd α]

theorem comparePlaces?_swap (p q : Option α) :
    comparePlaces? q p = (comparePlaces? p q).map Ordering.swap := by
  cases p <;> cases q <;> try rfl
  exact congrArg some Std.OrientedOrd.eq_swap

/-- Neither *before* nor *not behind* depends on what lies between. -/
theorem any_comparePlaces?_trans {order : Ordering → Bool}
    (horder : order = Ordering.isLT ∨ order = Ordering.isLE) {p q r : Option α}
    (hpq : (comparePlaces? p q).any order = true) (hqr : (comparePlaces? q r).any order = true) :
    (comparePlaces? p r).any order = true := by
  cases q with
  | none => cases p <;> cases hpq
  | some y =>
    cases p with
    | none => cases hpq
    | some x =>
      cases r with
      | none => cases hqr
      | some z =>
        simp only [comparePlaces?, Option.any_some] at hpq hqr ⊢
        obtain rfl | rfl := horder
        · rw [Ordering.isLT_iff_eq_lt] at hpq hqr ⊢
          exact Std.TransCmp.lt_trans hpq hqr
        · exact Std.TransCmp.isLE_trans hpq hqr

end places

/-! ## The two lines -/

namespace Double

/-- Numbers compare by their places. -/
theorem compare?_eq (a b : Double) : a.compare? b = comparePlaces? a.signed b.signed := by
  unfold compare?
  cases a.signed <;> cases b.signed <;> rfl

/-- Only *not a number* has no place. -/
theorem signed_eq_none_iff {a : Double} : a.signed = none ↔ a = nan := by
  cases a <;> simp [signed]

end Double

namespace Value

variable {a b c : Value}

/-- Texts compare by their units. -/
theorem compare?_eq_units (ha : a.isTextual = true) (hb : b.isTextual = true) :
    a.compare? b =
      comparePlaces? (some (Text.units a.toText)) (some (Text.units b.toText)) :=
  compare?_of_isTextual ha hb

/-- Values that are not both texts compare by number. -/
theorem compare?_eq_signed (h : (a.isTextual && b.isTextual) = false) :
    a.compare? b = comparePlaces? a.toNumber.signed b.toNumber.signed := by
  rw [compare?_of_not_isTextual h, Double.compare?_eq]

/-- **A comparison from the other side.** -/
theorem compare?_swap (a b : Value) : b.compare? a = (a.compare? b).map Ordering.swap := by
  cases h : a.isTextual && b.isTextual with
  | true =>
    obtain ⟨ha, hb⟩ := (Bool.and_eq_true_iff ..).mp h
    rw [compare?_eq_units ha hb, compare?_eq_units hb ha, comparePlaces?_swap]
  | false =>
    rw [compare?_eq_signed h, compare?_eq_signed (by rwa [Bool.and_comm]), comparePlaces?_swap]

/-- **Where there is no order**: between values that are not both texts, if one of them is no
number. -/
theorem compare?_eq_none_iff : a.compare? b = none ↔
    (a.isTextual && b.isTextual) = false ∧ (a.toNumber = .nan ∨ b.toNumber = .nan) := by
  cases h : a.isTextual && b.isTextual with
  | true =>
    obtain ⟨ha, hb⟩ := (Bool.and_eq_true_iff ..).mp h
    rw [compare?_of_isTextual ha hb]
    simp
  | false =>
    rw [compare?_eq_signed h, comparePlaces?_eq_none_iff, Double.signed_eq_none_iff,
      Double.signed_eq_none_iff]
    simp

/-! ## Operators -/

/-- What a relational operator asks of the order of two values. -/
inductive AsksFor : BinaryOp → (Ordering → Bool) → Prop where
  /-- `<` -/
  | less : AsksFor .less Ordering.isLT
  /-- `>` -/
  | greater : AsksFor .greater Ordering.isGT
  /-- `<=` -/
  | lessEqual : AsksFor .lessEqual Ordering.isLE
  /-- `>=` -/
  | greaterEqual : AsksFor .greaterEqual Ordering.isGE

/-- A relational operator is true if the order exists and is one that it asks for. -/
theorem AsksFor.apply_eq {op : BinaryOp} {order : Ordering → Bool} (h : AsksFor op order)
    (a b : Value) : op.apply a b = boolean ((a.compare? b).any order) := by
  have hordered : a.isOrdered b order = (a.compare? b).any order := by
    unfold isOrdered
    cases a.compare? b <;> rfl
  rw [← hordered]
  cases h <;> rfl

/-- An operator answers with true. -/
def Holds (op : BinaryOp) (a b : Value) : Prop := op.apply a b = boolean true

instance (op : BinaryOp) (a b : Value) : Decidable (Holds op a b) :=
  inferInstanceAs (Decidable (_ = _))

theorem AsksFor.holds_iff {op : BinaryOp} {order : Ordering → Bool} (h : AsksFor op order) :
    Holds op a b ↔ (a.compare? b).any order = true := by
  rw [Holds, h.apply_eq, boolean.injEq]

/-- An operator and its mirror image. -/
theorem AsksFor.apply_swap {op op' : BinaryOp} {order order' : Ordering → Bool}
    (h : AsksFor op order) (h' : AsksFor op' order') (hswap : ∀ o, order' o.swap = order o)
    (a b : Value) : op.apply a b = op'.apply b a := by
  rw [h.apply_eq, h'.apply_eq, compare?_swap a b, Option.any_map]
  congr 2
  funext o
  exact (hswap o).symm

/-- **`<` and `<=` are transitive** among texts, and among values that are none. -/
theorem AsksFor.trans {op : BinaryOp} {order : Ordering → Bool} (h : AsksFor op order)
    (horder : order = Ordering.isLT ∨ order = Ordering.isLE) (hb : b.isTextual = a.isTextual)
    (hc : c.isTextual = a.isTextual) (hab : Holds op a b) (hbc : Holds op b c) :
    Holds op a c := by
  rw [h.holds_iff] at hab hbc ⊢
  cases ha : a.isTextual with
  | true =>
    rw [ha] at hb hc
    rw [compare?_eq_units ha hb] at hab
    rw [compare?_eq_units hb hc] at hbc
    rw [compare?_eq_units ha hc]
    exact any_comparePlaces?_trans horder hab hbc
  | false =>
    rw [ha] at hb hc
    rw [compare?_eq_signed (by rw [ha, Bool.false_and])] at hab
    rw [compare?_eq_signed (by rw [hb, Bool.false_and])] at hbc
    rw [compare?_eq_signed (by rw [ha, Bool.false_and])]
    exact any_comparePlaces?_trans horder hab hbc

/-! ## The laws together -/

/-- Exactly one of three statements is true. -/
def ExactlyOne (p q r : Prop) : Prop := p ∧ ¬q ∧ ¬r ∨ ¬p ∧ q ∧ ¬r ∨ ¬p ∧ ¬q ∧ r

/-- **How the relational operators order two values.** -/
structure Relates (a b : Value) : Prop where
  /-- from the other side the order is the reverse -/
  compare?_swap : b.compare? a = (a.compare? b).map Ordering.swap
  /-- `a < b` is `b > a` -/
  less_eq : BinaryOp.less.apply a b = BinaryOp.greater.apply b a
  /-- `a <= b` is `b >= a` -/
  lessEqual_eq : BinaryOp.lessEqual.apply a b = BinaryOp.greaterEqual.apply b a
  /-- there is no order exactly if the values are not both texts and one is no number -/
  compare?_eq_none_iff : a.compare? b = none ↔
    (a.isTextual && b.isTextual) = false ∧ (a.toNumber = .nan ∨ b.toNumber = .nan)
  /-- without an order all four operators are false -/
  unordered (h : a.compare? b = none) :
    ∀ op ∈ [BinaryOp.less, .greater, .lessEqual, .greaterEqual], op.apply a b = boolean false
  /-- with one, either a value is before the other or they share a place, and `a <= b` is the
  negation of `a > b` -/
  ordered (h : a.compare? b ≠ none) :
    ExactlyOne (Holds .less a b) (Holds .greater a b) (a.compare? b = some .eq) ∧
      BinaryOp.lessEqual.apply a b = UnaryOp.not.apply (BinaryOp.greater.apply a b)
  /-- `<` and `<=` go on to a third value, if all three are texts or none is -/
  trans (c : Value) (hb : b.isTextual = a.isTextual) (hc : c.isTextual = a.isTextual) :
    ∀ op ∈ [BinaryOp.less, .lessEqual], Holds op a b → Holds op b c → Holds op a c
  /-- of two texts, one is `<=` the other -/
  total (ha : a.isTextual = true) (hb : b.isTextual = true) :
    Holds .lessEqual a b ∨ Holds .lessEqual b a

/-- **The relational operators are consistent**, whatever the values. -/
theorem relates (a b : Value) : Relates a b := by
  refine ⟨compare?_swap a b, ?_, ?_, compare?_eq_none_iff, ?_, ?_, ?_, ?_⟩
  · exact AsksFor.less.apply_swap .greater (by decide) a b
  · exact AsksFor.lessEqual.apply_swap .greaterEqual (by decide) a b
  · intro h op hop
    obtain ⟨order, hasks⟩ : ∃ order, AsksFor op order := by
      simp only [List.mem_cons, List.not_mem_nil, or_false] at hop
      obtain rfl | rfl | rfl | rfl := hop
      · exact ⟨_, .less⟩
      · exact ⟨_, .greater⟩
      · exact ⟨_, .lessEqual⟩
      · exact ⟨_, .greaterEqual⟩
    rw [hasks.apply_eq, h, Option.any_none]
  · intro h
    obtain ⟨o, ho⟩ := Option.ne_none_iff_exists'.mp h
    rw [AsksFor.less.holds_iff, AsksFor.greater.holds_iff, AsksFor.lessEqual.apply_eq,
      AsksFor.greater.apply_eq, ho]
    cases o <;> simp [ExactlyOne, UnaryOp.apply, isTruthy]
  · intro c hb hc op hop
    simp only [List.mem_cons, List.not_mem_nil, or_false] at hop
    obtain rfl | rfl := hop
    · exact AsksFor.less.trans (.inl rfl) hb hc
    · exact AsksFor.lessEqual.trans (.inr rfl) hb hc
  · intro ha hb
    rw [AsksFor.lessEqual.holds_iff, AsksFor.lessEqual.holds_iff, compare?_swap a b,
      compare?_of_isTextual ha hb]
    cases compare (Text.units a.toText) (Text.units b.toText) <;> simp

/-- An object, an array and a string stand in one line by their texts. -/
theorem relates_containers :
    let a := object []
    let b := array [string "z", null]
    let c := string "z,a"
    Holds .less a b ∧ Holds .less b c ∧ Holds .less a c ∧ a.compare? c ≠ none ∧
      ExactlyOne (Holds .less a c) (Holds .greater a c) (a.compare? c = some .eq) := by
  intro a b c
  have hab : Holds .less a b := by decide +kernel
  have hbc : Holds .less b c := by decide +kernel
  have hac : Holds .less a c := (relates a b).trans c rfl rfl .less (by simp) hab hbc
  have hordered : a.compare? c ≠ none := by decide +kernel
  exact ⟨hab, hbc, hac, hordered, ((relates a c).ordered hordered).1⟩

/-- Across the two lines the order is not transitive. -/
example : Holds .less (string "10") (string "9") ∧ Holds .less (string "9") (number (.ofNat 10)) ∧
    ¬Holds .less (string "10") (number (.ofNat 10)) := by
  decide +kernel

end Value

end ScreenedExpr
