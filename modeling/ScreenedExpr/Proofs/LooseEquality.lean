import ScreenedExpr.Proofs.StrictEquality

/-!
# Equality after coercion and the order

Equality after coercion and the order of values are two functions, and each coerces in its own
way. Where both apply, that is for values which are not nullish and not both containers, two
values are equal exactly if neither is before the other; so `a == b` means the same as
`a <= b && a >= b`. Two containers are apart from this: they are equal by content, but ordered
by their texts.

* `looseEq_iff_compare?` — equality is sharing one place in the order;
* `looseEq_comm` — equality does not depend on which value comes first;
* `Expr.eval_looseEqual` — the same for expressions;
* `looseEq_agrees` — the laws, together.
-/

namespace ScreenedExpr

namespace Value

variable {a b : Value}

/-- Values with texts share a place in the order exactly if they have the same text: texts are
known by their units. -/
theorem compare?_eq_some_eq_iff (ha : a.isTextual = true) (hb : b.isTextual = true) :
    a.compare? b = some .eq ↔ a.toText = b.toText := by
  rw [compare?_of_isTextual ha hb, Option.some.injEq, Std.compare_eq_iff_eq, Text.units_inj]

/-- **Equality is sharing one place in the order**, but for nullish values and containers. -/
theorem looseEq_iff_compare? (ha : a.isNullish = false) (hb : b.isNullish = false)
    (h : (a.isContainer && b.isContainer) = false) :
    a.looseEq b = true ↔ a.compare? b = some .eq := by
  cases htextual : a.isTextual && b.isTextual with
  | true =>
    rw [Bool.and_eq_true] at htextual
    obtain ⟨ha, hb⟩ := htextual
    rw [looseEq_of_isTextual ha hb h, beq_iff_eq, compare?_eq_some_eq_iff ha hb]
  | false =>
    rw [looseEq_of_not_isTextual ha hb htextual, compare?_of_not_isTextual htextual, Double.eq,
      beq_iff_eq]

/-- **Equality after coercion is symmetric**, without exception. -/
theorem looseEq_comm (a b : Value) : a.looseEq b = b.looseEq a := by
  rw [looseEq_eq, looseEq_eq, Bool.or_comm, Bool.and_comm, strictEq_comm,
    Bool.and_comm b.isContainer, Bool.and_comm b.isTextual, Double.eq_comm, BEq.comm]

/-- Two values that are neither one before the other share a place in the order. -/
theorem isOrdered_isLE_and_isGE (a b : Value) :
    (a.isOrdered b Ordering.isLE && a.isOrdered b Ordering.isGE) = (a.compare? b == some .eq) := by
  unfold isOrdered
  cases a.compare? b with
  | none => rfl
  | some order => cases order <;> rfl

end Value

namespace Expr

/-- The value of a conjunction of two truth values. -/
theorem eval_and_of_boolean {context : Context} {left right : Expr} {p q : Bool}
    (hleft : left.eval context = .boolean p) (hright : right.eval context = .boolean q) :
    (logical .and left right).eval context = .boolean (p && q) := by
  rw [eval, hleft, hright]
  cases p <;> rfl

/-- **An equality of expressions** has the value of the two comparisons it stands for. -/
theorem eval_looseEqual {context : Context} {left right : Expr}
    (hleft : (left.eval context).isNullish = false)
    (hright : (right.eval context).isNullish = false)
    (h : ((left.eval context).isContainer && (right.eval context).isContainer) = false) :
    (binary .looseEqual left right).eval context =
      (logical .and (binary .lessEqual left right) (binary .greaterEqual left right)).eval
        context := by
  rw [eval_and_of_boolean rfl rfl, Value.isOrdered_isLE_and_isGE, eval, BinaryOp.apply,
    Value.boolean.injEq, Bool.eq_iff_iff, Value.looseEq_iff_compare? hleft hright h, beq_iff_eq]

end Expr

namespace Value

/-- **Equality and order agree.** For two values that are not nullish and not both containers,
equality after coercion is sharing one place in the order, and `==` on expressions with these
values is `<=` together with `>=`. Equality is symmetric for all values. -/
theorem looseEq_agrees (a b : Value) :
    (a.isNullish = false → b.isNullish = false → (a.isContainer && b.isContainer) = false →
      (a.looseEq b = true ↔ a.compare? b = some .eq) ∧
        ∀ context (left right : Expr), left.eval context = a → right.eval context = b →
          (Expr.binary .looseEqual left right).eval context =
            (Expr.logical .and (.binary .lessEqual left right)
              (.binary .greaterEqual left right)).eval context) ∧
      a.looseEq b = b.looseEq a := by
  refine ⟨?_, looseEq_comm a b⟩
  intro ha hb h
  refine ⟨looseEq_iff_compare? ha hb h, ?_⟩
  rintro context left right rfl rfl
  exact Expr.eval_looseEqual ha hb h

/-- A truth value and an array: the one as a number, the other as a text and then as a number. -/
theorem looseEq_true_one :
    (boolean true).looseEq (array [string " 0x1 "]) = true ∧
      (boolean true).compare? (array [string " 0x1 "]) = some .eq ∧
      (array [string " 0x1 "]).looseEq (boolean true) = true := by
  obtain ⟨hagrees, hcomm⟩ := looseEq_agrees (boolean true) (array [string " 0x1 "])
  have h : (boolean true).looseEq (array [string " 0x1 "]) = true := by decide +kernel
  exact ⟨h, (hagrees rfl rfl rfl).1.mp h, hcomm ▸ h⟩

end Value

end ScreenedExpr
