import ScreenedExpr.Expr.Eval

/-!
# What an evaluation looks at

An evaluation looks up some of the names of a tree and leaves others alone: a key is demanded
only if its object is not nullish, a right operand only if the left one does not decide, and
of two branches only the one chosen. Which names are demanded therefore depends on the values
of those demanded before.

* `Expr.demanded` — the names looked up, in the order of evaluation;
* `Context.AgreesOn` — two contexts give the same value to each of some names, where a name
  without a binding stands for `undefined`.

Contexts that agree on what the first run demands give the same value, and the second run
demands the same names.
-/

namespace ScreenedExpr

/-- Two contexts give each of these names the same value. -/
def Context.AgreesOn (names : List String) (context other : Context) : Prop :=
  ∀ name ∈ names, context.value name = other.value name

instance (names : List String) (context other : Context) :
    Decidable (context.AgreesOn names other) :=
  inferInstanceAs (Decidable (∀ name ∈ names, context.value name = other.value name))

namespace Context.AgreesOn

variable {first second : List String} {context other : Context}

theorem left (h : AgreesOn (first ++ second) context other) : AgreesOn first context other :=
  fun name hname => h name (List.mem_append_left _ hname)

theorem right (h : AgreesOn (first ++ second) context other) :
    AgreesOn second context other :=
  fun name hname => h name (List.mem_append_right _ hname)

end Context.AgreesOn

namespace Expr

/-- **The names an evaluation looks up**, in order. -/
def demanded (context : Context) : Expr → List String
  | literal _ => []
  | identifier name => [name]
  | member object property _ =>
    object.demanded context ++
      if (object.eval context).isNullish then [] else property.demanded context
  | binary _ left right => left.demanded context ++ right.demanded context
  | logical op left right =>
    left.demanded context ++
      if op.decides (left.eval context) then [] else right.demanded context
  | unary _ operand => operand.demanded context
  | conditional test consequent alternate =>
    test.demanded context ++
      if (test.eval context).isTruthy then consequent.demanded context
      else alternate.demanded context

/-- **Evaluation depends on what it demands and on nothing else.** If another context gives
the same values to all names that a run looks up, then the run in the other context has the
same value and looks up the same names. -/
theorem eval_eq_of_agreesOn (e : Expr) {context other : Context}
    (h : context.AgreesOn (e.demanded context) other) :
    e.eval context = e.eval other ∧ e.demanded other = e.demanded context := by
  induction e with
  | literal => exact ⟨rfl, rfl⟩
  | identifier name => exact ⟨h name (List.mem_singleton_self name), rfl⟩
  | member object property _ ihObject ihProperty =>
    obtain ⟨hvalue, hnames⟩ := ihObject h.left
    have hrest := h.right
    rw [eval, eval, demanded, demanded, hnames, ← hvalue]
    by_cases hnullish : (object.eval context).isNullish
    · simp only [if_pos hnullish, and_self]
    · rw [if_neg hnullish] at hrest
      obtain ⟨hkey, hkeyNames⟩ := ihProperty hrest
      simp only [if_neg hnullish, hkey, hkeyNames, and_self]
  | binary op left right ihLeft ihRight =>
    obtain ⟨hleft, hleftNames⟩ := ihLeft h.left
    obtain ⟨hright, hrightNames⟩ := ihRight h.right
    exact ⟨by rw [eval, eval, hleft, hright], by rw [demanded, demanded, hleftNames, hrightNames]⟩
  | logical op left right ihLeft ihRight =>
    obtain ⟨hvalue, hnames⟩ := ihLeft h.left
    have hrest := h.right
    rw [eval, eval, demanded, demanded, hnames, ← hvalue]
    by_cases hdecides : op.decides (left.eval context)
    · simp only [if_pos hdecides, and_self]
    · rw [if_neg hdecides] at hrest
      obtain ⟨hright, hrightNames⟩ := ihRight hrest
      simp only [if_neg hdecides, hright, hrightNames, and_self]
  | unary op operand ih =>
    obtain ⟨hvalue, hnames⟩ := ih h
    exact ⟨by rw [eval, eval, hvalue], hnames⟩
  | conditional test consequent alternate ihTest ihThen ihElse =>
    obtain ⟨hvalue, hnames⟩ := ihTest h.left
    have hrest := h.right
    rw [eval, eval, demanded, demanded, hnames, ← hvalue]
    by_cases htruthy : (test.eval context).isTruthy
    · rw [if_pos htruthy] at hrest
      obtain ⟨hthen, hthenNames⟩ := ihThen hrest
      simp only [if_pos htruthy, hthen, hthenNames, and_self]
    · rw [if_neg htruthy] at hrest
      obtain ⟨helse, helseNames⟩ := ihElse hrest
      simp only [if_neg htruthy, helse, helseNames, and_self]

/-- The tree of `a && b ? c : d[e]`. -/
def guarded : Expr :=
  .conditional (.logical .and (.identifier "a") (.identifier "b")) (.identifier "c")
    (.member (.identifier "d") (.identifier "e") true)

/-- With a false `a` and a null `d`, nothing else is looked at: neither the other operand and
branch nor the key. -/
theorem eval_guarded :
    let few := Context.ofList [("a", .boolean false), ("d", .null)]
    let many := Context.ofList [("d", .null), ("a", .boolean false), ("b", .boolean true),
      ("c", .string "c"), ("e", .array [.null])]
    few.AgreesOn (guarded.demanded few) many ∧ guarded.eval few = guarded.eval many ∧
      guarded.demanded many = guarded.demanded few :=
  ⟨by decide +kernel, eval_eq_of_agreesOn guarded (by decide +kernel)⟩

end Expr

end ScreenedExpr
