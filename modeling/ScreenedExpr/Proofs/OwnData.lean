import ScreenedExpr.Proofs.Demand
import ScreenedExpr.Proofs.Screening

/-!
# Which containers an evaluation can return

No operator makes an array or an object, and no text can write one down. So a container that
comes out of an evaluation was there before: it is a piece of what the context binds to a
name that was looked up, and it comes out as it is.

* `Value.Component` — the pieces of a value: itself, the items of its arrays and the fields
  of its objects, at every depth;
* `Value.mem_of_isContainer_member` — a member that is a container is an item or a field;
* `Expr.ScalarLiterals` — the trees whose literals are no containers, as those of texts are;
* `Expr.component_eval` — the containers such a tree can evaluate to.
-/

namespace ScreenedExpr

open Grammar

/-! ## Pieces of values -/

namespace Value

/-- **The pieces of a value**, reached by steps to an item or to a field. -/
inductive Component (whole : Value) : Value → Prop where
  /-- the value itself -/
  | self : Component whole whole
  /-- an item of an array that is a piece -/
  | item {items : List Value} {value : Value} (h : Component whole (.array items))
      (hitem : value ∈ items) : Component whole value
  /-- the value of a field of an object that is a piece -/
  | field {fields : List (String × Value)} {name : String} {value : Value}
      (h : Component whole (.object fields)) (hfield : (name, value) ∈ fields) :
      Component whole value

/-- A value that was found, or else `undefined`, is a container only if it was found. -/
theorem eq_some_of_isContainer_getD {found : Option Value}
    (h : (found.getD .undefined).isContainer = true) : found = some (found.getD .undefined) := by
  cases found with
  | none => cases h
  | some value => rfl

/-- What is found under a name stands in a field of that name. -/
theorem mem_of_lookup {fields : List (String × Value)} {name : String} {value : Value}
    (h : fields.lookup name = some value) : (name, value) ∈ fields := by
  obtain ⟨front, back, rfl, -⟩ := List.lookup_eq_some_iff.mp h
  exact List.mem_append_right front List.mem_cons_self

/-- **A member that is a container** is an item of an array or the value of a field: lengths
and characters of strings are scalars, and so is what stands for a missing member. -/
theorem mem_of_isContainer_member {value key : Value}
    (h : (value.member key).isContainer = true) :
    (∃ items, value = .array items ∧ value.member key ∈ items) ∨
      ∃ fields name, value = .object fields ∧ (name, value.member key) ∈ fields := by
  cases value with
  | array items =>
    refine .inl ⟨items, rfl, ?_⟩
    rw [member] at h ⊢
    split at h
    · cases h
    · next hlength =>
      rw [if_neg hlength]
      split at h
      · next i hposition =>
        exact List.mem_of_getElem? (eq_some_of_isContainer_getD h)
      · cases h
  | object fields =>
    rw [member] at h
    split at h
    · next name hname =>
      refine .inr ⟨fields, name, rfl, ?_⟩
      simp only [member, hname]
      exact mem_of_lookup (eq_some_of_isContainer_getD h)
    · cases h
  | string s =>
    rw [member] at h
    split at h
    · cases h
    split at h
    · next i _ =>
      cases hunit : (Text.units s)[i]? with
      | none => rw [hunit] at h; cases h
      | some unit => rw [hunit] at h; cases h
    · cases h
  | _ => cases h

/-- A member of a piece that is a container is a piece. -/
theorem Component.member {whole value key : Value} (h : Component whole value)
    (hcontainer : (value.member key).isContainer = true) :
    Component whole (value.member key) := by
  obtain ⟨items, rfl, hitem⟩ | ⟨fields, name, rfl, hfield⟩ :=
    mem_of_isContainer_member hcontainer
  · exact h.item hitem
  · exact h.field hfield

/-- Only containers have members that are containers. -/
theorem isContainer_of_member {value key : Value} (h : (value.member key).isContainer = true) :
    value.isContainer = true := by
  obtain ⟨items, rfl, -⟩ | ⟨fields, name, rfl, -⟩ := mem_of_isContainer_member h
  · rfl
  · rfl

end Value

/-! ## Operators -/

/-- **An operation on two operands gives a scalar.** -/
theorem BinaryOp.isContainer_apply (op : BinaryOp) (a b : Value) :
    (op.apply a b).isContainer = false := by
  cases op with
  | add =>
    rw [BinaryOp.apply, Value.add]
    split
    · rfl
    · rfl
    · rfl
  | _ => rfl

/-- **An operation on one operand gives a scalar.** -/
theorem UnaryOp.isContainer_apply (op : UnaryOp) (a : Value) :
    (op.apply a).isContainer = false := by
  cases op with
  | not => rfl
  | negate => rfl

/-! ## Trees -/

/-- What a literal token stands for is a scalar. -/
theorem Value.isContainer_ofLiteral (value : Literal) :
    (Value.ofLiteral value).isContainer = false := by
  cases value <;> rfl

namespace Expr

/-- No literal of the tree is a container. -/
def ScalarLiterals : Expr → Prop
  | literal value => value.isContainer = false
  | identifier _ => True
  | member object property _ => object.ScalarLiterals ∧ property.ScalarLiterals
  | binary _ left right | logical _ left right => left.ScalarLiterals ∧ right.ScalarLiterals
  | unary _ operand => operand.ScalarLiterals
  | conditional test consequent alternate =>
    test.ScalarLiterals ∧ consequent.ScalarLiterals ∧ alternate.ScalarLiterals

/-- The names that a tree may look up, wherever they occur in it; names behind a point are
none. -/
def identifiers : Expr → List String
  | literal _ => []
  | identifier name => [name]
  | member object property _ => object.identifiers ++ property.identifiers
  | binary _ left right | logical _ left right => left.identifiers ++ right.identifiers
  | unary _ operand => operand.identifiers
  | conditional test consequent alternate =>
    test.identifiers ++ (consequent.identifiers ++ alternate.identifiers)

/-- **What an evaluation looks up occurs in the tree.** -/
theorem mem_identifiers_of_mem_demanded {context : Context} {e : Expr} {name : String}
    (h : name ∈ e.demanded context) : name ∈ e.identifiers := by
  induction e with
  | literal => cases h
  | identifier => exact h
  | unary _ _ ih => exact ih h
  | binary _ _ _ ihLeft ihRight =>
    rcases List.mem_append.mp h with h | h
    · exact List.mem_append_left _ (ihLeft h)
    · exact List.mem_append_right _ (ihRight h)
  | member _ _ _ ihFirst ihSecond | logical _ _ _ ihFirst ihSecond =>
    rcases List.mem_append.mp h with h | h
    · exact List.mem_append_left _ (ihFirst h)
    · split at h
      · cases h
      · exact List.mem_append_right _ (ihSecond h)
  | conditional _ _ _ ihTest ihThen ihElse =>
    rcases List.mem_append.mp h with h | h
    · exact List.mem_append_left _ (ihTest h)
    · apply List.mem_append_right
      split at h
      · exact List.mem_append_left _ (ihThen h)
      · exact List.mem_append_right _ (ihElse h)

/-- A value is a piece of what the context binds to one of these names. -/
def OwnedBy (context : Context) (names : List String) (value : Value) : Prop :=
  ∃ name ∈ names, ∃ bound, context.get? name = some bound ∧ bound.Component value

theorem OwnedBy.mono {context : Context} {names more : List String} {value : Value}
    (h : OwnedBy context names value) (hsubset : names ⊆ more) :
    OwnedBy context more value := by
  obtain ⟨name, hname, hbound⟩ := h
  exact ⟨name, hsubset hname, hbound⟩

/-- **A container that a tree evaluates to is the context's own**: without containers among
its literals, the tree only passes on pieces of what it looks up. -/
theorem component_eval {e : Expr} (h : e.ScalarLiterals) {context : Context}
    (hcontainer : (e.eval context).isContainer = true) :
    OwnedBy context (e.demanded context) (e.eval context) := by
  induction e with
  | literal value =>
    rw [eval, h] at hcontainer
    cases hcontainer
  | identifier name =>
    refine ⟨name, List.mem_singleton_self name, _, ?_, .self⟩
    exact Value.eq_some_of_isContainer_getD hcontainer
  | member object property _ ihObject _ =>
    rw [eval] at hcontainer ⊢
    by_cases hnullish : (object.eval context).isNullish
    · rw [if_pos hnullish] at hcontainer
      cases hcontainer
    · simp only [if_neg hnullish] at hcontainer ⊢
      -- the member is a piece of the object, and the object of what is bound
      obtain ⟨name, hname, bound, hbound, hobject⟩ :=
        ihObject h.1 (Value.isContainer_of_member hcontainer)
      exact ⟨name, List.mem_append_left _ hname, bound, hbound, hobject.member hcontainer⟩
  | binary op left right =>
    rw [eval, op.isContainer_apply] at hcontainer
    cases hcontainer
  | unary op operand =>
    rw [eval, op.isContainer_apply] at hcontainer
    cases hcontainer
  | logical op left right ihLeft ihRight =>
    rw [eval] at hcontainer ⊢
    rw [demanded]
    by_cases hdecides : op.decides (left.eval context)
    · simp only [if_pos hdecides] at hcontainer ⊢
      exact (ihLeft h.1 hcontainer).mono (List.subset_append_left _ _)
    · simp only [if_neg hdecides] at hcontainer ⊢
      exact (ihRight h.2 hcontainer).mono (List.subset_append_right _ _)
  | conditional test consequent alternate _ ihThen ihElse =>
    rw [eval] at hcontainer ⊢
    rw [demanded]
    by_cases htruthy : (test.eval context).isTruthy
    · simp only [if_pos htruthy] at hcontainer ⊢
      exact (ihThen h.2.1 hcontainer).mono (List.subset_append_right _ _)
    · simp only [if_neg htruthy] at hcontainer ⊢
      exact (ihElse h.2.2 hcontainer).mono (List.subset_append_right _ _)

end Expr

/-- **Texts denote trees with scalar literals.** -/
theorem Grammar.Derives.scalarLiterals {phrase : Phrase} {n : Nat} {kinds : List TokenKind}
    {e : Expr} (h : Derives phrase n kinds e) : e.ScalarLiterals := by
  induction h with
  | literal value => exact Value.isContainer_ofLiteral value
  | identifier => trivial
  | dot _ _ ih => exact ⟨ih, rfl⟩
  | index _ _ ih ihKey => exact ⟨ih, ihKey⟩
  | not _ ih | negate _ ih => exact ih
  | @connect _ _ _ _ _ _ _ connective _ _ _ _ _ ih ihRight =>
    cases connective with
    | binary => exact ⟨ih, ihRight⟩
    | logical => exact ⟨ih, ihRight⟩
  | conditional _ _ _ ih ihThen ihElse => exact ⟨ih, ihThen, ihElse⟩
  | parenthesized _ ih | ofPrimary _ ih | ofChain _ ih | ofOperand _ ih | weaken _ ih
  | ofConnected _ ih => exact ih

namespace Sandbox

/-- **Only the context's own containers are reachable.** When an accepted text evaluates to an
array or an object, this is unchanged a piece of what the context binds to a name that
occurs in the tree, and that the evaluation looked up. -/
theorem screen_ownData (sandbox : Sandbox) (text : String) (tree : Expr)
    (h : sandbox.screen text = .ok tree) (context : Context)
    (hcontainer : (tree.eval context).isContainer = true) :
    ∃ name, name ∈ tree.identifiers ∧ name ∈ tree.demanded context ∧
      ∃ bound, context.get? name = some bound ∧ bound.Component (tree.eval context) := by
  obtain ⟨-, hread⟩ := screen_eq_ok h
  obtain ⟨_, _, _, -, -, hderives, -⟩ := Expr.ofText_eq_ok_iff.mp hread
  obtain ⟨name, hname, hbound⟩ := Expr.component_eval hderives.scalarLiterals hcontainer
  exact ⟨name, Expr.mem_identifiers_of_mem_demanded hname, hname, hbound⟩

/-- The tree of `(on ? rows : no)[first + 1].cells || spare`. -/
def picked : Expr :=
  .logical .or
    (.dot (.member (.conditional (.identifier "on") (.identifier "rows") (.identifier "no"))
      (.binary .add (.identifier "first") (.literal (.number (.ofNat 1)))) true) "cells")
    (.identifier "spare")

/-- Two rows of cells. -/
def table : Context :=
  .ofList [("on", .boolean true), ("first", .number (.zero false)), ("spare", .array []),
    ("rows", .array [.null, .object [("cells", .array [.string "x"])]])]

/-- A computed key leads to cells deep inside `rows`, which come out as they are; the other
names are not involved. -/
theorem screen_picked :
    standard.screen "(on ? rows : no)[first + 1].cells || spare" = .ok picked ∧
      picked.eval table = .array [.string "x"] ∧
      ∃ name, name ∈ picked.identifiers ∧ name ∈ picked.demanded table ∧
        ∃ bound, table.get? name = some bound ∧ bound.Component (picked.eval table) := by
  have h : standard.screen "(on ? rows : no)[first + 1].cells || spare" = .ok picked := by
    decide +kernel
  have hvalue : picked.eval table = .array [.string "x"] := by
    decide +kernel
  exact ⟨h, hvalue, screen_ownData standard _ picked h table (by rw [hvalue]; rfl)⟩

end Sandbox

end ScreenedExpr
