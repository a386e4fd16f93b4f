import ScreenedExpr.Command.Check
import ScreenedExpr.Proofs.Numeral

/-!
# One verdict and one value

A text may be screened, compiled, evaluated, or checked by a command in one of three ways. All
of them screen it first, so all of them accept it or none does, and those that answer with a
reason give the same one, whatever the data. Of an accepted text all of them find the same
value.

* `RefusedBy`, `AcceptedBy` — the two verdicts, each of every way to use a text;
* `Value.isTruthy_ofJson_toJson_iff` — writing a value as a document keeps its truth, except
  for the infinities;
* `Command.refused_or_accepted` — one of the verdicts is given.
-/

namespace ScreenedExpr

/-! ## The truth of documents -/

/-- An integral number is read back from the integer that it is, up to the sign of zero. -/
theorem Double.ofInt_eq {negative : Bool} {units : Nat} {h : Representable units} {i : Int}
    (hi : (finite negative units h).toInt? = some i) :
    ofInt i = finite (decide (i < 0)) units h := by
  rw [toInt?] at hi
  split at hi
  · next hmod =>
    have habs : i.natAbs = units / unitsPerOne := by
      cases hi
      cases negative with
      | false => exact Int.natAbs_natCast _
      | true => exact (Int.natAbs_neg _).trans (Int.natAbs_natCast _)
    have hunits : i.natAbs * unitsPerOne = units * 1 := by
      rw [habs, Nat.mul_one, Nat.div_mul_cancel (Nat.dvd_of_mod_eq_zero hmod)]
    rw [ofInt, hunits, round_mul _ h Nat.one_pos]
  · cases hi

namespace Value

/-- **A finite number keeps its truth as a document.** -/
theorem isTruthy_ofJson_toJson_finite (negative : Bool) (units : Nat)
    (h : Double.Representable units) :
    (ofJson (toJson (number (.finite negative units h)))).isTruthy =
      (number (.finite negative units h)).isTruthy := by
  rw [toJson, Double.toJson]
  split
  · next i hi =>
    split
    · rw [ofJson, JsonNumber.toDouble, Double.ofInt_eq hi]
      rfl
    · rfl
  · rfl

/-- **The truth of a value is lost as a document** exactly if the value is an infinity, which is
written as null. -/
theorem isTruthy_ofJson_toJson_iff (value : Value) :
    (ofJson value.toJson).isTruthy = value.isTruthy ↔
      ∀ negative, value ≠ number (.infinite negative) := by
  cases value with
  | number n =>
    cases n with
    | nan => simp [toJson, Double.toJson, Double.toInt?, ofJson, isTruthy, Double.isNaN]
    | infinite negative =>
      simp [toJson, Double.toJson, Double.toInt?, ofJson, isTruthy, Double.isNaN, Double.isZero]
    | finite negative units h => simp [isTruthy_ofJson_toJson_finite]
  | _ => simp [toJson, ofJson, isTruthy]

end Value

/-! ## Verdicts -/

namespace Command

/-- **A text is refused**, and every way to use it says so for the same reason. -/
structure RefusedBy (sandbox : Sandbox) (text : String) (reason : RejectReason) : Prop where
  /-- it is not safe -/
  accepts_eq : sandbox.accepts text = false
  /-- it is no tree -/
  screen_eq : sandbox.screen text = .error ⟨text, reason⟩
  /-- it is no condition -/
  compile_eq : sandbox.compile text = .error ⟨text, reason⟩
  /-- it has no value in any context -/
  evaluate_eq (context : Context) : sandbox.evaluate text context = .error ⟨text, reason⟩
  /-- a check fails in all its modes, whatever the input or without any -/
  check_eq (input : Option String) (syntaxOnly condition : Bool) :
    check sandbox ⟨text, input, syntaxOnly, condition⟩ = .error (.rejected ⟨text, reason⟩)

/-- What a check finds when the expression has this value: the value as a document, or its
truth. The truth of the document is another only for an infinity. -/
structure FoundBy (sandbox : Sandbox) (text : String) (input : Option String) (value : Value) :
    Prop where
  /-- without a mode, the value -/
  check_value : check sandbox ⟨text, input, false, false⟩ = .ok (.value value.toJson)
  /-- as a condition, its truth -/
  check_condition :
    check sandbox ⟨text, input, false, true⟩ = .ok (.condition value.isTruthy)
  /-- where both answers agree -/
  isTruthy_iff : (Value.ofJson value.toJson).isTruthy = value.isTruthy ↔
    ∀ negative, value ≠ .number (.infinite negative)

/-- **A text is accepted**, and every way to use it comes to the same tree and value. -/
structure AcceptedBy (sandbox : Sandbox) (text : String) (condition : Condition) : Prop where
  /-- it is safe -/
  accepts_eq : sandbox.accepts text = true
  /-- it is the tree of the condition -/
  screen_eq : sandbox.screen text = .ok condition.expr
  /-- it is the condition -/
  compile_eq : sandbox.compile text = .ok condition
  /-- it has the value of the condition -/
  evaluate_eq (context : Context) :
    sandbox.evaluate text context = .ok (condition.value context)
  /-- to check the expression alone, no input is needed -/
  check_syntax (input : Option String) (asCondition : Bool) :
    check sandbox ⟨text, input, true, asCondition⟩ = .ok .permitted
  /-- from an input that makes no context, both other modes fail alike, and not because the text
  is refused -/
  check_failure (input : Option String) (failure : Failure)
    (h : readContext input = .error failure) : (∀ rejection, failure ≠ .rejected rejection) ∧
      ∀ asCondition, check sandbox ⟨text, input, false, asCondition⟩ = .error failure
  /-- from an input that makes a context, both other modes find the value in it -/
  check_found (input : Option String) (context : Context)
    (h : readContext input = .ok context) :
    FoundBy sandbox text input (condition.value context)

variable {sandbox : Sandbox} {text : String}

/-- The data is no reason to refuse an expression. -/
theorem ne_rejected_of_readContext {input : Option String} {failure : Failure}
    (h : readContext input = .error failure) (rejection : Rejection) :
    failure ≠ .rejected rejection := by
  rintro rfl
  cases input with
  | none => cases h
  | some data =>
    rw [readContext, readJson] at h
    split at h
    · next json _ =>
      rw [Except.bind, contextOfJson] at h
      cases hvalue : Context.ofValue? (Value.ofJson json) with
      | error found => rw [hvalue] at h; cases h
      | ok context => rw [hvalue] at h; cases h
    · cases h

/-- What is refused is refused in every way. -/
theorem refusedBy_of_check {reason : RejectReason} (h : sandbox.check text = .error reason) :
    RefusedBy sandbox text reason := by
  have hscreen : sandbox.screen text = .error ⟨text, reason⟩ := by
    rw [Sandbox.screen, h]
    rfl
  have hcompile : sandbox.compile text = .error ⟨text, reason⟩ := by
    rw [Sandbox.compile, hscreen]
    rfl
  refine ⟨?_, hscreen, hcompile, ?_, ?_⟩
  · rw [Sandbox.accepts, h]
    rfl
  · intro context
    rw [Sandbox.evaluate, hscreen]
    rfl
  · intro input syntaxOnly condition
    cases syntaxOnly with
    | true => simp [check, hscreen]
    | false =>
      cases condition with
      | true => simp [check, hcompile]
      | false => simp [check, hscreen]

/-- What is accepted is accepted in every way. -/
theorem acceptedBy_of_check {tree : Expr} (h : sandbox.check text = .ok tree) :
    AcceptedBy sandbox text ⟨text, tree⟩ := by
  have hscreen : sandbox.screen text = .ok tree := by
    rw [Sandbox.screen, h]
    rfl
  have hcompile : sandbox.compile text = .ok ⟨text, tree⟩ := by
    rw [Sandbox.compile, hscreen]
    rfl
  have hvalue (input : Option String) : check sandbox ⟨text, input, false, false⟩ =
      (readContext input).map fun context => .value (tree.eval context).toJson := by
    simp [check, hscreen]
  have hcondition (input : Option String) : check sandbox ⟨text, input, false, true⟩ =
      (readContext input).map fun context => .condition (tree.eval context).isTruthy := by
    simp [check, hcompile, Condition.holds, Condition.value]
  refine ⟨?_, hscreen, hcompile, ?_, ?_, ?_, ?_⟩
  · rw [Sandbox.accepts, h]
    rfl
  · intro context
    rw [Sandbox.evaluate, hscreen]
    rfl
  · intro input asCondition
    simp [check, hscreen]
  · intro input failure hinput
    refine ⟨ne_rejected_of_readContext hinput, ?_⟩
    intro asCondition
    cases asCondition with
    | true => rw [hcondition, hinput]; rfl
    | false => rw [hvalue, hinput]; rfl
  · intro input context hinput
    refine ⟨?_, ?_, Value.isTruthy_ofJson_toJson_iff _⟩
    · rw [hvalue, hinput]
      rfl
    · rw [hcondition, hinput]
      rfl

/-- **One verdict and one value.** Either all ways to use a text refuse it for one reason, with
any data or none, or all of them accept it and find the same value in the data, which a check
answers with as a document or as a truth value. -/
theorem refused_or_accepted (sandbox : Sandbox) (text : String) :
    (∃ reason, RefusedBy sandbox text reason) ∨
      ∃ condition, AcceptedBy sandbox text condition := by
  cases h : sandbox.check text with
  | error reason => exact .inl ⟨reason, refusedBy_of_check h⟩
  | ok tree => exact .inr ⟨⟨text, tree⟩, acceptedBy_of_check h⟩

end Command

end ScreenedExpr
