import ScreenedExpr.Proofs.Grammar

/-!
# What the parser reads is a phrase

Whatever is read **accounts for** the tokens taken: they are a phrase of the grammar for the
tree returned, nested no deeper than there was room for, and the height returned is the
height of the tree and within its limit.

All loops of the parser are one function, `extend`, and its invariant is that what was read
so far is a phrase. The recursion goes down on the room, so each part is shown sound for
whatever sound reading of the nested parts it is given, and `sound_expression` puts them
together.

* `bind_eq_ok`, `bind_eq_error` and their like — inversion of single steps, for results and
  for failures;
* `Consumes` — every step of a loop takes a token, which makes its bound irrelevant;
* `Accounts`, `Sound` — what is known of one outcome, and of all outcomes of a reading;
* `sound_expression` — expressions and operands, in any room.
-/

namespace ScreenedExpr.Parser

open Grammar

variable {limits : Limits} {room : Nat}

/-! ## Results of single steps -/

/-- Inversion for sequencing. -/
theorem bind_eq_ok {ε α β : Type} {x : Except ε α} {f : α → Except ε β} {b : β}
    (h : (x >>= f) = .ok b) : ∃ a, x = .ok a ∧ f a = .ok b := by
  cases x with
  | error => cases h
  | ok a => exact ⟨a, rfl, h⟩

/-- Inversion for a failure of a sequence: the first part fails, or the second behind it. -/
theorem bind_eq_error {ε α β : Type} {x : Except ε α} {f : α → Except ε β} {e : ε}
    (h : (x >>= f) = .error e) : x = .error e ∨ ∃ a, x = .ok a ∧ f a = .error e := by
  cases x with
  | error => cases h; exact .inl rfl
  | ok a => exact .inr ⟨a, rfl, h⟩

/-- Sequencing behind a result. -/
theorem ok_bind {ε α β : Type} (a : α) (f : α → Except ε β) : (Except.ok a >>= f) = f a := rfl

/-- Inversion for a completed node. -/
theorem built_eq_ok {e : Expr} {height : Nat} {rest : List Token} {parsed : Parsed}
    (h : built limits room e height rest = .ok parsed) :
    height ≤ limits.height ∧ parsed = ⟨e, height, rest⟩ := by
  rw [built] at h
  split at h
  · cases h
  · exact ⟨by omega, by cases h; rfl⟩

/-- A node within the limit is completed. -/
theorem built_of_le {e : Expr} {height : Nat} (h : height ≤ limits.height)
    (rest : List Token) : built limits room e height rest = .ok ⟨e, height, rest⟩ := by
  rw [built, if_neg (by omega)]

/-- A node beyond the limit is not completed. -/
theorem built_of_lt {e : Expr} {height : Nat} (h : limits.height < height)
    (rest : List Token) :
    built limits room e height rest = .error ⟨.tooTall limits.height, rest, room⟩ := by
  rw [built, if_pos h]

/-- Inversion for a mark that was asked for. -/
theorem expect_eq_ok {mark : Mark} {tokens rest : List Token}
    (h : expect room mark tokens = .ok rest) : ∃ span, tokens = ⟨.mark mark, span⟩ :: rest := by
  rw [expect.eq_def] at h
  split at h
  · next found span rest' =>
    split at h
    · next hfound => cases h; exact ⟨span, by rw [hfound]⟩
    · cases h
  · cases h

/-- Inversion for a mark that is not there. -/
theorem expect_eq_error {mark : Mark} {tokens : List Token} {failure : Failure}
    (h : expect room mark tokens = .error failure) :
    failure = ⟨errorAt (.expected (.mark mark)) tokens, tokens, room⟩ := by
  rw [expect.eq_def] at h
  split at h
  · split at h
    · cases h
    · cases h; rfl
  · cases h; rfl

/-- A mark that was asked for is taken. -/
theorem expect_cons (mark : Mark) (span : Span) (rest : List Token) :
    expect room mark (⟨.mark mark, span⟩ :: rest) = .ok rest := by
  simp [expect]

/-- A mark that was asked for and is not there is an error at the first token. -/
theorem expect_of_ne {mark : Mark} {tokens : List Token}
    (h : ∀ token ∈ tokens.head?, token.kind ≠ .mark mark) :
    expect room mark tokens = .error ⟨errorAt (.expected (.mark mark)) tokens, tokens, room⟩ := by
  rw [expect.eq_def]
  split
  · next found span rest =>
    have hfound : found ≠ mark := fun hfound => h _ rfl (congrArg TokenKind.mark hfound)
    rw [if_neg hfound]
  · rfl

/-- Inversion for a name behind a point. -/
theorem propertyName_eq_ok {tokens rest : List Token} {name : String}
    (h : propertyName room tokens = .ok (name, rest)) :
    ∃ token, tokens = token :: rest ∧ PropertyName token.kind name := by
  rw [propertyName.eq_def] at h
  split at h
  · cases h
  · next token rest' =>
    split at h
    · next found hfound =>
      cases h
      exact ⟨token, rfl, PropertyName.propertyName?_eq_some_iff.mp hfound⟩
    · cases h

/-- Inversion for a name that is not there. -/
theorem propertyName_eq_error {tokens : List Token} {failure : Failure}
    (h : propertyName room tokens = .error failure) :
    failure = ⟨errorAt (.expected .propertyName) tokens, tokens, room⟩ := by
  rw [propertyName.eq_def] at h
  split at h
  · cases h; rfl
  · split at h
    · cases h
    · cases h; rfl

/-- A name behind a point is taken. -/
theorem propertyName_cons {token : Token} {name : String} (h : PropertyName token.kind name)
    (rest : List Token) : propertyName room (token :: rest) = .ok (name, rest) := by
  simp only [propertyName, PropertyName.propertyName?_eq_some_iff.mpr h]

/-- A name that is not there is an error at the first token. -/
theorem propertyName_of_none {tokens : List Token}
    (h : ∀ token ∈ tokens.head?, token.kind.propertyName? = none) :
    propertyName room tokens =
      .error ⟨errorAt (.expected .propertyName) tokens, tokens, room⟩ := by
  cases tokens with
  | nil => rfl
  | cons token rest => simp only [propertyName, h token rfl]

/-! ## Loops -/

/-- **What every step keeps, the loop keeps.** -/
theorem extend_invariant {step : Parsed → Option Outcome} {I : Parsed → Prop}
    (hstep : ∀ left longer, I left → step left = some (.ok longer) → I longer)
    (bound : List Token) {left parsed : Parsed} (hleft : I left)
    (h : extend step bound left = .ok parsed) : I parsed := by
  induction bound generalizing left with
  | nil => cases h; exact hleft
  | cons _ bound ih =>
    rw [extend] at h
    split at h
    · cases h; exact hleft
    · cases h
    · next longer hlonger => exact ih (hstep left longer hleft hlonger) h

/-- A loop fails with a step that fails, in a state that the steps before have kept. -/
theorem extend_eq_error {step : Parsed → Option Outcome} {I : Parsed → Prop}
    (hstep : ∀ left longer, I left → step left = some (.ok longer) → I longer)
    {bound : List Token} {left : Parsed} {failure : Failure} (hleft : I left)
    (h : extend step bound left = .error failure) :
    ∃ last, I last ∧ step last = some (.error failure) := by
  induction bound generalizing left with
  | nil => cases h
  | cons _ bound ih =>
    rw [extend] at h
    split at h
    · cases h
    · next hfailure => cases h; exact ⟨left, hleft, hfailure⟩
    · next longer hlonger => exact ih (hstep left longer hleft hlonger) h

/-- A loop without a further step is over. -/
theorem extend_of_none {step : Parsed → Option Outcome} {left : Parsed}
    (h : step left = none) (bound : List Token) : extend step bound left = .ok left := by
  cases bound with
  | nil => rfl
  | cons => rw [extend, h]

/-- Every step takes a token: there is none at the end, and fewer tokens are left after it. -/
structure Consumes (step : Parsed → Option Outcome) : Prop where
  /-- no step is taken at the end -/
  none_of_nil : ∀ left, left.rest = [] → step left = none
  /-- a step leaves fewer tokens -/
  length_lt : ∀ left longer, step left = some (.ok longer) →
    longer.rest.length < left.rest.length

/-- Any bound that covers the tokens left gives the same result. -/
theorem Consumes.extend_eq {step : Parsed → Option Outcome} (hstep : Consumes step)
    {bound bound' : List Token} {left : Parsed} (h : left.rest.length ≤ bound.length)
    (h' : left.rest.length ≤ bound'.length) :
    extend step bound left = extend step bound' left := by
  induction bound generalizing bound' left with
  | nil =>
    have hrest : left.rest = [] := List.eq_nil_of_length_eq_zero (by simpa using h)
    rw [extend_of_none (hstep.none_of_nil left hrest),
      extend_of_none (hstep.none_of_nil left hrest)]
  | cons _ bound ih =>
    cases bound' with
    | nil =>
      have hrest : left.rest = [] := List.eq_nil_of_length_eq_zero (by simpa using h')
      rw [extend_of_none (hstep.none_of_nil left hrest),
        extend_of_none (hstep.none_of_nil left hrest)]
    | cons _ bound' =>
      rw [extend, extend]
      split
      · rfl
      · rfl
      · next longer hlonger =>
        have hlt := hstep.length_lt left longer hlonger
        simp only [List.length_cons] at h h'
        exact ih (by omega) (by omega)

/-- One round of a loop whose bound is what is left. -/
theorem Consumes.extend_step {step : Parsed → Option Outcome} (hstep : Consumes step)
    {left longer : Parsed} (h : step left = some (.ok longer)) :
    extend step left.rest left = extend step longer.rest longer := by
  have hlt := hstep.length_lt left longer h
  cases hrest : left.rest with
  | nil => rw [hrest] at hlt; simp at hlt
  | cons token bound =>
    rw [extend, h]
    rw [hrest, List.length_cons] at hlt
    exact hstep.extend_eq (by omega) (Nat.le_refl _)

/-- The loop is a step, if there is one, and then the loop. -/
theorem Consumes.extend_eq_bind {step : Parsed → Option Outcome} (hstep : Consumes step)
    {left : Parsed} {out : Outcome} (h : step left = some out) :
    extend step left.rest left = out >>= fun longer => extend step longer.rest longer := by
  cases out with
  | ok longer => exact hstep.extend_step h
  | error failure =>
    cases hrest : left.rest with
    | nil => cases h.symm.trans (hstep.none_of_nil left hrest)
    | cons token bound => rw [extend, h]; rfl

/-! ## Soundness -/

/-- What was read accounts for the tokens: they are a phrase for its tree and what is left,
the phrase nests fewer levels deep than allowed, and the height is the tree's. -/
def Accounts (limits : Limits) (phrase : Phrase) (levels : Nat) (tokens : List Token)
    (parsed : Parsed) : Prop :=
  ∃ used n, tokens = used ++ parsed.rest ∧
    Derives phrase n (used.map Token.kind) parsed.expr ∧ n < levels ∧
    parsed.height = parsed.expr.height ∧ parsed.height ≤ limits.height

/-- Whatever is read accounts for the tokens. -/
def Sound (limits : Limits) (phrase : Phrase) (levels : Nat)
    (read : List Token → Outcome) : Prop :=
  ∀ tokens parsed, read tokens = .ok parsed → Accounts limits phrase levels tokens parsed

variable {nested operand : List Token → Outcome}

/-- What accounts for tokens as one phrase accounts for them as a wider one. -/
theorem Accounts.mono {phrase phrase' : Phrase} {levels : Nat} {tokens : List Token}
    {parsed : Parsed} (h : Accounts limits phrase levels tokens parsed)
    (hwider : ∀ {n kinds e}, Derives phrase n kinds e → Derives phrase' n kinds e) :
    Accounts limits phrase' levels tokens parsed := by
  obtain ⟨used, n, htokens, hderives, hn, hheight, hlimit⟩ := h
  exact ⟨used, n, htokens, hwider hderives, hn, hheight, hlimit⟩

theorem sound_primary (hnested : Sound limits .expression room nested) :
    Sound limits .primary (room + 1) (primary limits room nested) := by
  intro tokens parsed h
  rw [primary.eq_def] at h
  split at h
  · next value span rest =>
    obtain ⟨hlimit, rfl⟩ := built_eq_ok h
    exact ⟨[⟨.literal value, span⟩], 0, rfl, .literal value, by omega, rfl, hlimit⟩
  · next name span rest =>
    obtain ⟨hlimit, rfl⟩ := built_eq_ok h
    exact ⟨[⟨.identifier name, span⟩], 0, rfl, .identifier name, by omega, rfl, hlimit⟩
  · next span rest =>
    obtain ⟨inner, hinner, hmore⟩ := bind_eq_ok h
    obtain ⟨after, hafter, hparsed⟩ := bind_eq_ok hmore
    cases hparsed
    obtain ⟨used, n, rfl, hderives, hn, hheight, hlimit⟩ := hnested _ _ hinner
    obtain ⟨span', hspan⟩ := expect_eq_ok hafter
    refine ⟨⟨.mark .leftParen, span⟩ :: (used ++ [⟨.mark .rightParen, span'⟩]), n + 1, ?_, ?_,
      by omega, hheight, hlimit⟩
    · simp [hspan]
    · simpa using hderives.parenthesized
  · cases h

/-- **What a member step can be**: a point and a name, or a key between brackets. -/
theorem memberStep_eq_ok {left longer : Parsed}
    (h : memberStep limits room nested left = some (.ok longer)) :
    (∃ span token name rest, left.rest = ⟨.mark .dot, span⟩ :: token :: rest ∧
      PropertyName token.kind name ∧ left.height + 1 ≤ limits.height ∧
      longer = ⟨.dot left.expr name, left.height + 1, rest⟩) ∨
    ∃ span span' tokens key rest, left.rest = ⟨.mark .leftBracket, span⟩ :: tokens ∧
      nested tokens = .ok key ∧ key.rest = ⟨.mark .rightBracket, span'⟩ :: rest ∧
      max left.height key.height + 1 ≤ limits.height ∧
      longer = ⟨.member left.expr key.expr true, max left.height key.height + 1, rest⟩ := by
  rw [memberStep] at h
  split at h
  · next span rest hrest =>
    obtain ⟨⟨name, after⟩, hname, hbuilt⟩ := bind_eq_ok (Option.some.inj h)
    obtain ⟨token, htokens, hproperty⟩ := propertyName_eq_ok hname
    obtain ⟨hlimit, hlonger⟩ := built_eq_ok hbuilt
    exact .inl ⟨span, token, name, after, by rw [hrest, htokens], hproperty, hlimit, hlonger⟩
  · next span rest hrest =>
    obtain ⟨key, hkey, hmore⟩ := bind_eq_ok (Option.some.inj h)
    obtain ⟨after, hafter, hbuilt⟩ := bind_eq_ok hmore
    obtain ⟨span', hclose⟩ := expect_eq_ok hafter
    obtain ⟨hlimit, hlonger⟩ := built_eq_ok hbuilt
    exact .inr ⟨span, span', rest, key, after, hrest, hkey, hclose, hlimit, hlonger⟩
  · cases h

/-- A member step turns a chain into a longer one. -/
theorem sound_memberStep (hnested : Sound limits .expression room nested)
    {tokens : List Token} {left longer : Parsed}
    (hleft : Accounts limits .chain (room + 1) tokens left)
    (h : memberStep limits room nested left = some (.ok longer)) :
    Accounts limits .chain (room + 1) tokens longer := by
  obtain ⟨used, n, rfl, hderives, hn, hheight, -⟩ := hleft
  obtain ⟨span, token, name, rest, hrest, hname, hlimit, rfl⟩ |
    ⟨span, span', _, key, rest, hrest, hkey, hclose, hlimit, rfl⟩ := memberStep_eq_ok h
  · refine ⟨used ++ [⟨.mark .dot, span⟩, token], n, by simp [hrest], ?_, hn, ?_, hlimit⟩
    · simpa using hderives.dot hname
    · rw [hheight, Expr.height_dot]
  · obtain ⟨keyUsed, m, rfl, hkeyDerives, hm, hkeyHeight, -⟩ := hnested _ _ hkey
    refine ⟨used ++ ⟨.mark .leftBracket, span⟩ :: (keyUsed ++ [⟨.mark .rightBracket, span'⟩]),
      max n (m + 1), by simp [hrest, hclose], ?_, by omega, ?_, hlimit⟩
    · simpa using hderives.index hkeyDerives
    · simp only [Expr.height, hheight, hkeyHeight]

theorem sound_member (hnested : Sound limits .expression room nested) :
    Sound limits .chain (room + 1) (member limits room nested) := by
  intro tokens parsed h
  obtain ⟨object, hobject, h⟩ := bind_eq_ok h
  refine extend_invariant (fun _ _ => sound_memberStep hnested) _ ?_ h
  exact (sound_primary hnested _ _ hobject).mono .ofPrimary

theorem sound_prefixed (hnested : Sound limits .expression room nested)
    (hoperand : Sound limits .operand room operand) :
    Sound limits .operand (room + 1) (prefixed limits room nested operand) := by
  intro tokens parsed h
  rw [prefixed.eq_def] at h
  split at h
  · next span rest =>
    obtain ⟨inner, hinner, hbuilt⟩ := bind_eq_ok h
    obtain ⟨used, n, rfl, hderives, hn, hheight, -⟩ := hoperand _ _ hinner
    obtain ⟨hlimit, rfl⟩ := built_eq_ok hbuilt
    exact ⟨⟨.mark .bang, span⟩ :: used, n + 1, rfl, hderives.not, by omega,
      by simp only [Expr.height, hheight], hlimit⟩
  · next span rest =>
    obtain ⟨inner, hinner, hbuilt⟩ := bind_eq_ok h
    obtain ⟨used, n, rfl, hderives, hn, hheight, -⟩ := hoperand _ _ hinner
    obtain ⟨hlimit, rfl⟩ := built_eq_ok hbuilt
    exact ⟨⟨.mark .minus, span⟩ :: used, n + 1, rfl, hderives.negate, by omega,
      by simp only [Expr.height, hheight], hlimit⟩
  · exact (sound_member hnested _ _ h).mono .ofChain

/-- Operators between two operands add one to the higher of them. -/
theorem Connective.height_node (connective : Connective) (left right : Expr) :
    (connective.node left right).height = max left.height right.height + 1 := by
  cases connective <;> rfl

/-- **What a step between operands is**: an operator of the strength and an operand. -/
theorem connectedStep_eq_ok {s : Nat} {left longer : Parsed}
    (h : connectedStep limits room s operand left = some (.ok longer)) :
    ∃ token rest connective right, left.rest = token :: rest ∧
      connectiveAt s token.kind = some connective ∧ operand rest = .ok right ∧
      max left.height right.height + 1 ≤ limits.height ∧
      longer = ⟨connective.node left.expr right.expr, max left.height right.height + 1,
        right.rest⟩ := by
  rw [connectedStep] at h
  split at h
  · cases h
  · next token rest hrest =>
    split at h
    · cases h
    · next connective hconnective =>
      obtain ⟨right, hright, hbuilt⟩ := bind_eq_ok (Option.some.inj h)
      obtain ⟨hlimit, hlonger⟩ := built_eq_ok hbuilt
      exact ⟨token, rest, connective, right, hrest, hconnective, hright, hlimit, hlonger⟩

/-- An operator and its right operand turn connected operands into more of them. -/
theorem sound_connectedStep {s : Nat} (hoperand : Sound limits (.connected s) (room + 1) operand)
    {tokens : List Token} {left longer : Parsed}
    (hleft : Accounts limits (.connected (s + 1)) (room + 1) tokens left)
    (h : connectedStep limits room s operand left = some (.ok longer)) :
    Accounts limits (.connected (s + 1)) (room + 1) tokens longer := by
  obtain ⟨used, n, rfl, hderives, hn, hheight, -⟩ := hleft
  obtain ⟨token, _, connective, right, hrest, hconnective, hright, hlimit, rfl⟩ :=
    connectedStep_eq_ok h
  obtain ⟨hop, mark, hkind, hmark⟩ := connectiveAt_eq_some_iff.mp hconnective
  obtain ⟨rightUsed, m, rfl, hrightDerives, hm, hrightHeight, -⟩ := hoperand _ _ hright
  refine ⟨used ++ token :: rightUsed, max n m, by simp [hrest], ?_, by omega, ?_, hlimit⟩
  · simpa [hkind] using hderives.connect hop hmark hrightDerives
  · rw [hheight, hrightHeight, connective.height_node]

theorem sound_connected (hoperand : Sound limits .operand (room + 1) operand) (s : Nat) :
    Sound limits (.connected s) (room + 1) (connected limits room operand s) := by
  induction s with
  | zero => exact fun tokens parsed h => (hoperand tokens parsed h).mono .ofOperand
  | succ s ih =>
    intro tokens parsed h
    obtain ⟨left, hleft, h⟩ := bind_eq_ok h
    refine extend_invariant (fun _ _ => sound_connectedStep ih) _ ?_ h
    exact (ih _ _ hleft).mono .weaken

theorem sound_conditional (hnested : Sound limits .expression room nested)
    (hoperand : Sound limits .operand (room + 1) operand) :
    Sound limits .expression (room + 1) (conditional limits room nested operand) := by
  intro tokens parsed h
  obtain ⟨test, htest, h⟩ := bind_eq_ok h
  have htest := sound_connected hoperand strengths _ _ htest
  split at h
  · next span rest hrest =>
    obtain ⟨consequent, hconsequent, hmore⟩ := bind_eq_ok h
    obtain ⟨after, hafter, hmore⟩ := bind_eq_ok hmore
    obtain ⟨alternate, halternate, hbuilt⟩ := bind_eq_ok hmore
    obtain ⟨used, n, rfl, hderives, hn, hheight, -⟩ := htest
    obtain ⟨thenUsed, m, rfl, hthen, hm, hthenHeight, -⟩ := hnested _ _ hconsequent
    obtain ⟨span', hspan⟩ := expect_eq_ok hafter
    obtain ⟨elseUsed, p, rfl, helse, hp, helseHeight, -⟩ := hnested _ _ halternate
    obtain ⟨hlimit, rfl⟩ := built_eq_ok hbuilt
    refine ⟨used ++ ⟨.mark .question, span⟩ :: (thenUsed ++ ⟨.mark .colon, span'⟩ :: elseUsed),
      max n (max (m + 1) (p + 1)), by simp [hrest, hspan], ?_, by omega, ?_, hlimit⟩
    · simpa using hderives.conditional hthen helse
    · simp only [Expr.height, hheight, hthenHeight, helseHeight]
  · cases h
    exact htest.mono .ofConnected

/-- Without room to spare there is neither a nested expression nor another operand. -/
theorem operand_zero (limits : Limits) :
    Parser.operand limits 0 = prefixed limits 0 (expression limits 0) (tooDeep limits) :=
  funext fun _ => rfl

/-- No phrase is read without room. -/
theorem sound_tooDeep (phrase : Phrase) : Sound limits phrase 0 (tooDeep limits) :=
  fun _ _ h => by cases h

/-- **Soundness.** What is read as an expression or as an operand is one. -/
theorem sound_expression (limits : Limits) (room : Nat) :
    Sound limits .expression room (expression limits room) ∧
      Sound limits .operand (room + 1) (Parser.operand limits room) := by
  induction room with
  | zero => exact ⟨sound_tooDeep _, sound_prefixed (sound_tooDeep _) (sound_tooDeep _)⟩
  | succ room ih =>
    obtain ⟨hexpression, hoperand⟩ := ih
    have hnested : Sound limits .expression (room + 1) (expression limits (room + 1)) :=
      sound_conditional hexpression hoperand
    exact ⟨hnested, by rw [operand_succ]; exact sound_prefixed hnested hoperand⟩

end ScreenedExpr.Parser
