import ScreenedExpr.Proofs.Parser.Completeness

/-!
# Two readings in lockstep

The parser reads forwards, looks at one token at a time, and asks for its limits only to
refuse. So let two sequences of tokens agree up to their **tails**, and let the tails start
with the same token. Then a reading of the one and a reading of the other under limits that
allow no less do the same, until the first has gone beyond the start of its tail or has met
a limit.

With empty tails this says that limits never change what is read. With tails of one common
token it says that what follows this token has no say in a failure at it.

* `Alike` — sequences that differ in the tails only;
* `Agrees` — outcomes that differ in the tails only, as long as the first is in front of it;
* `lockstep_expression` — expressions and operands, in any room and any greater one;
* `ofTokens_eq_of_alike` — whole sequences of tokens.
-/

namespace ScreenedExpr

/-- The error says that a limit was met. -/
def SyntaxError.isLimit : SyntaxError → Bool
  | tooDeep _ | tooTall _ => true
  | _ => false

namespace Parser

open Grammar

/-- The tokens that an outcome leaves. -/
def remaining : Outcome → List Token
  | .ok parsed => parsed.rest
  | .error failure => failure.rest

/-- No limit was met. -/
def WithinLimits : Outcome → Prop
  | .ok _ => True
  | .error failure => failure.error.isLimit = false

/-! ## Sequences and outcomes that agree -/

section agreement

variable {tail tail' : List Token}

/-- The second sequence has the other tail behind the same tokens. Nothing is said of it
when the first one starts beyond its tail. -/
def Alike (tail tail' xs ys : List Token) : Prop :=
  tail <:+ xs → ∃ before, xs = before ++ tail ∧ ys = before ++ tail'

/-- The same expression or the same error, in front of sequences that are alike. -/
inductive Matches (tail tail' : List Token) : Outcome → Outcome → Prop where
  /-- the same expression -/
  | ok {e : Expr} {height : Nat} {xs ys : List Token} (h : Alike tail tail' xs ys) :
      Matches tail tail' (.ok ⟨e, height, xs⟩) (.ok ⟨e, height, ys⟩)
  /-- the same error -/
  | error {error : SyntaxError} {xs ys : List Token} {room room' : Nat}
      (h : Alike tail tail' xs ys) :
      Matches tail tail' (.error ⟨error, xs, room⟩) (.error ⟨error, ys, room'⟩)

/-- What comes of the tokens `xs`, and of a second sequence: the first outcome leaves a last
part of its tokens, and if it is not beyond the tail and no limit was met, the second
outcome is the same. -/
structure Agrees (tail tail' xs : List Token) (out out' : Outcome) : Prop where
  /-- tokens are taken from the front -/
  suffix : remaining out <:+ xs
  /-- up to the tail nothing differs -/
  matches_of : tail <:+ remaining out → WithinLimits out → Matches tail tail' out out'

/-- Two readings agree on all sequences that are alike. -/
def Lockstep (tail tail' : List Token) (read read' : List Token → Outcome) : Prop :=
  ∀ xs ys, Alike tail tail' xs ys → Agrees tail tail' xs (read xs) (read' ys)

theorem Alike.append (before : List Token) :
    Alike tail tail' (before ++ tail) (before ++ tail') :=
  fun _ => ⟨before, rfl, rfl⟩

/-- Every sequence has one that is alike. -/
theorem Alike.exists_right (tail tail' xs : List Token) : ∃ ys, Alike tail tail' xs ys := by
  by_cases htail : tail <:+ xs
  · obtain ⟨before, rfl⟩ := htail
    exact ⟨before ++ tail', .append before⟩
  · exact ⟨[], fun h => absurd h htail⟩

/-- Behind a token that both start with, the sequences are alike. -/
theorem Alike.cons_inv {token : Token} {xs ys : List Token}
    (hhead : (token :: xs).head? = ys.head?) (h : Alike tail tail' (token :: xs) ys) :
    ∃ rest, ys = token :: rest ∧ Alike tail tail' xs rest := by
  obtain ⟨rest, rfl⟩ := List.head?_eq_some_iff.mp hhead.symm
  refine ⟨rest, rfl, fun htail => ?_⟩
  obtain ⟨_ | ⟨first, before⟩, hxs, hys⟩ := h (htail.trans (List.suffix_cons token xs))
  · -- the token was the first one of the tail
    have hlength := htail.length_le
    rw [List.nil_append] at hxs
    rw [← hxs, List.length_cons] at hlength
    omega
  · rw [List.cons_append] at hxs hys
    exact ⟨before, (List.cons.inj hxs).2, (List.cons.inj hys).2⟩

/-- Sequences that are alike start with the same token, up to the tail. -/
theorem Alike.head?_eq {xs ys : List Token} (hhead : tail.head? = tail'.head?)
    (h : Alike tail tail' xs ys) (htail : tail <:+ xs) : xs.head? = ys.head? := by
  obtain ⟨before, rfl, rfl⟩ := h htail
  rw [List.head?_append, List.head?_append, hhead]

/-- What starts with the same token, starts with no other. -/
theorem ne_cons_of_head? {token : Token} {xs ys : List Token} (hhead : xs.head? = ys.head?)
    (h : ∀ rest, xs ≠ token :: rest) : ∀ rest, ys ≠ token :: rest := by
  rintro _ rfl
  obtain ⟨rest, rfl⟩ := List.head?_eq_some_iff.mp hhead
  exact h rest rfl

namespace Agrees

variable {xs ys zs : List Token} {out out' x x' : Outcome} {limits limits' : Limits}
  {room room' : Nat}

/-- A token was taken before. -/
theorem cons (h : Agrees tail tail' xs out out') (token : Token) :
    Agrees tail tail' (token :: xs) out out' :=
  ⟨h.suffix.trans (List.suffix_cons token xs), h.matches_of⟩

/-- The same expression is agreement. -/
theorem ok (e : Expr) (height : Nat) (h : Alike tail tail' xs ys) :
    Agrees tail tail' xs (.ok ⟨e, height, xs⟩) (.ok ⟨e, height, ys⟩) :=
  ⟨List.suffix_refl xs, fun _ _ => .ok h⟩

/-- A node that is within the limit is also within a greater one. -/
theorem built (hheight : limits.height ≤ limits'.height) (e : Expr) (height : Nat)
    (h : Alike tail tail' xs ys) :
    Agrees tail tail' xs (built limits room e height xs) (built limits' room' e height ys) := by
  by_cases hlimit : height ≤ limits.height
  · rw [built_of_le hlimit, built_of_le (Nat.le_trans hlimit hheight)]
    exact .ok e height h
  · rw [Parser.built, if_pos (by omega)]
    exact ⟨List.suffix_refl xs, fun _ hwithin => by cases hwithin⟩

/-- An error at the first token is the same if the first token is. -/
theorem errorAt (error : TokenKind → Span → SyntaxError) (hhead : xs.head? = ys.head?)
    (h : Alike tail tail' xs ys) :
    Agrees tail tail' xs (.error ⟨errorAt error xs, xs, room⟩)
      (.error ⟨errorAt error ys, ys, room'⟩) := by
  have herror : Parser.errorAt error ys = Parser.errorAt error xs := by
    cases xs <;> cases ys <;> simp_all [Parser.errorAt]
  rw [herror]
  exact ⟨List.suffix_refl xs, fun _ _ => .error h⟩

/-- What comes behind outcomes that agree, agrees if it does behind the same expression. -/
theorem bind_of_ok {f f' : Parsed → Outcome} (h : Agrees tail tail' xs x x')
    (hmore : ∀ e height ys zs, x = .ok ⟨e, height, ys⟩ → Alike tail tail' ys zs →
      Agrees tail tail' ys (f ⟨e, height, ys⟩) (f' ⟨e, height, zs⟩)) :
    Agrees tail tail' xs (x >>= f) (x' >>= f') := by
  cases x with
  | error failure =>
    refine ⟨h.suffix, fun hrest hwithin => ?_⟩
    cases h.matches_of hrest hwithin with
    | error halike => exact .error halike
  | ok parsed =>
    obtain ⟨e, height, rest⟩ := parsed
    have hsuffix : remaining (f ⟨e, height, rest⟩) <:+ rest := by
      obtain ⟨zs, halike⟩ := Alike.exists_right tail tail' rest
      exact (hmore e height rest zs rfl halike).suffix
    refine ⟨hsuffix.trans h.suffix, fun hrest hwithin => ?_⟩
    cases h.matches_of (hrest.trans hsuffix) trivial with
    | ok halike => exact (hmore e height rest _ rfl halike).matches_of hrest hwithin

/-- **Sequencing.** Outcomes that agree, and readings in lockstep behind them. -/
theorem bind {f f' : Parsed → Outcome} (h : Agrees tail tail' xs x x')
    (hmore : ∀ e height, Lockstep tail tail' (fun rest => f ⟨e, height, rest⟩)
      (fun rest => f' ⟨e, height, rest⟩)) :
    Agrees tail tail' xs (x >>= f) (x' >>= f') :=
  h.bind_of_ok fun e height ys zs _ => hmore e height ys zs

/-- It is enough to compare with sequences that start with the same token. -/
theorem of_head (hhead : tail.head? = tail'.head?) (read' : List Token → Outcome)
    (h : ∀ ys, xs.head? = ys.head? → Alike tail tail' xs ys →
      Agrees tail tail' xs out (read' ys)) (halike : Alike tail tail' xs ys) :
    Agrees tail tail' xs out (read' ys) := by
  by_cases htail : tail <:+ xs
  · exact h ys (halike.head?_eq hhead htail) halike
  · -- the first reading starts beyond its tail, and stays there
    have hsuffix := (h xs rfl fun h => absurd h htail).suffix
    exact ⟨hsuffix, fun hrest => absurd (hrest.trans hsuffix) htail⟩

end Agrees

/-! ## Parts of expressions -/

namespace Lockstep

variable {limits limits' : Limits} {room room' s : Nat}
variable {nested nested' : List Token → Outcome}

/-- An operator is there in both sequences or in neither, and operands follow it. -/
theorem connectedStep {operand operand' : List Token → Outcome}
    (hheight : limits.height ≤ limits'.height)
    (hoperand : Lockstep tail tail' operand operand') (e : Expr) (height : Nat)
    (xs ys : List Token) (hxs : xs.head? = ys.head?) (h : Alike tail tail' xs ys) :
    Option.Rel (Agrees tail tail' xs) (connectedStep limits room s operand ⟨e, height, xs⟩)
      (Parser.connectedStep limits' room' s operand' ⟨e, height, ys⟩) := by
  cases xs with
  | nil =>
    obtain rfl := List.head?_eq_none_iff.mp hxs.symm
    exact .none
  | cons token rest =>
    obtain ⟨rest', rfl, halike⟩ := h.cons_inv hxs
    simp only [Parser.connectedStep]
    cases connectiveAt s token.kind with
    | none => exact .none
    | some connective =>
      refine .some (Agrees.cons ?_ _)
      exact (hoperand _ _ halike).bind fun right rightHeight _ _ => .built hheight _ _

variable (hhead : tail.head? = tail'.head?)
include hhead

theorem of_head {read read' : List Token → Outcome}
    (h : ∀ xs ys, xs.head? = ys.head? → Alike tail tail' xs ys →
      Agrees tail tail' xs (read xs) (read' ys)) :
    Lockstep tail tail' read read' :=
  fun xs _ => .of_head hhead read' (h xs)

/-- A mark that is asked for is there in both sequences or in neither. -/
theorem expect {f f' : List Token → Outcome} (mark : Mark) (hmore : Lockstep tail tail' f f') :
    Lockstep tail tail' (fun tokens => expect room mark tokens >>= f)
      (fun tokens => Parser.expect room' mark tokens >>= f') := by
  refine of_head hhead fun xs ys hxs h => ?_
  by_cases hmark : ∀ token ∈ xs.head?, token.kind ≠ .mark mark
  · rw [expect_of_ne hmark, expect_of_ne (hxs ▸ hmark)]
    exact .errorAt _ hxs h
  · obtain ⟨⟨_, span⟩, htoken, hkind⟩ := by simpa using hmark
    obtain rfl := hkind
    obtain ⟨rest, rfl⟩ := List.head?_eq_some_iff.mp htoken
    obtain ⟨rest', rfl, halike⟩ := h.cons_inv hxs
    rw [expect_cons, expect_cons]
    exact (hmore rest rest' halike).cons _

/-- A name that is asked for is there in both sequences or in neither. -/
theorem propertyName {f f' : String × List Token → Outcome}
    (hmore : ∀ name, Lockstep tail tail' (fun rest => f (name, rest))
      (fun rest => f' (name, rest))) :
    Lockstep tail tail' (fun tokens => propertyName room tokens >>= f)
      (fun tokens => Parser.propertyName room' tokens >>= f') := by
  refine of_head hhead fun xs ys hxs h => ?_
  by_cases hname : ∀ token ∈ xs.head?, token.kind.propertyName? = none
  · rw [propertyName_of_none hname, propertyName_of_none (hxs ▸ hname)]
    exact .errorAt _ hxs h
  · obtain ⟨token, htoken, name, hfound⟩ := by simpa [Option.ne_none_iff_exists'] using hname
    obtain ⟨rest, rfl⟩ := List.head?_eq_some_iff.mp htoken
    obtain ⟨rest', rfl, halike⟩ := h.cons_inv hxs
    have hproperty := PropertyName.propertyName?_eq_some_iff.mp hfound
    rw [propertyName_cons hproperty, propertyName_cons hproperty]
    exact (hmore name rest rest' halike).cons _

/-- **Loops.** Steps in lockstep make a loop in lockstep. -/
theorem extend {step step' : Parsed → Option Outcome} (hconsumes : Consumes step)
    (hconsumes' : Consumes step')
    (hstep : ∀ e height xs ys, xs.head? = ys.head? → Alike tail tail' xs ys →
      Option.Rel (Agrees tail tail' xs) (step ⟨e, height, xs⟩) (step' ⟨e, height, ys⟩))
    (e : Expr) (height : Nat) :
    Lockstep tail tail' (fun rest => extend step rest ⟨e, height, rest⟩)
      (fun rest => Parser.extend step' rest ⟨e, height, rest⟩) := by
  intro xs
  induction hlength : xs.length using Nat.strong_induction_on generalizing e height xs with
  | _ n ih =>
    refine fun _ => Agrees.of_head hhead
      (fun rest => Parser.extend step' rest ⟨e, height, rest⟩) fun ys hxs h => ?_
    beta_reduce
    have hrel := hstep e height xs ys hxs h
    generalize hout : step ⟨e, height, xs⟩ = out, hout' : step' ⟨e, height, ys⟩ = out' at hrel
    cases hrel with
    | none =>
      rw [extend_of_none hout, extend_of_none hout']
      exact .ok e height h
    | some hagrees =>
      rw [hconsumes.extend_eq_bind hout, hconsumes'.extend_eq_bind hout']
      refine hagrees.bind_of_ok fun e height rest rest' hok => ?_
      have hlt := hconsumes.length_lt _ _ (hok ▸ hout)
      exact ih rest.length (hlength ▸ hlt) e height rest rfl rest'

variable (hheight : limits.height ≤ limits'.height)
include hheight

theorem primary (hnested : Lockstep tail tail' nested nested') :
    Lockstep tail tail' (primary limits room nested) (Parser.primary limits' room' nested') := by
  refine of_head hhead fun xs ys hxs h => ?_
  rw [primary.eq_def limits]
  split
  · obtain ⟨rest, rfl, halike⟩ := h.cons_inv hxs
    exact (Agrees.built hheight _ _ halike).cons _
  · obtain ⟨rest, rfl, halike⟩ := h.cons_inv hxs
    exact (Agrees.built hheight _ _ halike).cons _
  · obtain ⟨rest, rfl, halike⟩ := h.cons_inv hxs
    refine Agrees.cons ?_ _
    exact (hnested _ _ halike).bind fun e height =>
      expect hhead .rightParen fun _ _ => .ok e height
  · next hliteral hname hparen =>
    rw [Parser.primary]
    · exact .errorAt .unexpectedToken hxs h
    · exact fun value span => ne_cons_of_head? hxs (hliteral value span)
    · exact fun name span => ne_cons_of_head? hxs (hname name span)
    · exact fun span => ne_cons_of_head? hxs (hparen span)

theorem memberStep (hnested : Lockstep tail tail' nested nested') (e : Expr) (height : Nat)
    (xs ys : List Token) (hxs : xs.head? = ys.head?) (h : Alike tail tail' xs ys) :
    Option.Rel (Agrees tail tail' xs) (memberStep limits room nested ⟨e, height, xs⟩)
      (Parser.memberStep limits' room' nested' ⟨e, height, ys⟩) := by
  rw [memberStep.eq_def limits]
  split
  · next span rest hrest =>
    obtain rfl : xs = _ := hrest
    obtain ⟨rest', rfl, halike⟩ := h.cons_inv hxs
    refine .some (Agrees.cons ?_ _)
    exact propertyName hhead (fun name _ _ => .built hheight _ _) _ _ halike
  · next span rest hrest =>
    obtain rfl : xs = _ := hrest
    obtain ⟨rest', rfl, halike⟩ := h.cons_inv hxs
    refine .some (Agrees.cons ?_ _)
    refine (hnested _ _ halike).bind fun key keyHeight => ?_
    dsimp only
    exact expect hhead .rightBracket fun _ _ => .built hheight _ _
  · next hdot hbracket =>
    rw [Parser.memberStep]
    split
    · next span rest hrest => exact absurd hrest (ne_cons_of_head? hxs (hdot span) rest)
    · next span rest hrest => exact absurd hrest (ne_cons_of_head? hxs (hbracket span) rest)
    · exact .none

theorem member
    (hnested : Lockstep tail tail' (expression limits room) (expression limits' room')) :
    Lockstep tail tail' (member limits room (expression limits room))
      (Parser.member limits' room' (expression limits' room')) := by
  intro xs ys h
  apply (primary hhead hheight hnested xs ys h).bind
  apply extend hhead (consumes_memberStep limits room) (consumes_memberStep limits' room')
  exact memberStep hhead hheight hnested

theorem prefixed {operand operand' : List Token → Outcome}
    (hnested : Lockstep tail tail' (expression limits room) (expression limits' room'))
    (hoperand : Lockstep tail tail' operand operand') :
    Lockstep tail tail' (prefixed limits room (expression limits room) operand)
      (Parser.prefixed limits' room' (expression limits' room') operand') := by
  refine of_head hhead fun xs ys hxs h => ?_
  rw [prefixed.eq_def limits]
  split
  · obtain ⟨rest, rfl, halike⟩ := h.cons_inv hxs
    refine Agrees.cons ?_ _
    exact (hoperand _ _ halike).bind fun e height _ _ => .built hheight _ _
  · obtain ⟨rest, rfl, halike⟩ := h.cons_inv hxs
    refine Agrees.cons ?_ _
    exact (hoperand _ _ halike).bind fun e height _ _ => .built hheight _ _
  · next hbang hminus =>
    rw [Parser.prefixed]
    · exact member hhead hheight hnested xs ys h
    · exact fun span => ne_cons_of_head? hxs (hbang span)
    · exact fun span => ne_cons_of_head? hxs (hminus span)

theorem connected
    (hoperand : Lockstep tail tail' (operand limits room) (operand limits' room')) (s : Nat) :
    Lockstep tail tail' (connected limits room (operand limits room) s)
      (Parser.connected limits' room' (Parser.operand limits' room') s) := by
  induction s with
  | zero => exact hoperand
  | succ s ih =>
    intro xs ys h
    apply (ih xs ys h).bind
    apply extend hhead (consumes_connectedStep limits room s)
      (consumes_connectedStep limits' room' s)
    exact connectedStep hheight ih

theorem conditional (hnested : Lockstep tail tail' nested nested')
    (hoperand : Lockstep tail tail' (operand limits room) (operand limits' room')) :
    Lockstep tail tail' (conditional limits room nested (operand limits room))
      (Parser.conditional limits' room' nested' (Parser.operand limits' room')) := by
  intro xs ys h
  refine (connected hhead hheight hoperand strengths xs ys h).bind fun test testHeight => ?_
  refine of_head hhead fun xs ys hxs h => ?_
  dsimp only
  split
  · obtain ⟨rest, rfl, halike⟩ := h.cons_inv hxs
    refine Agrees.cons ?_ _
    refine (hnested _ _ halike).bind fun consequent thenHeight => ?_
    dsimp only
    refine expect hhead .colon fun xs ys h => ?_
    exact (hnested xs ys h).bind fun alternate elseHeight _ _ => .built hheight _ _
  · next hquestion =>
    split
    · next span rest => exact absurd rfl (ne_cons_of_head? hxs (hquestion span) rest)
    · exact .ok test testHeight h

end Lockstep

end agreement

/-! ## Expressions -/

/-- **Lockstep.** Expressions, and operands, with at least as much room and height. -/
theorem lockstep_expression {tail tail' : List Token} {limits limits' : Limits}
    {room room' : Nat} (hhead : tail.head? = tail'.head?)
    (hheight : limits.height ≤ limits'.height) (hroom : room ≤ room') :
    Lockstep tail tail' (expression limits room) (expression limits' room') ∧
      Lockstep tail tail' (operand limits room) (operand limits' room') := by
  have htooDeep : ∀ read', Lockstep tail tail' (tooDeep limits) read' := fun _ xs _ _ =>
    ⟨List.suffix_refl xs, fun _ hwithin => by cases hwithin⟩
  induction room generalizing room' with
  | zero =>
    refine ⟨htooDeep _, ?_⟩
    rw [operand_zero]
    cases room' with
    | zero =>
      rw [operand_zero]
      exact .prefixed hhead hheight (htooDeep _) (htooDeep _)
    | succ room' =>
      rw [operand_succ]
      exact .prefixed hhead hheight (htooDeep _) (htooDeep _)
  | succ room ih =>
    obtain ⟨room', rfl⟩ : ∃ r, room' = r + 1 := ⟨room' - 1, by omega⟩
    obtain ⟨hexpression, hoperand⟩ := ih (Nat.le_of_succ_le_succ hroom)
    have hnested : Lockstep tail tail' (expression limits (room + 1))
        (expression limits' (room' + 1)) := .conditional hhead hheight hexpression hoperand
    rw [operand_succ, operand_succ]
    exact ⟨hnested, .prefixed hhead hheight hnested hoperand⟩

/-! ## Whole sequences -/

/-- What a whole sequence is, given the reading of the expression that it starts with. -/
def conclude : Outcome → Except SyntaxError Expr
  | .error failure => .error failure.error
  | .ok parsed =>
    match parsed.rest with
    | [] => .ok parsed.expr
    | token :: _ =>
      if token.kind = .eof then .ok parsed.expr
      else .error (.trailingInput token.kind token.span)

theorem ofTokens_eq_conclude (limits : Limits) (tokens : List Token) :
    Expr.ofTokens limits tokens =
      conclude (expression limits limits.depth (closeTokens tokens)) := by
  simp only [Expr.ofTokens, whole, nextExpr, ofTokens]
  cases expression limits limits.depth (closeTokens tokens) with
  | error failure => rfl
  | ok parsed =>
    obtain ⟨e, height, _ | ⟨token, rest⟩⟩ := parsed
    · rfl
    · simp only [conclude]
      split <;> rfl

/-- Outcomes that match come to the same conclusion. -/
theorem Matches.conclude_eq {tail tail' : List Token} {out out' : Outcome}
    (hhead : tail.head? = tail'.head?) (h : Matches tail tail' out out')
    (htail : tail <:+ remaining out) : conclude out = conclude out' := by
  cases h with
  | error => rfl
  | @ok e height xs ys halike =>
    have hxs := halike.head?_eq hhead htail
    cases xs <;> cases ys <;> simp_all [conclude]

/-- **Two sequences that differ in their tails only, are the same** under limits that allow
no less, if the reading of the first one's expression ends in front of the tail and meets
no limit. -/
theorem ofTokens_eq_of_alike {tail tail' before tokens tokens' : List Token}
    {limits limits' : Limits} (hhead : tail.head? = tail'.head?)
    (hdepth : limits.depth ≤ limits'.depth) (hheight : limits.height ≤ limits'.height)
    (htokens : closeTokens tokens = before ++ tail)
    (htokens' : closeTokens tokens' = before ++ tail')
    (htail : tail <:+ remaining (expression limits limits.depth (closeTokens tokens)))
    (hwithin : WithinLimits (expression limits limits.depth (closeTokens tokens))) :
    Expr.ofTokens limits' tokens' = Expr.ofTokens limits tokens := by
  have halike : Alike tail tail' (closeTokens tokens) (closeTokens tokens') := by
    rw [htokens, htokens']
    exact .append before
  have hagrees := (lockstep_expression hhead hheight hdepth).1 _ _ halike
  rw [ofTokens_eq_conclude, ofTokens_eq_conclude]
  exact ((hagrees.matches_of htail hwithin).conclude_eq hhead htail).symm

/-- **Limits that allow more change nothing** but refusals for a limit. -/
theorem ofTokens_eq_of_le {limits limits' : Limits} {tokens : List Token}
    (hdepth : limits.depth ≤ limits'.depth) (hheight : limits.height ≤ limits'.height)
    (h : ∀ error, Expr.ofTokens limits tokens = .error error → error.isLimit = false) :
    Expr.ofTokens limits' tokens = Expr.ofTokens limits tokens := by
  have hwithin : WithinLimits (expression limits limits.depth (closeTokens tokens)) := by
    rw [ofTokens_eq_conclude] at h
    cases hread : expression limits limits.depth (closeTokens tokens) with
    | ok => trivial
    | error failure => exact h failure.error (by rw [hread]; rfl)
  have hnil := (List.append_nil (closeTokens tokens)).symm
  exact ofTokens_eq_of_alike rfl hdepth hheight hnil hnil List.nil_suffix hwithin

end Parser

end ScreenedExpr
