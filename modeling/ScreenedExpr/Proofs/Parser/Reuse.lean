import ScreenedExpr.Proofs.Parser.Requests

/-!
# A parser that is used again

Behind any requests a machine differs from one that starts with the tokens left: tokens that were
read are still there or taken out, levels are entered that will not be left, and the register
holds a height. None of this has any influence. What has is the room for further levels, so the
new machine gets this for its limit; and since a refusal for depth names the limit, this one
alone names another.

* `SyntaxError.naming` — the same error with another limit on the depth;
* `Parser.expression_eq_naming` — the limit on the depth is read only to be named;
* `Parser.Machine.answer_afresh` — an answer behind any requests, and one from a new start.
-/

namespace ScreenedExpr

/-- The same error, with another limit on the depth named. -/
def SyntaxError.naming (limit : Nat) : SyntaxError → SyntaxError
  | tooDeep _ => tooDeep limit
  | error => error

namespace Parser

variable {α β : Type} {limits : Limits} {room limit depth : Nat}

/-! ## Limits that are named -/

/-- What comes of reading, with another limit on the depth named. -/
def naming (limit : Nat) : Except Failure α → Except Failure α :=
  Except.mapError fun failure => { failure with error := failure.error.naming limit }

theorem naming_bind (x : Except Failure α) (f : α → Except Failure β) :
    naming limit (x >>= f) = naming limit x >>= fun a => naming limit (f a) := by
  cases x <;> rfl

/-- An error at a token does not name this limit. -/
theorem naming_errorAt {error : TokenKind → Span → SyntaxError} {tokens : List Token}
    (herror : ∀ kind span, (error kind span).naming limit = error kind span) :
    (naming limit (.error ⟨errorAt error tokens, tokens, room⟩) : Except Failure α) =
      .error ⟨errorAt error tokens, tokens, room⟩ := by
  cases tokens with
  | nil => rfl
  | cons token rest =>
    simp only [naming, Except.mapError, errorAt]
    split
    · rfl
    · rw [herror]

theorem naming_built (expr : Expr) (height : Nat) (rest : List Token) :
    naming limit (built limits room expr height rest) = built limits room expr height rest := by
  rw [built]
  split <;> rfl

theorem naming_expect (mark : Mark) (tokens : List Token) :
    naming limit (expect room mark tokens) = expect room mark tokens := by
  fun_cases expect room mark tokens
  · rfl
  all_goals exact naming_errorAt fun _ _ => rfl

theorem naming_propertyName (tokens : List Token) :
    naming limit (propertyName room tokens) = propertyName room tokens := by
  fun_cases propertyName room tokens
  · exact naming_errorAt fun _ _ => rfl
  · rfl
  · exact naming_errorAt fun _ _ => rfl

/-! ## Constructs -/

/-- A reading, with another limit on the depth named. -/
def namingAll (limit : Nat) (read : List Token → Outcome) : List Token → Outcome :=
  fun tokens => naming limit (read tokens)

variable (read operand : List Token → Outcome)

theorem primary_naming (tokens : List Token) :
    primary limits room (namingAll limit read) tokens =
      naming limit (primary limits room read tokens) := by
  fun_cases primary limits room read tokens
  · exact (naming_built _ _ _).symm
  · exact (naming_built _ _ _).symm
  · simp only [primary, namingAll, naming_bind, naming_expect]
    rfl
  · next hliteral hname hparen =>
    rw [primary, naming_errorAt fun _ _ => rfl]
    · exact hliteral
    · exact hname
    · exact hparen

theorem memberStep_naming (object : Parsed) :
    memberStep limits room (namingAll limit read) object =
      (memberStep limits room read object).map (naming limit) := by
  fun_cases memberStep limits room read object
  · next hrest =>
    simp only [memberStep, hrest, Option.map_some, naming_bind, naming_propertyName, naming_built]
  · next hrest =>
    simp only [memberStep, hrest, Option.map_some, namingAll, naming_bind, naming_expect,
      naming_built]
  · next hdot hbracket =>
    rw [memberStep.eq_def]
    split
    · next hrest => exact absurd hrest (hdot _ _)
    · next hrest => exact absurd hrest (hbracket _ _)
    · rfl

theorem extend_naming {step step' : Parsed → Option Outcome}
    (hstep : ∀ left, step left = (step' left).map (naming limit)) (bound : List Token)
    (left : Parsed) : extend step bound left = naming limit (extend step' bound left) := by
  induction bound generalizing left with
  | nil => rfl
  | cons token bound ih =>
    rw [extend, extend, hstep]
    obtain _ | (failure | longer) := step' left
    · rfl
    · rfl
    · exact ih longer

theorem member_naming (tokens : List Token) :
    member limits room (namingAll limit read) tokens =
      naming limit (member limits room read tokens) := by
  rw [member, member, naming_bind, primary_naming]
  simp only [extend_naming (memberStep_naming read)]

theorem connectedStep_naming (strength : Nat) (left : Parsed) :
    connectedStep limits room strength (namingAll limit read) left =
      (connectedStep limits room strength read left).map (naming limit) := by
  fun_cases connectedStep limits room strength read left
  · next hrest => simp only [connectedStep, hrest, Option.map_none]
  · next hrest hnone => simp only [connectedStep, hrest, hnone, Option.map_none]
  · next hrest _ hsome =>
    simp only [connectedStep, hrest, hsome, Option.map_some, namingAll, naming_bind, naming_built]

theorem connected_naming (strength : Nat) :
    connected limits room (namingAll limit operand) strength =
      namingAll limit (connected limits room operand strength) := by
  induction strength with
  | zero => rfl
  | succ strength ih =>
    funext tokens
    rw [connected, namingAll, connected, naming_bind, ih]
    simp only [extend_naming (connectedStep_naming _ strength)]
    rfl

theorem conditional_naming (tokens : List Token) :
    conditional limits room (namingAll limit read) (namingAll limit operand) tokens =
      naming limit (conditional limits room read operand tokens) := by
  rw [conditional, conditional, connected_naming, naming_bind]
  refine congrArg _ (funext fun test => ?_)
  split
  · simp only [namingAll, naming_bind, naming_expect, naming_built]
  · rfl

theorem prefixed_naming (tokens : List Token) :
    prefixed limits room (namingAll limit read) (namingAll limit operand) tokens =
      naming limit (prefixed limits room read operand tokens) := by
  fun_cases prefixed limits room read operand tokens
  · simp only [prefixed, namingAll, naming_bind, naming_built]
  · simp only [prefixed, namingAll, naming_bind, naming_built]
  · next hbang hminus =>
    rw [prefixed, member_naming]
    · exact hbang
    · exact hminus

/-! ## The recursion -/

/-- **The limit on the depth is read only to be named.** In the same room an expression and an
operand are read alike under any such limit. -/
theorem expression_eq_naming (limits : Limits) (depth room : Nat) :
    expression limits room = namingAll limits.depth (expression { limits with depth } room) ∧
      Parser.operand limits room =
        namingAll limits.depth (Parser.operand { limits with depth } room) := by
  induction room with
  | zero =>
    refine ⟨rfl, funext fun tokens => ?_⟩
    have htooDeep : tooDeep limits =
        namingAll limits.depth (tooDeep { limits with depth }) := rfl
    rw [Parser.operand, htooDeep, prefixed_naming]
    rfl
  | succ room ih =>
    obtain ⟨ihExpression, ihOperand⟩ := ih
    have hexpression : expression limits (room + 1) =
        namingAll limits.depth (expression { limits with depth } (room + 1)) := by
      funext tokens
      rw [expression_succ, ihExpression, ihOperand, conditional_naming]
      rfl
    refine ⟨hexpression, funext fun tokens => ?_⟩
    rw [operand_succ, hexpression, ihOperand, prefixed_naming]
    rfl

/-! ## Requests -/

/-- The parser under another limit on the depth, with the same room. -/
def withDepth (depth : Nat) (parser : Parser) : Parser :=
  { parser with limits := { parser.limits with depth } }

theorem nextExpr_naming (parser : Parser) (depth : Nat) :
    parser.nextExpr.1 =
        (parser.withDepth depth).nextExpr.1.mapError (SyntaxError.naming parser.limits.depth) ∧
      parser.nextExpr.2.rest = (parser.withDepth depth).nextExpr.2.rest := by
  rw [nextExpr, nextExpr, (expression_eq_naming parser.limits depth parser.room).1, namingAll,
    withDepth]
  dsimp only
  generalize expression { parser.limits with depth } parser.room parser.rest = out
  cases out <;> exact ⟨rfl, rfl⟩

theorem whole_naming (parser : Parser) (depth : Nat) :
    parser.whole.1 =
        (parser.withDepth depth).whole.1.mapError (SyntaxError.naming parser.limits.depth) ∧
      parser.whole.2.rest = (parser.withDepth depth).whole.2.rest := by
  obtain ⟨hreply, hrest⟩ := nextExpr_naming parser depth
  rw [whole, whole]
  generalize parser.nextExpr = out, (parser.withDepth depth).nextExpr = out' at hreply hrest ⊢
  obtain ⟨reply, after⟩ := out
  obtain ⟨reply' | expr, after'⟩ := out'
  · obtain rfl : reply = _ := hreply
    exact ⟨rfl, hrest⟩
  · obtain rfl : reply = .ok expr := hreply
    obtain ⟨limits, room, _⟩ := after
    obtain ⟨limits', room', rest⟩ := after'
    obtain rfl : _ = rest := hrest
    dsimp only
    split
    · exact ⟨rfl, rfl⟩
    · split <;> exact ⟨rfl, rfl⟩

end Parser

namespace Parser.Machine

variable {m : Machine}

theorem reply_naming (request : Request) (parser : Parser) (depth : Nat) :
    (request.reply parser).1 =
        (request.reply (parser.withDepth depth)).1.mapError
          (SyntaxError.naming parser.limits.depth) ∧
      (request.reply parser).2.rest = (request.reply (parser.withDepth depth)).2.rest := by
  cases request with
  | expression => exact nextExpr_naming parser depth
  | whole => exact whole_naming parser depth

/-- What is left is closed. -/
theorem Ready.closeTokens_rest (h : m.Ready) : closeTokens m.rest = m.rest := by
  obtain ⟨token, tokens, hrest⟩ := h.exists_cons
  have hlast := List.getLast?_eq_some_getLast (hrest ▸ List.cons_ne_nil token tokens)
  rw [closeTokens, hlast]
  dsimp only
  rw [if_pos (h.last_eof _ (h.getLast?_rest ▸ hlast))]

/-- A new machine over the tokens left, that may enter the levels left. -/
def afresh (m : Machine) : Machine :=
  ofTokens { m.limits with depth := m.limits.depth - m.depth } m.rest

theorem ready_afresh (m : Machine) : m.afresh.Ready := (stands_ofTokens _ _).ready

theorem Ready.size_afresh (h : m.Ready) : m.afresh.tokens.size = m.tokens.size - m.position := by
  rw [Machine.afresh, ofTokens, h.closeTokens_rest, List.size_toArray, length_rest]

theorem Ready.parser_afresh (h : m.Ready) :
    m.afresh.parser = m.parser.withDepth (m.limits.depth - m.depth) := by
  rw [Machine.afresh, ofTokens, h.closeTokens_rest]
  rfl

/-- **One request** to a machine, and to the new one. -/
theorem Ready.exists_afresh (h : m.Ready) (request : Request) :
    ∃ reply m' f,
      answer request m = .ok (reply.mapError (SyntaxError.naming m.limits.depth), m') ∧
      answer request m.afresh = .ok (reply, f) ∧ m'.position = m.position + f.position := by
  obtain ⟨m', hanswer, hparser, hserves⟩ := answer_eq h request
  obtain ⟨f, hafresh, hparser', hserves'⟩ := answer_eq m.ready_afresh request
  obtain ⟨hreply, hrest⟩ := reply_naming request m.parser (m.limits.depth - m.depth)
  rw [hreply] at hanswer
  rw [h.parser_afresh] at hafresh hparser'
  refine ⟨_, m', f, hanswer, hafresh, ?_⟩
  -- both started with the same tokens left, and the same are left now
  have hleft : m'.rest.length = f.rest.length := by
    change m'.parser.rest.length = f.parser.rest.length
    rw [hparser, hparser', hrest]
  rw [length_rest, length_rest, hserves.later.size_eq, hserves'.later.size_eq, h.size_afresh]
    at hleft
  have hlt := hserves.later.position_lt
  have hlt' := hserves'.later.position_lt
  have hle := hserves.later.position_le
  rw [hserves.later.size_eq] at hlt
  rw [hserves'.later.size_eq, h.size_afresh] at hlt'
  omega

/-- **A parser that is used again is like a new one.** Behind any requests over any tokens, a
machine gives the same expression or the same error as a new one over the tokens left, whose limit
on the depth is the number of levels left, and takes the same number of tokens. Only a refusal for
depth names the limit that the machine started with. -/
theorem answer_afresh (limits : Limits) (tokens : List Token) (requests : List Request)
    (request : Request) :
    ∃ replies m reply m' f,
      answers requests (ofTokens limits tokens) = .ok (replies, m) ∧
      answer request m = .ok (reply.mapError (SyntaxError.naming limits.depth), m') ∧
      answer request (ofTokens { limits with depth := limits.depth - m.depth } m.rest) =
        .ok (reply, f) ∧
      m'.position = m.position + f.position := by
  obtain ⟨replies, m, hanswers, hstands⟩ := (stands_ofTokens limits tokens).answers requests
  obtain ⟨reply, m', f, hanswer, hafresh, hposition⟩ := hstands.ready.exists_afresh request
  rw [hstands.limits_eq] at hanswer
  rw [afresh, hstands.limits_eq] at hafresh
  exact ⟨replies, m, reply, m', f, hanswers, hanswer, hafresh, hposition⟩

end Parser.Machine

end ScreenedExpr
