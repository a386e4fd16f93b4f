import ScreenedExpr.Proofs.Parser.Machine

/-!
# A parser keeps its invariant

A machine is asked again and again, and some requests are refused: then the levels entered are
not left, the register keeps the height of some tree, and tokens that were read are taken out.
None of this leads to a crash. Whatever it is asked for, a machine answers, and it answers what
the parser answers that it stands for.

* `Machine.parser` — the parser that a machine stands for;
* `Machine.answer_eq` — how a machine answers a request;
* `Machine.Stands` — the invariant of a machine over a sequence of tokens;
* `Machine.answers_stands` — it holds whatever was asked for before.
-/

namespace ScreenedExpr.Parser.Machine

variable {m : Machine} {limits : Limits} {tokens : List Token}

/-! ## One request -/

/-- The parser that a machine stands for: what it still may enter, and the tokens left. -/
def parser (m : Machine) : Parser := ⟨m.limits, m.limits.depth - m.depth, m.rest⟩

/-- How a parser answers a request. -/
def Request.reply : Request → Parser → Except SyntaxError Expr × Parser
  | .expression => Parser.nextExpr
  | .whole => Parser.whole

/-- **What an answer does** to a machine. -/
structure Serves (m : Machine) (reply : Except SyntaxError Expr) (m' : Machine) : Prop where
  /-- it comes to a later state -/
  later : Later m m'
  /-- with a result it has read something -/
  position_lt : ∀ expr, reply = .ok expr → m.position < m'.position
  /-- with a result it has left every level that it entered -/
  depth_eq : ∀ expr, reply = .ok expr → m'.depth = m.depth

theorem nextExpr_eq (h : m.Ready) :
    ∃ m', nextExpr m = .ok (m.parser.nextExpr.1, m') ∧ m'.parser = m.parser.nextExpr.2 ∧
      Serves m m.parser.nextExpr.1 m' := by
  have hperforms : Performs Parsed.expr m
      (Parser.expression m.parser.limits m.parser.room m.parser.rest)
      (expression (2 * m.limits.depth + 1) m) :=
    (realizes_expression m.limits m.parser.room).1 _ (by dsimp only [parser]; omega) m
      ⟨h, rfl, rfl⟩
  have hsound := (sound_expression m.parser.limits m.parser.room).1 m.parser.rest
  rw [nextExpr, get_bind, Parser.nextExpr]
  generalize Parser.expression m.parser.limits m.parser.room m.parser.rest = out
    at hperforms hsound ⊢
  generalize expression (2 * m.limits.depth + 1) m = result at hperforms ⊢
  cases hperforms with
  | @ok parsed m' hreaches =>
    -- no expression is empty, so there are fewer tokens left
    have hlt : parsed.rest.length < m.rest.length := (hsound parsed rfl).length_lt
    rw [← hreaches.rest_eq, length_rest, length_rest, hreaches.later.size_eq] at hlt
    refine ⟨m', rfl, ?_, hreaches.later, fun _ _ => by omega, fun _ _ => hreaches.depth_eq⟩
    rw [parser, hreaches.later.limits_eq, hreaches.depth_eq, hreaches.rest_eq]
    rfl
  | @error failure m' hrefuses =>
    refine ⟨m', rfl, ?_, hrefuses.later, by rintro _ ⟨⟩, by rintro _ ⟨⟩⟩
    rw [parser, hrefuses.room_eq, hrefuses.later.limits_eq, hrefuses.rest_eq]
    rfl

theorem whole_eq (h : m.Ready) :
    ∃ m', whole m = .ok (m.parser.whole.1, m') ∧ m'.parser = m.parser.whole.2 ∧
      Serves m m.parser.whole.1 m' := by
  obtain ⟨m', hnext, hparser, hserves⟩ := nextExpr_eq h
  obtain ⟨token, tokens, hrest⟩ := (h.of_later hserves.later).exists_cons
  generalize hout : m.parser.nextExpr = out at hnext hparser hserves
  obtain ⟨e | expr, after⟩ := out
  · refine ⟨m', ?_, ?_⟩
    · rw [whole, bind_of_error hnext, Parser.whole, hout]
    · rw [Parser.whole, hout]
      exact ⟨hparser, hserves⟩
  · have hafter : after.rest = token :: tokens := (congrArg Parser.rest hparser).symm.trans hrest
    rw [whole, bind_of_ok hnext, bind_of_ok (current_eq hrest), Parser.whole, hout]
    dsimp only
    rw [hafter]
    dsimp only
    by_cases heof : token.kind = .eof
    · rw [if_pos heof, if_pos heof]
      exact ⟨m', rfl, hparser, hserves⟩
    · rw [if_neg heof, if_neg heof]
      exact ⟨m', rfl, hparser, hserves.later, by rintro _ ⟨⟩, by rintro _ ⟨⟩⟩

/-- **An answer** of a machine is the answer of the parser that it stands for, and it stands for
what this parser becomes. -/
theorem answer_eq (h : m.Ready) (request : Request) :
    ∃ m', answer request m = .ok ((request.reply m.parser).1, m') ∧
      m'.parser = (request.reply m.parser).2 ∧ Serves m (request.reply m.parser).1 m' := by
  cases request with
  | expression => exact nextExpr_eq h
  | whole => exact whole_eq h

/-! ## Many requests -/

/-- **The invariant** of a machine over a sequence of tokens. -/
structure Stands (limits : Limits) (tokens : List Token) (m : Machine) : Prop where
  /-- it works under these limits -/
  limits_eq : m.limits = limits
  /-- it has as many tokens as at the start -/
  size_eq : m.tokens.size = (ofTokens limits tokens).tokens.size
  /-- there is a token -/
  size_pos : 1 ≤ m.tokens.size
  /-- the last token ends the input -/
  last_eof : ∃ token, m.tokens.back? = some token ∧ token.kind = .eof
  /-- a token stands at the position -/
  position_lt : m.position < m.tokens.size

theorem Stands.ready (h : Stands limits tokens m) : m.Ready := by
  obtain ⟨token, hlast, heof⟩ := h.last_eof
  refine ⟨h.position_lt, fun token' htoken' => ?_⟩
  rw [hlast] at htoken'
  cases htoken'
  exact heof

/-- Closed tokens end with an end of the input. -/
theorem exists_getLast?_closeTokens (tokens : List Token) :
    ∃ token, (closeTokens tokens).getLast? = some token ∧ token.kind = .eof := by
  rw [closeTokens]
  split
  · exact ⟨_, rfl, rfl⟩
  · next last hlast =>
    split
    · next heof => exact ⟨last, hlast, heof⟩
    · exact ⟨_, List.getLast?_concat, rfl⟩

theorem stands_ofTokens (limits : Limits) (tokens : List Token) :
    Stands limits tokens (ofTokens limits tokens) := by
  obtain ⟨token, hlast, heof⟩ := exists_getLast?_closeTokens tokens
  have hback : (ofTokens limits tokens).tokens.back? = some token := by
    rw [ofTokens, List.back?_toArray, hlast]
  have hpos : 0 < (ofTokens limits tokens).tokens.size := by
    rw [ofTokens, List.size_toArray, List.length_pos_iff]
    rintro hnil
    rw [hnil] at hlast
    cases hlast
  exact ⟨rfl, rfl, hpos, ⟨token, hback, heof⟩, hpos⟩

/-- **One request** keeps the invariant. -/
theorem Stands.answer (h : Stands limits tokens m) (request : Request) :
    ∃ reply m', Machine.answer request m = .ok (reply, m') ∧ Stands limits tokens m' ∧
      Serves m reply m' := by
  obtain ⟨m', hanswer, -, hserves⟩ := answer_eq h.ready request
  have hlater := hserves.later
  refine ⟨_, m', hanswer, ?_, hserves⟩
  exact ⟨hlater.limits_eq.trans h.limits_eq, hlater.size_eq.trans h.size_eq,
    hlater.size_eq ▸ h.size_pos, hlater.back_eq ▸ h.last_eof, hlater.position_lt⟩

/-- **All requests** do, one after the other. -/
theorem Stands.answers (h : Stands limits tokens m) (requests : List Request) :
    ∃ replies m', Machine.answers requests m = .ok (replies, m') ∧ Stands limits tokens m' := by
  induction requests generalizing m with
  | nil => exact ⟨[], m, rfl, h⟩
  | cons request requests ih =>
    obtain ⟨reply, m₁, hanswer, h₁, -⟩ := h.answer request
    obtain ⟨replies, m₂, hanswers, h₂⟩ := ih h₁
    refine ⟨reply :: replies, m₂, ?_, h₂⟩
    rw [Machine.answers, hanswer, ok_bind]
    dsimp only
    rw [hanswers]
    rfl

/-- **A parser never leaves its invariant.** Over any tokens and under any limits, whatever it is
asked for and whatever came of that, it answers without a crash: the number of tokens stays, the
last one ends the input, and the position is one of a token. A request never goes back and never
gives a level back that it did not enter. With a result it moves on, and leaves the depth as it
found it. -/
theorem answers_stands (limits : Limits) (tokens : List Token) (requests : List Request)
    (request : Request) :
    ∃ replies m reply m',
      answers requests (ofTokens limits tokens) = .ok (replies, m) ∧ Stands limits tokens m ∧
      answer request m = .ok (reply, m') ∧ Stands limits tokens m' ∧ Serves m reply m' := by
  obtain ⟨replies, m, hanswers, hstands⟩ := (stands_ofTokens limits tokens).answers requests
  obtain ⟨reply, m', hanswer, hstands', hserves⟩ := hstands.answer request
  exact ⟨replies, m, reply, m', hanswers, hstands, hanswer, hstands', hserves⟩

-- Every refusal in `(a b)` takes a level, and the third is for want of one. In between `b` is read.
example : (answers [.whole, .expression, .expression, .expression]
      (ofTokens ⟨100, 2, 9⟩ [⟨.mark .leftParen, ⟨0, 1⟩⟩, ⟨.identifier "a", ⟨1, 2⟩⟩,
        ⟨.identifier "b", ⟨3, 4⟩⟩, ⟨.mark .rightParen, ⟨4, 5⟩⟩])).map Prod.fst =
    .ok [.error (.expected (.mark .rightParen) (.identifier "b") ⟨3, 4⟩), .ok (.identifier "b"),
      .error (.unexpectedToken (.mark .rightParen) ⟨4, 5⟩), .error (.tooDeep 2)] := by
  decide +kernel

end ScreenedExpr.Parser.Machine
