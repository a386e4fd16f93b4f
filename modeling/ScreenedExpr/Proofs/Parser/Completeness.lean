import ScreenedExpr.Proofs.Parser.Soundness

/-!
# Every phrase is read

A phrase in front of tokens that cannot continue it is read, with the tree it stands for.
The induction is on the derivation. A stratum that associates to the left derives its first
operands *inside*, while the parser reads them first and then goes round a loop; so for
these strata the induction does not say what is returned, but in which state of the loop the
parser is when it has read the phrase (`ReadsAs`).

* `Ends` — a phrase cannot go on with these tokens;
* `ReadsAs.dot_eq_built` and its like — the next node, whether it is within the limit or not;
* `complete` — every phrase is read;
* `ofTokens_of_derives`, `derives_of_ofTokens` — whole sequences of tokens, in both
  directions;
* `derives_unique` — no sequence stands for two trees.
-/

namespace ScreenedExpr.Parser

open Grammar

variable {limits : Limits} {room : Nat}

/-! ## Where phrases end -/

/-- No phrase of this stratum goes on with a token of this kind. -/
def Stops : Phrase → TokenKind → Prop
  | .primary, _ => True
  | .chain, kind | .operand, kind => kind ≠ .mark .dot ∧ kind ≠ .mark .leftBracket
  | .connected s, kind =>
    (kind ≠ .mark .dot ∧ kind ≠ .mark .leftBracket) ∧ ∀ t < s, connectiveAt t kind = none
  | .expression, kind =>
    ((kind ≠ .mark .dot ∧ kind ≠ .mark .leftBracket) ∧
      ∀ t < strengths, connectiveAt t kind = none) ∧ kind ≠ .mark .question

/-- No phrase of this stratum goes on with these tokens. -/
def Ends (phrase : Phrase) (tokens : List Token) : Prop :=
  ∀ token ∈ tokens.head?, Stops phrase token.kind

theorem ends_cons {phrase : Phrase} {kind : TokenKind} (h : Stops phrase kind) (span : Span)
    (tokens : List Token) : Ends phrase (⟨kind, span⟩ :: tokens) := by
  intro token htoken
  cases htoken
  exact h

/-- What ends a stratum ends the ones inside it. -/
theorem Ends.mono {phrase phrase' : Phrase} {tokens : List Token} (h : Ends phrase tokens)
    (hstops : ∀ kind, Stops phrase kind → Stops phrase' kind) : Ends phrase' tokens :=
  fun token htoken => hstops _ (h token htoken)

/-- A mark that is neither an operator nor a step nor `?` ends every phrase. -/
theorem stops_mark (mark : Mark) (hmark : connective? mark = none) (hdot : mark ≠ .dot)
    (hbracket : mark ≠ .leftBracket) (hquestion : mark ≠ .question) :
    Stops .expression (.mark mark) := by
  simp [Stops, connectiveAt, hmark, hdot, hbracket, hquestion]

/-- The end of the input ends every phrase. -/
theorem stops_eof : Stops .expression .eof := by
  simp [Stops, connectiveAt]

/-- A conditional is no operator. -/
theorem stops_question : Stops (.connected strengths) (.mark .question) := by
  simp [Stops, connectiveAt, connective?]

/-- An operator has one strength. -/
theorem stops_connective {s : Nat} {kind : TokenKind} {connective : Connective}
    (h : connectiveAt s kind = some connective) : Stops (.connected s) kind := by
  rw [connectiveAt.eq_def] at h
  split at h
  · next mark =>
    split at h
    · next found _ hfound =>
      split at h
      · next hs =>
        refine ⟨⟨?_, ?_⟩, fun t ht => ?_⟩
        · rintro ⟨⟩
          cases hfound
        · rintro ⟨⟩
          cases hfound
        · simp only [connectiveAt, hfound]
          rw [if_neg (by omega)]
      · cases h
    · cases h
  · cases h

/-! ## Steps that are not taken -/

theorem memberStep_eq_none {nested : List Token → Outcome} {object : Parsed}
    (h : Ends .operand object.rest) : memberStep limits room nested object = none := by
  rw [memberStep]
  split
  · next hrest => exact absurd rfl (h _ (by rw [hrest]; rfl)).1
  · next hrest => exact absurd rfl (h _ (by rw [hrest]; rfl)).2
  · rfl

theorem connectedStep_eq_none {s : Nat} {operand : List Token → Outcome} {left : Parsed}
    (h : Ends (.connected (s + 1)) left.rest) :
    connectedStep limits room s operand left = none := by
  rw [connectedStep]
  split
  · rfl
  · next hrest =>
    rw [(h _ (by rw [hrest]; rfl)).2 s (Nat.lt_succ_self s)]

/-! ## Steps take tokens -/

/-- What is left behind a reading that accounts for the tokens is no more than they were. -/
theorem Accounts.length_le {phrase : Phrase} {levels : Nat} {tokens : List Token}
    {parsed : Parsed} (h : Accounts limits phrase levels tokens parsed) :
    parsed.rest.length ≤ tokens.length := by
  obtain ⟨used, _, rfl, -⟩ := h
  simp

/-- It is less, since no phrase is empty. -/
theorem Accounts.length_lt {phrase : Phrase} {levels : Nat} {tokens : List Token}
    {parsed : Parsed} (h : Accounts limits phrase levels tokens parsed) :
    parsed.rest.length < tokens.length := by
  obtain ⟨used, _, rfl, hderives, -⟩ := h
  have hused : 0 < used.length := List.length_pos_iff.mpr (mt (by rintro rfl; rfl) hderives.ne_nil)
  rw [List.length_append]
  omega

theorem consumes_memberStep (limits : Limits) (room : Nat) :
    Consumes (memberStep limits room (expression limits room)) where
  none_of_nil left h := by simp [memberStep, h]
  length_lt left longer h := by
    obtain ⟨span, token, name, rest, hrest, -, -, rfl⟩ |
      ⟨span, span', tokens, key, rest, hrest, hkey, hclose, -, rfl⟩ := memberStep_eq_ok h
    · simp only [hrest, List.length_cons]
      omega
    · have hle := ((sound_expression limits room).1 _ _ hkey).length_le
      simp only [hrest, hclose, List.length_cons] at hle ⊢
      omega

theorem consumes_connectedStep (limits : Limits) (room s : Nat) :
    Consumes (connectedStep limits room s (connected limits room (operand limits room) s)) where
  none_of_nil left h := by simp [connectedStep, h]
  length_lt left longer h := by
    obtain ⟨token, rest, connective, right, hrest, -, hright, -, rfl⟩ := connectedStep_eq_ok h
    have hle := (sound_connected (sound_expression limits room).2 s _ _ hright).length_le
    simp only [hrest, List.length_cons]
    omega

/-! ## Reading phrases -/

/-- Where the parser is when it has read a phrase for the tree `e`, from `tokens` up to
`rest`: in the middle of the loop, if the stratum has one. -/
def ReadsAs (limits : Limits) (room : Nat) (e : Expr) (tokens rest : List Token) :
    Phrase → Prop
  | .primary =>
    primary limits room (expression limits room) tokens = .ok ⟨e, e.height, rest⟩
  | .chain =>
    member limits room (expression limits room) tokens =
      extend (memberStep limits room (expression limits room)) rest ⟨e, e.height, rest⟩
  | .operand => Ends .operand rest → operand limits room tokens = .ok ⟨e, e.height, rest⟩
  | .connected 0 =>
    Ends .operand rest →
      connected limits room (operand limits room) 0 tokens = .ok ⟨e, e.height, rest⟩
  | .connected (s + 1) =>
    Ends (.connected s) rest →
      connected limits room (operand limits room) (s + 1) tokens =
        extend (connectedStep limits room s (connected limits room (operand limits room) s))
          rest ⟨e, e.height, rest⟩
  | .expression =>
    Ends .expression rest →
      expression limits (room + 1) tokens = .ok ⟨e, e.height, rest⟩

namespace ReadsAs

variable {e object key left right test consequent alternate : Expr}
variable {tokens rest more : List Token}

/-- Connected operands are read when no operator of their strengths follows. -/
theorem connected_eq_ok {s : Nat} (h : ReadsAs limits room e tokens rest (.connected s))
    (hends : Ends (.connected s) rest) :
    connected limits room (operand limits room) s tokens = .ok ⟨e, e.height, rest⟩ := by
  cases s with
  | zero => exact h (hends.mono fun _ hstops => hstops.1)
  | succ s =>
    have hinner : Ends (.connected s) rest :=
      hends.mono fun _ hstops => ⟨hstops.1, fun t ht => hstops.2 t (by omega)⟩
    rw [h hinner, extend_of_none (connectedStep_eq_none hends)]

theorem parenthesized {span span' : Span}
    (h : ReadsAs limits room e tokens (⟨.mark .rightParen, span'⟩ :: rest) .expression) :
    ReadsAs limits (room + 1) e (⟨.mark .leftParen, span⟩ :: tokens) rest .primary := by
  have hinner := h (ends_cons (stops_mark .rightParen rfl nofun nofun nofun) _ _)
  rw [ReadsAs, primary, hinner, ok_bind, expect_cons]
  rfl

theorem ofPrimary (h : ReadsAs limits room e tokens rest .primary) :
    ReadsAs limits room e tokens rest .chain := by
  rw [ReadsAs] at h
  rw [ReadsAs, member, h, ok_bind]

/-- A member by name is the next node, and the loop goes on with it. -/
theorem dot_eq_built {span : Span} {token : Token} {name : String}
    (h : ReadsAs limits room object tokens (⟨.mark .dot, span⟩ :: token :: rest) .chain)
    (hname : PropertyName token.kind name) :
    member limits room (expression limits room) tokens =
      built limits room (.dot object name) (Expr.dot object name).height rest >>= fun longer =>
        extend (memberStep limits room (expression limits room)) longer.rest longer := by
  have hstep : memberStep limits room (expression limits room)
      ⟨object, object.height, ⟨.mark .dot, span⟩ :: token :: rest⟩ =
      some (built limits room (.dot object name) (Expr.dot object name).height rest) := by
    simp only [memberStep, propertyName_cons hname, ok_bind, Expr.height_dot]
  exact Eq.trans h ((consumes_memberStep limits room).extend_eq_bind hstep)

theorem dot {span : Span} {token : Token} {name : String}
    (h : ReadsAs limits room object tokens (⟨.mark .dot, span⟩ :: token :: rest) .chain)
    (hname : PropertyName token.kind name)
    (hheight : (Expr.dot object name).height ≤ limits.height) :
    ReadsAs limits room (.dot object name) tokens rest .chain := by
  rw [ReadsAs, h.dot_eq_built hname, built_of_le hheight, ok_bind]

/-- A member by computed key is the next node, and the loop goes on with it. -/
theorem index_eq_built {span span' : Span}
    (h : ReadsAs limits (room + 1) object tokens (⟨.mark .leftBracket, span⟩ :: more) .chain)
    (hkey : ReadsAs limits room key more (⟨.mark .rightBracket, span'⟩ :: rest) .expression) :
    member limits (room + 1) (expression limits (room + 1)) tokens =
      built limits (room + 1) (.member object key true) (Expr.member object key true).height
        rest >>= fun longer =>
          extend (memberStep limits (room + 1) (expression limits (room + 1)))
            longer.rest longer := by
  have hkey := hkey (ends_cons (stops_mark .rightBracket rfl nofun nofun nofun) _ _)
  have hstep : memberStep limits (room + 1) (expression limits (room + 1))
      ⟨object, object.height, ⟨.mark .leftBracket, span⟩ :: more⟩ =
      some (built limits (room + 1) (.member object key true)
        (Expr.member object key true).height rest) := by
    simp only [memberStep, hkey, ok_bind, expect_cons, Expr.height]
  exact Eq.trans h ((consumes_memberStep limits (room + 1)).extend_eq_bind hstep)

theorem index {span span' : Span}
    (h : ReadsAs limits (room + 1) object tokens (⟨.mark .leftBracket, span⟩ :: more) .chain)
    (hkey : ReadsAs limits room key more (⟨.mark .rightBracket, span'⟩ :: rest) .expression)
    (hheight : (Expr.member object key true).height ≤ limits.height) :
    ReadsAs limits (room + 1) (.member object key true) tokens rest .chain := by
  rw [ReadsAs, h.index_eq_built hkey, built_of_le hheight, ok_bind]

/-- An operand without an operator in front is a chain. -/
theorem ofChain {token : Token} (h : ReadsAs limits room e (token :: tokens) rest .chain)
    (hbang : token.kind ≠ .mark .bang) (hminus : token.kind ≠ .mark .minus) :
    ReadsAs limits room e (token :: tokens) rest .operand := by
  intro hends
  have hchain : operand limits room (token :: tokens) =
      member limits room (expression limits room) (token :: tokens) := by
    cases room with
    | zero =>
      rw [operand, prefixed]
      · rfl
      · rintro span rest ⟨⟩
        exact hbang rfl
      · rintro span rest ⟨⟩
        exact hminus rfl
    | succ room =>
      rw [operand_succ, prefixed]
      · rintro span rest ⟨⟩
        exact hbang rfl
      · rintro span rest ⟨⟩
        exact hminus rfl
  rw [ReadsAs] at h
  rw [hchain, h, extend_of_none (memberStep_eq_none hends)]

/-- An operand behind `!` is the next node. -/
theorem not_eq_built {span : Span} (h : ReadsAs limits room e tokens rest .operand)
    (hends : Ends .operand rest) :
    operand limits (room + 1) (⟨.mark .bang, span⟩ :: tokens) =
      built limits (room + 1) (.unary .not e) (Expr.unary .not e).height rest := by
  rw [operand_succ, prefixed, h hends, ok_bind]
  rfl

theorem not {span : Span} (h : ReadsAs limits room e tokens rest .operand)
    (hheight : (Expr.unary .not e).height ≤ limits.height) :
    ReadsAs limits (room + 1) (.unary .not e) (⟨.mark .bang, span⟩ :: tokens) rest
      .operand := by
  intro hends
  rw [h.not_eq_built hends, built_of_le hheight]

/-- An operand behind `-` is the next node. -/
theorem negate_eq_built {span : Span} (h : ReadsAs limits room e tokens rest .operand)
    (hends : Ends .operand rest) :
    operand limits (room + 1) (⟨.mark .minus, span⟩ :: tokens) =
      built limits (room + 1) (.unary .negate e) (Expr.unary .negate e).height rest := by
  rw [operand_succ, prefixed, h hends, ok_bind]
  rfl

theorem negate {span : Span} (h : ReadsAs limits room e tokens rest .operand)
    (hheight : (Expr.unary .negate e).height ≤ limits.height) :
    ReadsAs limits (room + 1) (.unary .negate e) (⟨.mark .minus, span⟩ :: tokens) rest
      .operand := by
  intro hends
  rw [h.negate_eq_built hends, built_of_le hheight]

theorem weaken {s : Nat} (h : ReadsAs limits room e tokens rest (.connected s)) :
    ReadsAs limits room e tokens rest (.connected (s + 1)) := by
  intro hends
  rw [connected, h.connected_eq_ok hends, ok_bind]

/-- An operator between operands is the next node, and the loop goes on with it. -/
theorem connect_eq_built {s : Nat} {kind : TokenKind} {span : Span} {connective : Connective}
    (h : ReadsAs limits room left tokens (⟨kind, span⟩ :: more) (.connected (s + 1)))
    (hconnective : connectiveAt s kind = some connective)
    (hright : ReadsAs limits room right more rest (.connected s))
    (hends : Ends (.connected s) rest) :
    connected limits room (operand limits room) (s + 1) tokens =
      built limits room (connective.node left right) (connective.node left right).height
        rest >>= fun longer =>
          extend (connectedStep limits room s (connected limits room (operand limits room) s))
            longer.rest longer := by
  have hleft := h (ends_cons (stops_connective hconnective) _ _)
  have hstep : connectedStep limits room s (connected limits room (operand limits room) s)
      ⟨left, left.height, ⟨kind, span⟩ :: more⟩ =
      some (built limits room (connective.node left right)
        (connective.node left right).height rest) := by
    simp only [connectedStep, hconnective, hright.connected_eq_ok hends, ok_bind,
      connective.height_node]
  exact hleft.trans ((consumes_connectedStep limits room s).extend_eq_bind hstep)

theorem connect {s : Nat} {kind : TokenKind} {span : Span} {connective : Connective}
    (h : ReadsAs limits room left tokens (⟨kind, span⟩ :: more) (.connected (s + 1)))
    (hconnective : connectiveAt s kind = some connective)
    (hright : ReadsAs limits room right more rest (.connected s))
    (hheight : (connective.node left right).height ≤ limits.height) :
    ReadsAs limits room (connective.node left right) tokens rest (.connected (s + 1)) := by
  intro hends
  rw [h.connect_eq_built hconnective hright hends, built_of_le hheight, ok_bind]

theorem ofConnected (h : ReadsAs limits room e tokens rest (.connected strengths)) :
    ReadsAs limits room e tokens rest .expression := by
  intro hends
  rw [expression_succ, conditional, h.connected_eq_ok (hends.mono fun _ h => h.1), ok_bind]
  dsimp only
  split
  · exact absurd rfl (hends _ rfl).2
  · rfl

/-- A conditional is the next node. -/
theorem conditional_eq_built {span span' : Span} {elseTokens : List Token}
    (h : ReadsAs limits (room + 1) test tokens (⟨.mark .question, span⟩ :: more)
      (.connected strengths))
    (hthen : ReadsAs limits room consequent more (⟨.mark .colon, span'⟩ :: elseTokens)
      .expression)
    (helse : ReadsAs limits room alternate elseTokens rest .expression)
    (hends : Ends .expression rest) :
    expression limits (room + 2) tokens =
      built limits (room + 1) (.conditional test consequent alternate)
        (Expr.conditional test consequent alternate).height rest := by
  have htest := h.connected_eq_ok (ends_cons stops_question _ _)
  have hthen := hthen (ends_cons (stops_mark .colon rfl nofun nofun nofun) _ _)
  rw [expression_succ, Parser.conditional, htest, ok_bind]
  simp only [hthen, ok_bind, expect_cons, helse hends, Expr.height]

theorem conditional {span span' : Span} {elseTokens : List Token}
    (h : ReadsAs limits (room + 1) test tokens (⟨.mark .question, span⟩ :: more)
      (.connected strengths))
    (hthen : ReadsAs limits room consequent more (⟨.mark .colon, span'⟩ :: elseTokens)
      .expression)
    (helse : ReadsAs limits room alternate elseTokens rest .expression)
    (hheight : (Expr.conditional test consequent alternate).height ≤ limits.height) :
    ReadsAs limits (room + 1) (.conditional test consequent alternate) tokens rest
      .expression := by
  intro hends
  rw [h.conditional_eq_built hthen helse hends, built_of_le hheight]

end ReadsAs

/-! ## Tokens of given kinds -/

/-- Tokens of a first kind and others are a token of that kind and others. -/
theorem map_kind_eq_cons {used : List Token} {kind : TokenKind} {kinds : List TokenKind}
    (h : used.map Token.kind = kind :: kinds) :
    ∃ span more, used = ⟨kind, span⟩ :: more ∧ more.map Token.kind = kinds := by
  obtain ⟨⟨_, span⟩, more, rfl, rfl, hmore⟩ := List.map_eq_cons_iff.mp h
  exact ⟨span, more, rfl, hmore⟩

/-- Tokens of some kinds, a certain one and others are such tokens with a token of that kind in
between. -/
theorem map_kind_eq_append_cons {used : List Token} {kind : TokenKind}
    {kinds kinds' : List TokenKind} (h : used.map Token.kind = kinds ++ kind :: kinds') :
    ∃ inside span more, used = inside ++ ⟨kind, span⟩ :: more ∧ inside.map Token.kind = kinds ∧
      more.map Token.kind = kinds' := by
  obtain ⟨inside, _, rfl, hinside, hbehind⟩ := List.map_eq_append_iff.mp h
  obtain ⟨span, more, rfl, hmore⟩ := map_kind_eq_cons hbehind
  exact ⟨inside, span, more, rfl, hinside, hmore⟩

/-- Tokens of some kinds and a last one are tokens of those kinds and a last one. -/
theorem map_kind_eq_concat {used : List Token} {kind : TokenKind} {kinds : List TokenKind}
    (h : used.map Token.kind = kinds ++ [kind]) :
    ∃ inside span, used = inside ++ [⟨kind, span⟩] ∧ inside.map Token.kind = kinds := by
  obtain ⟨inside, span, more, rfl, hinside, hmore⟩ := map_kind_eq_append_cons h
  rw [List.map_eq_nil_iff.mp hmore]
  exact ⟨inside, span, rfl, hinside⟩

/-! ## Completeness -/

/-- A chain starts with neither `!` nor `-`. -/
theorem chain_head {phrase : Phrase} {n : Nat} {kinds : List TokenKind} {e : Expr}
    (h : Derives phrase n kinds e) (hphrase : phrase = .primary ∨ phrase = .chain) :
    ∃ kind rest, kinds = kind :: rest ∧ kind ≠ .mark .bang ∧ kind ≠ .mark .minus := by
  induction h with
  | literal | identifier | parenthesized => exact ⟨_, _, rfl, by simp, by simp⟩
  | ofPrimary _ ih => exact ih (.inl rfl)
  | dot _ _ ih | index _ _ ih _ =>
    obtain ⟨kind, rest, rfl, hbang, hminus⟩ := ih (.inr rfl)
    exact ⟨kind, _, rfl, hbang, hminus⟩
  | _ => simp at hphrase

/-- **Completeness.** With room for its nesting and within the limit on its height, every
phrase is read. -/
theorem complete {phrase : Phrase} {n : Nat} {kinds : List TokenKind} {e : Expr}
    (h : Derives phrase n kinds e) (room : Nat) (used rest : List Token) (hroom : n ≤ room)
    (hheight : e.height ≤ limits.height) (hused : used.map Token.kind = kinds) :
    ReadsAs limits room e (used ++ rest) rest phrase := by
  induction h generalizing room used rest with
  | literal value =>
    obtain ⟨⟨_, span⟩, rfl, rfl⟩ := List.map_eq_singleton_iff.mp hused
    exact built_of_le hheight rest
  | identifier name =>
    obtain ⟨⟨_, span⟩, rfl, rfl⟩ := List.map_eq_singleton_iff.mp hused
    exact built_of_le hheight rest
  | parenthesized inner ih =>
    obtain ⟨span, _, rfl, hmore⟩ := map_kind_eq_cons hused
    obtain ⟨inside, span', rfl, hinside⟩ := map_kind_eq_concat hmore
    obtain ⟨room, rfl⟩ : ∃ r, room = r + 1 := ⟨room - 1, by omega⟩
    rw [List.cons_append, List.append_assoc]
    exact (ih room inside _ (by omega) hheight hinside).parenthesized
  | ofPrimary inner ih => exact (ih room used rest hroom hheight hused).ofPrimary
  | dot inner hname ih =>
    obtain ⟨inside, span, _, rfl, hinside, hlast⟩ := map_kind_eq_append_cons hused
    obtain ⟨token, rfl, rfl⟩ := List.map_eq_singleton_iff.mp hlast
    have hobject := hheight
    rw [Expr.height_dot] at hobject
    rw [List.append_assoc]
    exact (ih room inside _ hroom (by omega) hinside).dot hname hheight
  | index inner nested ih ihKey =>
    obtain ⟨inside, span, _, rfl, hinside, hlast⟩ := map_kind_eq_append_cons hused
    obtain ⟨keyUsed, span', rfl, hkeyUsed⟩ := map_kind_eq_concat hlast
    obtain ⟨room, rfl⟩ : ∃ r, room = r + 1 := ⟨room - 1, by omega⟩
    have hparts := hheight
    simp only [Expr.height] at hparts
    rw [List.append_assoc, List.cons_append, List.append_assoc]
    exact (ih (room + 1) inside _ (by omega) (by omega) hinside).index
      (ihKey room keyUsed _ (by omega) (by omega) hkeyUsed) hheight
  | ofChain inner ih =>
    have hchain := ih room used rest hroom hheight hused
    obtain ⟨_, _, rfl, hbang, hminus⟩ := chain_head inner (.inr rfl)
    obtain ⟨span, more, rfl, -⟩ := map_kind_eq_cons hused
    exact hchain.ofChain hbang hminus
  | not inner ih =>
    obtain ⟨span, more, rfl, hmore⟩ := map_kind_eq_cons hused
    obtain ⟨room, rfl⟩ : ∃ r, room = r + 1 := ⟨room - 1, by omega⟩
    have hoperand := hheight
    simp only [Expr.height] at hoperand
    exact (ih room more rest (by omega) (by omega) hmore).not hheight
  | negate inner ih =>
    obtain ⟨span, more, rfl, hmore⟩ := map_kind_eq_cons hused
    obtain ⟨room, rfl⟩ : ∃ r, room = r + 1 := ⟨room - 1, by omega⟩
    have hoperand := hheight
    simp only [Expr.height] at hoperand
    exact (ih room more rest (by omega) (by omega) hmore).negate hheight
  | ofOperand inner ih => exact ih room used rest hroom hheight hused
  | weaken inner ih => exact (ih room used rest hroom hheight hused).weaken
  | @connect _ _ _ _ _ _ _ connective mark first hop hmark second ih ihRight =>
    obtain ⟨inside, span, rightUsed, rfl, hinside, hrightUsed⟩ := map_kind_eq_append_cons hused
    have hparts := hheight
    rw [connective.height_node] at hparts
    rw [List.append_assoc]
    exact (ih room inside _ (by omega) (by omega) hinside).connect
      (connectiveAt_eq_some_iff.mpr ⟨hop, mark, rfl, hmark⟩)
      (ihRight room rightUsed rest (by omega) (by omega) hrightUsed) hheight
  | ofConnected inner ih => exact (ih room used rest hroom hheight hused).ofConnected
  | conditional first second third ih ihThen ihElse =>
    obtain ⟨inside, span, _, rfl, hinside, hbranches⟩ := map_kind_eq_append_cons hused
    obtain ⟨thenUsed, span', elseUsed, rfl, hthenUsed, helseUsed⟩ :=
      map_kind_eq_append_cons hbranches
    obtain ⟨room, rfl⟩ : ∃ r, room = r + 1 := ⟨room - 1, by omega⟩
    have hparts := hheight
    simp only [Expr.height] at hparts
    rw [List.append_assoc, List.cons_append, List.append_assoc]
    exact (ih (room + 1) inside _ (by omega) (by omega) hinside).conditional
      (ihThen room thenUsed _ (by omega) (by omega) hthenUsed)
      (ihElse room elseUsed rest (by omega) (by omega) helseUsed) hheight

/-! ## Whole sequences -/

section whole

variable {body : List Token} {stop : Token} {e : Expr}

/-- A sequence that ends with an end of input is closed already. -/
theorem closeTokens_concat (hstop : stop.kind = .eof) :
    closeTokens (body ++ [stop]) = body ++ [stop] := by
  simp [closeTokens, hstop]

/-- Before its first end of input, a sequence of tokens has one beginning only. -/
theorem eq_of_append_eof {used more : List Token} {token : Token}
    (hbody : ∀ t ∈ body, t.kind ≠ .eof) (hstop : stop.kind = .eof)
    (hused : ∀ t ∈ used, t.kind ≠ .eof) (htoken : token.kind = .eof)
    (h : body ++ [stop] = used ++ token :: more) : body = used := by
  have hleft : (body ++ [stop]).takeWhile (fun t => t.kind ≠ .eof) = body := by
    rw [List.takeWhile_append_of_pos (by simpa using hbody)]
    simp [hstop]
  have hright : (used ++ token :: more).takeWhile (fun t => t.kind ≠ .eof) = used := by
    rw [List.takeWhile_append_of_pos (by simpa using hused)]
    simp [htoken]
  rw [← hleft, h, hright]

/-- **What a sequence of tokens is read as, it derives**, within the limits. -/
theorem derives_of_ofTokens {limits : Limits} (hbody : ∀ t ∈ body, t.kind ≠ .eof)
    (hstop : stop.kind = .eof) (h : Expr.ofTokens limits (body ++ [stop]) = .ok e) :
    ∃ n, Derives .expression n (body.map Token.kind) e ∧ 1 + n ≤ limits.depth ∧
      e.height ≤ limits.height := by
  simp only [Expr.ofTokens, whole, nextExpr, ofTokens, closeTokens_concat hstop] at h
  cases hread : expression limits limits.depth (body ++ [stop]) with
  | error => simp [hread] at h
  | ok parsed =>
    obtain ⟨used, n, hused, hderives, hn, hheight, hlimit⟩ :=
      (sound_expression limits limits.depth).1 _ _ hread
    have hinside : ∀ t ∈ used, t.kind ≠ .eof := fun t ht =>
      hderives.kind_ne_eof _ (List.mem_map_of_mem ht)
    simp only [hread] at h
    split at h
    · next hrest =>
      -- everything was taken, the end of the input as well
      have hmem : stop ∈ used := by
        rw [hrest, List.append_nil] at hused
        simp [← hused]
      exact absurd hstop (hinside stop hmem)
    · next token more hrest =>
      split at h
      · next htoken =>
        rw [hrest] at hused
        obtain rfl := eq_of_append_eof hbody hstop hinside htoken hused
        cases h
        exact ⟨n, hderives, by omega, by omega⟩
      · cases h

/-- **What a sequence of tokens derives, it is read as**, within the limits. -/
theorem ofTokens_of_derives {limits : Limits} (hstop : stop.kind = .eof) {n : Nat}
    (h : Derives .expression n (body.map Token.kind) e) (hdepth : 1 + n ≤ limits.depth)
    (hheight : e.height ≤ limits.height) :
    Expr.ofTokens limits (body ++ [stop]) = .ok e := by
  obtain ⟨room, hroom⟩ : ∃ room, limits.depth = room + 1 := ⟨limits.depth - 1, by omega⟩
  have hends : Ends .expression [stop] := by
    intro token htoken
    cases htoken
    rw [hstop]
    exact stops_eof
  have hread := complete h room body [stop] (by omega) hheight rfl hends
  simp [Expr.ofTokens, whole, nextExpr, ofTokens, closeTokens_concat hstop, hroom, hread, hstop]

end whole

/-- **The grammar is unambiguous.** -/
theorem derives_unique {n m : Nat} {kinds : List TokenKind} {e e' : Expr}
    (h : Derives .expression n kinds e) (h' : Derives .expression m kinds e') : e = e' := by
  let limits : Limits := ⟨0, 1 + max n m, max e.height e'.height⟩
  let body : List Token := kinds.map fun kind => ⟨kind, ⟨0, 0⟩⟩
  have hkinds : body.map Token.kind = kinds := by
    simp [body, Function.comp_def]
  have hread : Expr.ofTokens limits (body ++ [⟨.eof, ⟨0, 0⟩⟩]) = .ok e :=
    ofTokens_of_derives rfl (hkinds.symm ▸ h) (Nat.add_le_add_left (Nat.le_max_left n m) 1)
      (Nat.le_max_left _ _)
  have hread' : Expr.ofTokens limits (body ++ [⟨.eof, ⟨0, 0⟩⟩]) = .ok e' :=
    ofTokens_of_derives rfl (hkinds.symm ▸ h') (Nat.add_le_add_left (Nat.le_max_right n m) 1)
      (Nat.le_max_right _ _)
  exact Except.ok.inj (hread.symm.trans hread')

/-- **The parser decides the grammar.** A sequence of tokens whose only end of input is its
last token is read as a tree exactly if the tokens before derive it, no point of the
derivation is nested deeper than allowed, and the tree is no higher than allowed. There is
at most one such tree, whatever the limits. -/
theorem ofTokens_eq_ok_iff (limits : Limits) (body : List Token) (stop : Token)
    (hbody : ∀ t ∈ body, t.kind ≠ .eof) (hstop : stop.kind = .eof) (e : Expr) :
    (Expr.ofTokens limits (body ++ [stop]) = .ok e ↔
      ∃ n, Derives .expression n (body.map Token.kind) e ∧ 1 + n ≤ limits.depth ∧
        e.height ≤ limits.height) ∧
      ∀ n m e', Derives .expression n (body.map Token.kind) e →
        Derives .expression m (body.map Token.kind) e' → e = e' := by
  refine ⟨⟨derives_of_ofTokens hbody hstop, ?_⟩, fun _ _ _ => derives_unique⟩
  rintro ⟨n, h, hdepth, hheight⟩
  exact ofTokens_of_derives hstop h hdepth hheight

/-- The tokens of `!a.null ? (b) : c`. -/
def branches : List Token :=
  [⟨.mark .bang, ⟨0, 1⟩⟩, ⟨.identifier "a", ⟨1, 2⟩⟩, ⟨.mark .dot, ⟨2, 3⟩⟩,
   ⟨.literal .null, ⟨3, 7⟩⟩, ⟨.mark .question, ⟨8, 9⟩⟩, ⟨.mark .leftParen, ⟨10, 11⟩⟩,
   ⟨.identifier "b", ⟨11, 12⟩⟩, ⟨.mark .rightParen, ⟨12, 13⟩⟩, ⟨.mark .colon, ⟨14, 15⟩⟩,
   ⟨.identifier "c", ⟨16, 17⟩⟩]

/-- Parentheses inside a branch need a depth of three, and a member behind `!` in a test a
height of four. -/
theorem ofTokens_branches :
    let tree : Expr := .conditional (.unary .not (.dot (.identifier "a") "null"))
      (.identifier "b") (.identifier "c")
    (∀ t ∈ branches, t.kind ≠ .eof) ∧
      Expr.ofTokens ⟨17, 3, 4⟩ (branches ++ [⟨.eof, ⟨17, 17⟩⟩]) = .ok tree ∧
      ∃ n, Derives .expression n (branches.map Token.kind) tree ∧ 1 + n ≤ 3 ∧
        tree.height ≤ 4 :=
  ⟨by decide, by decide +kernel,
    (ofTokens_eq_ok_iff ⟨17, 3, 4⟩ branches ⟨.eof, ⟨17, 17⟩⟩ (by decide) rfl _).1.mp
      (by decide +kernel)⟩

end ScreenedExpr.Parser
