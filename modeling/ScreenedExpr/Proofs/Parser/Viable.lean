import ScreenedExpr.Proofs.Parser.Lockstep

/-!
# Errors at the earliest token

A sequence of tokens is **viable** if more tokens make it an expression. The parser has the
viable-prefix property: when it stops at a token, the tokens in front of it are viable, and
with it they no longer are. So no error is reported later than it could be, nor earlier.

That the tokens in front are viable is shown part by part, like soundness: whatever a
reading has taken when it fails **begins** a phrase of its stratum, and each construct that
it is nested in is completed around that. That the token at fault spoils them follows from
completeness, since the parser cannot know what comes behind that token: had they a
continuation, it would be read, and the two readings are in lockstep up to the token.

* `Grammar.Begins` — what can be completed to a phrase;
* `Prompt` — a reading that fails takes no token too many;
* `prompt_expression` — expressions and operands, in any room;
* `ofTokens_error_earliest` — whole sequences of tokens.
-/

namespace ScreenedExpr

/-- The token that an error is about. -/
def SyntaxError.token? : SyntaxError → Option Token
  | expected _ found span | unexpectedToken found span | trailingInput found span =>
    some ⟨found, span⟩
  | unexpectedEnd | tooDeep _ | tooTall _ => none

namespace Grammar

open ScreenedExpr.Parser

/-- The kinds are an expression. -/
def Complete (kinds : List TokenKind) : Prop := ∃ n e, Derives .expression n kinds e

/-- More kinds make the kinds an expression. -/
def Viable (kinds : List TokenKind) : Prop := ∃ more, Complete (kinds ++ more)

/-- More kinds make the kinds a phrase of that stratum. -/
def Begins (phrase : Phrase) (kinds : List TokenKind) : Prop :=
  ∃ more n e, Derives phrase n (kinds ++ more) e

/-- The first part of what is viable is viable. -/
theorem Viable.of_append {kinds more : List TokenKind} (h : Viable (kinds ++ more)) :
    Viable kinds := by
  obtain ⟨last, h⟩ := h
  exact ⟨more ++ last, by rwa [← List.append_assoc]⟩

/-- No end of input can be made up for. -/
theorem Viable.kind_ne_eof {kinds : List TokenKind} (h : Viable kinds) :
    ∀ kind ∈ kinds, kind ≠ .eof := by
  obtain ⟨more, n, e, hderives⟩ := h
  intro kind hkind
  exact hderives.kind_ne_eof kind (List.mem_append_left more hkind)

theorem Derives.begins {phrase : Phrase} {n : Nat} {kinds : List TokenKind} {e : Expr}
    (h : Derives phrase n kinds e) : Begins phrase kinds :=
  ⟨[], n, e, by rwa [List.append_nil]⟩

namespace Begins

variable {phrase phrase' : Phrase} {kinds thenKinds : List TokenKind}

theorem viable (h : Begins .expression kinds) : Viable kinds := h

/-- A name is a primary. -/
theorem primary_nil : Begins .primary [] := ⟨[.identifier "x"], 0, _, .identifier "x"⟩

theorem mono (h : Begins phrase kinds)
    (hwider : ∀ {n kinds e}, Derives phrase n kinds e → Derives phrase' n kinds e) :
    Begins phrase' kinds := by
  obtain ⟨more, n, e, h⟩ := h
  exact ⟨more, n, e, hwider h⟩

/-- The parenthesis can be closed. -/
theorem parenthesized (h : Begins .expression kinds) :
    Begins .primary (.mark .leftParen :: kinds) := by
  obtain ⟨more, n, e, h⟩ := h
  exact ⟨more ++ [.mark .rightParen], _, e, by simpa using h.parenthesized⟩

/-- The name can be given. -/
theorem dot {n : Nat} {object : Expr} (h : Derives .chain n kinds object) :
    Begins .chain (kinds ++ [.mark .dot]) :=
  ⟨[.identifier "x"], _, _, by simpa using h.dot (.identifier "x")⟩

/-- The bracket can be closed. -/
theorem index {n : Nat} {object : Expr} {keyKinds : List TokenKind}
    (h : Derives .chain n kinds object) (hkey : Begins .expression keyKinds) :
    Begins .chain (kinds ++ .mark .leftBracket :: keyKinds) := by
  obtain ⟨more, m, key, hkey⟩ := hkey
  exact ⟨more ++ [.mark .rightBracket], _, _, by simpa using h.index hkey⟩

theorem not (h : Begins .operand kinds) : Begins .operand (.mark .bang :: kinds) := by
  obtain ⟨more, n, e, h⟩ := h
  exact ⟨more, _, _, h.not⟩

theorem negate (h : Begins .operand kinds) : Begins .operand (.mark .minus :: kinds) := by
  obtain ⟨more, n, e, h⟩ := h
  exact ⟨more, _, _, h.negate⟩

theorem connect {s n : Nat} {left : Expr} {connective : Connective} {kind : TokenKind}
    {rightKinds : List TokenKind} (h : Derives (.connected (s + 1)) n kinds left)
    (hconnective : connectiveAt s kind = some connective)
    (hright : Begins (.connected s) rightKinds) :
    Begins (.connected (s + 1)) (kinds ++ kind :: rightKinds) := by
  obtain ⟨more, m, right, hright⟩ := hright
  obtain ⟨hop, mark, rfl, hmark⟩ := connectiveAt_eq_some_iff.mp hconnective
  exact ⟨more, _, _, by simpa using h.connect hop hmark hright⟩

/-- The other branch can be given. -/
theorem consequent {n : Nat} {test : Expr} (h : Derives (.connected strengths) n kinds test)
    (hthen : Begins .expression thenKinds) :
    Begins .expression (kinds ++ .mark .question :: thenKinds) := by
  obtain ⟨more, m, e, hthen⟩ := hthen
  have helse : Derives .expression 0 [.identifier "x"] (.identifier "x") :=
    (Derives.ofPrimary (.identifier "x")).expression_of_chain
  exact ⟨more ++ [.mark .colon, .identifier "x"], _, _, by simpa using h.conditional hthen helse⟩

theorem alternate {n m : Nat} {test consequent : Expr} {elseKinds : List TokenKind}
    (h : Derives (.connected strengths) n kinds test)
    (hthen : Derives .expression m thenKinds consequent) (helse : Begins .expression elseKinds) :
    Begins .expression (kinds ++ .mark .question :: (thenKinds ++ .mark .colon :: elseKinds)) := by
  obtain ⟨more, p, e, helse⟩ := helse
  exact ⟨more, _, _, by simpa using h.conditional hthen helse⟩

end Begins

end Grammar

namespace Parser

open Grammar

/-! ## Failures -/

/-- The error is about the first of the tokens left, if it is not the end of the input. -/
def Failure.AtFirst (failure : Failure) : Prop :=
  ∃ error, (∀ kind span, SyntaxError.token? (error kind span) = some ⟨kind, span⟩) ∧
    failure.error = errorAt error failure.rest

/-- The tokens taken before a failure begin a phrase, and the error is about the next one. -/
def Stuck (phrase : Phrase) (tokens : List Token) (failure : Failure) : Prop :=
  ∃ used, tokens = used ++ failure.rest ∧ Begins phrase (used.map Token.kind) ∧ failure.AtFirst

/-- Unless it meets a limit, the reading takes no token too many before it fails. -/
def Prompt (phrase : Phrase) (read : List Token → Outcome) : Prop :=
  ∀ tokens failure, read tokens = .error failure → failure.error.isLimit = false →
    Stuck phrase tokens failure

variable {limits : Limits} {room levels : Nat} {phrase phrase' : Phrase}
variable {tokens used : List Token} {failure : Failure}

/-- A node is completed unless it is too high. -/
theorem isLimit_of_built {e : Expr} {height : Nat} {rest : List Token}
    (h : built limits room e height rest = .error failure) : failure.error.isLimit = true := by
  rw [built] at h
  split at h
  · cases h; rfl
  · cases h

namespace Stuck

theorem mono (h : Stuck phrase tokens failure)
    (hwider : ∀ {n kinds e}, Derives phrase n kinds e → Derives phrase' n kinds e) :
    Stuck phrase' tokens failure := by
  obtain ⟨used, htokens, hbegins, hfirst⟩ := h
  exact ⟨used, htokens, hbegins.mono hwider, hfirst⟩

/-- What fails behind tokens that the phrase goes with, fails in a longer phrase. -/
theorem behind (h : Stuck phrase tokens failure) (used : List Token)
    (hbegins : ∀ kinds, Begins phrase kinds → Begins phrase' (used.map Token.kind ++ kinds)) :
    Stuck phrase' (used ++ tokens) failure := by
  obtain ⟨more, rfl, hmore, hfirst⟩ := h
  exact ⟨used ++ more, by rw [List.append_assoc], by simpa using hbegins _ hmore, hfirst⟩

/-- A mark is missing. -/
theorem of_expect {mark : Mark} (h : expect room mark tokens = .error failure)
    (hbegins : Begins phrase (used.map Token.kind)) : Stuck phrase (used ++ tokens) failure := by
  obtain rfl := expect_eq_error h
  exact ⟨used, rfl, hbegins, _, fun _ _ => rfl, rfl⟩

/-- A name is missing. -/
theorem of_propertyName (h : propertyName room tokens = .error failure)
    (hbegins : Begins phrase (used.map Token.kind)) : Stuck phrase (used ++ tokens) failure := by
  obtain rfl := propertyName_eq_error h
  exact ⟨used, rfl, hbegins, _, fun _ _ => rfl, rfl⟩

end Stuck

/-! ## Parts of expressions -/

variable {nested : List Token → Outcome}

theorem prompt_primary (hsound : Sound limits .expression levels nested)
    (hnested : Prompt .expression nested) : Prompt .primary (primary limits room nested) := by
  intro tokens failure h hlimit
  rw [primary.eq_def] at h
  split at h
  · cases hlimit.symm.trans (isLimit_of_built h)
  · cases hlimit.symm.trans (isLimit_of_built h)
  · next span rest =>
    obtain hinner | ⟨inner, hinner, hmore⟩ := bind_eq_error h
    · exact (hnested _ _ hinner hlimit).behind [⟨.mark .leftParen, span⟩] fun _ => .parenthesized
    obtain hclose | ⟨_, -, hdone⟩ := bind_eq_error hmore
    · obtain ⟨used, n, rfl, hderives, -⟩ := hsound _ _ hinner
      have hbegins : Begins .primary ((⟨.mark .leftParen, span⟩ :: used).map Token.kind) :=
        hderives.begins.parenthesized
      exact .of_expect hclose hbegins
    · cases hdone
  · cases h
    exact ⟨[], rfl, .primary_nil, .unexpectedToken, fun _ _ => rfl, rfl⟩

/-- A member step fails where the chain so far, with the step, can be completed. -/
theorem stuck_memberStep (hsound : Sound limits .expression levels nested)
    (hnested : Prompt .expression nested) {left : Parsed}
    (hleft : Accounts limits .chain (room + 1) tokens left)
    (h : memberStep limits room nested left = some (.error failure))
    (hlimit : failure.error.isLimit = false) : Stuck .chain tokens failure := by
  obtain ⟨used, n, rfl, hderives, -⟩ := hleft
  rw [memberStep] at h
  split at h
  · next span rest hrest =>
    rw [hrest]
    obtain hname | ⟨⟨name, after⟩, -, hbuilt⟩ := bind_eq_error (Option.some.inj h)
    · have hbegins : Begins .chain (List.map Token.kind (used ++ [⟨.mark .dot, span⟩])) := by
        simpa using Begins.dot hderives
      simpa using Stuck.of_propertyName hname hbegins
    · cases hlimit.symm.trans (isLimit_of_built hbuilt)
  · next span rest hrest =>
    rw [hrest]
    obtain hkey | ⟨key, hkey, hmore⟩ := bind_eq_error (Option.some.inj h)
    · have hstuck := (hnested _ _ hkey hlimit).behind (used ++ [⟨.mark .leftBracket, span⟩])
        fun kinds hkinds => by simpa using Begins.index hderives hkinds
      simpa using hstuck
    obtain hclose | ⟨after, -, hbuilt⟩ := bind_eq_error hmore
    · obtain ⟨keyUsed, m, rfl, hkeyDerives, -⟩ := hsound _ _ hkey
      have hbegins : Begins .chain
          ((used ++ ⟨.mark .leftBracket, span⟩ :: keyUsed).map Token.kind) := by
        simpa using Begins.index hderives hkeyDerives.begins
      simpa using Stuck.of_expect hclose hbegins
    · cases hlimit.symm.trans (isLimit_of_built hbuilt)
  · cases h

theorem prompt_member (hsound : Sound limits .expression room nested)
    (hnested : Prompt .expression nested) : Prompt .chain (member limits room nested) := by
  intro tokens failure h hlimit
  obtain hobject | ⟨object, hobject, hmore⟩ := bind_eq_error h
  · exact (prompt_primary hsound hnested _ _ hobject hlimit).mono .ofPrimary
  · have hstart := (sound_primary hsound _ _ hobject).mono .ofPrimary
    obtain ⟨left, hleft, hstep⟩ :=
      extend_eq_error (fun _ _ => sound_memberStep hsound) hstart hmore
    exact stuck_memberStep hsound hnested hleft hstep hlimit

theorem prompt_prefixed {operand : List Token → Outcome}
    (hsound : Sound limits .expression room nested) (hnested : Prompt .expression nested)
    (hoperand : Prompt .operand operand) :
    Prompt .operand (prefixed limits room nested operand) := by
  intro tokens failure h hlimit
  rw [prefixed.eq_def] at h
  split at h
  · next span rest =>
    obtain hinner | ⟨inner, -, hbuilt⟩ := bind_eq_error h
    · exact (hoperand _ _ hinner hlimit).behind [⟨.mark .bang, span⟩] fun _ => .not
    · cases hlimit.symm.trans (isLimit_of_built hbuilt)
  · next span rest =>
    obtain hinner | ⟨inner, -, hbuilt⟩ := bind_eq_error h
    · exact (hoperand _ _ hinner hlimit).behind [⟨.mark .minus, span⟩] fun _ => .negate
    · cases hlimit.symm.trans (isLimit_of_built hbuilt)
  · exact (prompt_member hsound hnested _ _ h hlimit).mono .ofChain

/-- An operator is tried only if an operand may follow it. -/
theorem stuck_connectedStep {s : Nat} {operand : List Token → Outcome}
    (hoperand : Prompt (.connected s) operand) {left : Parsed}
    (hleft : Accounts limits (.connected (s + 1)) levels tokens left)
    (h : connectedStep limits room s operand left = some (.error failure))
    (hlimit : failure.error.isLimit = false) : Stuck (.connected (s + 1)) tokens failure := by
  obtain ⟨used, n, rfl, hderives, -⟩ := hleft
  rw [connectedStep] at h
  split at h
  · cases h
  · next token rest hrest =>
    rw [hrest]
    split at h
    · cases h
    · next connective hconnective =>
      obtain hright | ⟨right, -, hbuilt⟩ := bind_eq_error (Option.some.inj h)
      · have hstuck := (hoperand _ _ hright hlimit).behind (used ++ [token])
          fun kinds hkinds => by simpa using Begins.connect hderives hconnective hkinds
        simpa using hstuck
      · cases hlimit.symm.trans (isLimit_of_built hbuilt)

theorem prompt_connected {operand : List Token → Outcome}
    (hsound : Sound limits .operand (room + 1) operand) (hoperand : Prompt .operand operand)
    (s : Nat) : Prompt (.connected s) (connected limits room operand s) := by
  induction s with
  | zero => exact fun tokens failure h hlimit => (hoperand _ _ h hlimit).mono .ofOperand
  | succ s ih =>
    intro tokens failure h hlimit
    obtain hleft | ⟨left, hleft, hmore⟩ := bind_eq_error h
    · exact (ih _ _ hleft hlimit).mono .weaken
    · have hstart := (sound_connected hsound s _ _ hleft).mono .weaken
      obtain ⟨last, hlast, hstep⟩ := extend_eq_error
        (fun _ _ => sound_connectedStep (sound_connected hsound s)) hstart hmore
      exact stuck_connectedStep ih hlast hstep hlimit

theorem prompt_conditional {operand : List Token → Outcome}
    (hsound : Sound limits .expression room nested)
    (hsoundOperand : Sound limits .operand (room + 1) operand)
    (hnested : Prompt .expression nested) (hoperand : Prompt .operand operand) :
    Prompt .expression (conditional limits room nested operand) := by
  intro tokens failure h hlimit
  obtain htest | ⟨test, htest, hbranches⟩ := bind_eq_error h
  · exact (prompt_connected hsoundOperand hoperand strengths _ _ htest hlimit).mono .ofConnected
  obtain ⟨used, n, rfl, hderives, -⟩ := sound_connected hsoundOperand strengths _ _ htest
  split at hbranches
  · next span rest hrest =>
    rw [hrest]
    obtain hconsequent | ⟨consequent, hconsequent, hmore⟩ := bind_eq_error hbranches
    · have hstuck := (hnested _ _ hconsequent hlimit).behind (used ++ [⟨.mark .question, span⟩])
        fun kinds hkinds => by simpa using Begins.consequent hderives hkinds
      simpa using hstuck
    obtain ⟨thenUsed, m, rfl, hthen, -⟩ := hsound _ _ hconsequent
    obtain hcolon | ⟨after, hafter, hlast⟩ := bind_eq_error hmore
    · have hbegins : Begins .expression
          ((used ++ ⟨.mark .question, span⟩ :: thenUsed).map Token.kind) := by
        simpa using Begins.consequent hderives hthen.begins
      simpa using Stuck.of_expect hcolon hbegins
    obtain ⟨span', hspan⟩ := expect_eq_ok hafter
    rw [hspan]
    obtain halternate | ⟨alternate, -, hbuilt⟩ := bind_eq_error hlast
    · have hstuck := (hnested _ _ halternate hlimit).behind
        (used ++ ⟨.mark .question, span⟩ :: (thenUsed ++ [⟨.mark .colon, span'⟩]))
        fun kinds hkinds => by simpa using Begins.alternate hderives hthen hkinds
      simpa using hstuck
    · cases hlimit.symm.trans (isLimit_of_built hbuilt)
  · cases hbranches

/-- Without room every failure is for a limit. -/
theorem prompt_tooDeep (phrase : Phrase) : Prompt phrase (tooDeep limits) :=
  fun _ _ h hlimit => by cases h; cases hlimit

/-- **The parser fails in time**: expressions, and operands, in any room. -/
theorem prompt_expression (limits : Limits) (room : Nat) :
    Prompt .expression (expression limits room) ∧ Prompt .operand (operand limits room) := by
  induction room with
  | zero =>
    rw [operand_zero]
    exact ⟨prompt_tooDeep _,
      prompt_prefixed (sound_expression limits 0).1 (prompt_tooDeep _) (prompt_tooDeep _)⟩
  | succ room ih =>
    obtain ⟨hexpression, hoperand⟩ := ih
    obtain ⟨hsound, hsoundOperand⟩ := sound_expression limits room
    have hnested : Prompt .expression (expression limits (room + 1)) :=
      prompt_conditional hsound hsoundOperand hexpression hoperand
    rw [operand_succ]
    exact ⟨hnested, prompt_prefixed (sound_expression limits (room + 1)).1 hnested hoperand⟩

/-! ## Whole sequences -/

/-- Under great enough limits every expression is read. -/
theorem exists_ofTokens {body : List Token} {stop : Token}
    (h : Complete (body.map Token.kind)) (limits : Limits) (hstop : stop.kind = .eof) :
    ∃ greater e, limits.depth ≤ greater.depth ∧ limits.height ≤ greater.height ∧
      Expr.ofTokens greater (body ++ [stop]) = .ok e := by
  obtain ⟨n, e, hderives⟩ := h
  exact ⟨⟨0, max limits.depth (1 + n), max limits.height e.height⟩, e, Nat.le_max_left _ _,
    Nat.le_max_left _ _, ofTokens_of_derives hstop hderives (Nat.le_max_right _ _)
      (Nat.le_max_right _ _)⟩

/-- **Where an error stands.** Unless it is for a limit, the tokens taken before it are viable,
and the next one is at fault, or the end of the input. -/
theorem exists_of_ofTokens_eq_error {error : SyntaxError}
    (h : Expr.ofTokens limits tokens = .error error) (hlimit : error.isLimit = false) :
    ∃ used rest, closeTokens tokens = used ++ rest ∧ Viable (used.map Token.kind) ∧
      rest <:+ remaining (expression limits limits.depth (closeTokens tokens)) ∧
      WithinLimits (expression limits limits.depth (closeTokens tokens)) ∧
      ((error = .unexpectedEnd ∧ ∀ token ∈ rest.head?, token.kind = .eof) ∨
        ∃ token ∈ rest.head?, token.kind ≠ .eof ∧ error.token? = some token) := by
  rw [ofTokens_eq_conclude] at h
  cases hread : expression limits limits.depth (closeTokens tokens) with
  | error failure =>
    rw [hread] at h
    cases h
    obtain ⟨used, htokens, hbegins, report, hreport, herror⟩ :=
      (prompt_expression limits limits.depth).1 _ _ hread hlimit
    refine ⟨used, failure.rest, htokens, hbegins.viable, List.suffix_refl _, hlimit, ?_⟩
    cases hrest : failure.rest with
    | nil =>
      rw [hrest] at herror
      exact .inl ⟨herror, by simp⟩
    | cons token more =>
      rw [hrest, errorAt] at herror
      by_cases heof : token.kind = .eof
      · rw [if_pos heof] at herror
        exact .inl ⟨herror, by simpa using heof⟩
      · rw [if_neg heof] at herror
        exact .inr ⟨token, rfl, heof, by rw [herror, hreport]⟩
  | ok parsed =>
    rw [hread] at h
    obtain ⟨used, n, htokens, hderives, -⟩ :=
      (sound_expression limits limits.depth).1 _ _ hread
    refine ⟨used, parsed.rest, htokens, hderives.begins.viable, List.suffix_refl _, trivial, ?_⟩
    rw [conclude] at h
    split at h
    · cases h
    · next token more hrest =>
      split at h
      · cases h
      · next heof =>
        cases h
        exact .inr ⟨token, by rw [hrest]; rfl, heof, rfl⟩

/-- **The token at fault spoils what was viable.** Were there a continuation, it would be read
under greater limits, but up to the token both readings are the same. -/
theorem not_viable_of_suffix {before after : List Token} {token : Token} {error : SyntaxError}
    (h : Expr.ofTokens limits tokens = .error error)
    (htokens : closeTokens tokens = before ++ token :: after)
    (htail : token :: after <:+
      remaining (expression limits limits.depth (closeTokens tokens)))
    (hwithin : WithinLimits (expression limits limits.depth (closeTokens tokens))) :
    ¬Viable ((before ++ [token]).map Token.kind) := by
  rintro ⟨more, hcomplete⟩
  let others : List Token := token :: more.map fun kind => ⟨kind, ⟨0, 0⟩⟩
  have hkinds : (before ++ [token]).map Token.kind ++ more =
      (before ++ others).map Token.kind := by
    simp [others, Function.comp_def]
  let stop : Token := ⟨.eof, ⟨0, 0⟩⟩
  have hstop : stop.kind = .eof := rfl
  rw [hkinds] at hcomplete
  obtain ⟨greater, e, hdepth, hheight, hread⟩ := exists_ofTokens hcomplete limits hstop
  have hclose : closeTokens ((before ++ others) ++ [stop]) = before ++ (others ++ [stop]) := by
    rw [closeTokens_concat hstop, List.append_assoc]
  have hhead : (token :: after).head? = (others ++ [stop]).head? := rfl
  have hsame := ofTokens_eq_of_alike hhead hdepth hheight htokens hclose htail hwithin
  rw [hread, h] at hsame
  cases hsame

section whole

variable {body : List Token} {stop : Token}

/-- What is viable and reaches the end of the input is everything in front of it. -/
theorem eq_of_viable {rest : List Token} (hbody : ∀ t ∈ body, t.kind ≠ .eof)
    (hstop : stop.kind = .eof) (htokens : body ++ [stop] = used ++ rest)
    (hviable : Viable (used.map Token.kind)) (hrest : ∀ token ∈ rest.head?, token.kind = .eof) :
    body = used := by
  have hused : ∀ t ∈ used, t.kind ≠ .eof := fun t ht =>
    hviable.kind_ne_eof _ (List.mem_map_of_mem ht)
  cases rest with
  | nil =>
    have hmem : stop ∈ used := by
      rw [List.append_nil] at htokens
      simp [← htokens]
    exact absurd hstop (hused stop hmem)
  | cons token more => exact eq_of_append_eof hbody hstop hused (hrest token rfl) htokens

/-- A token that is no end of input stands in front of the end. -/
theorem exists_of_ne_eof {token : Token} {more : List Token} (hstop : stop.kind = .eof)
    (htoken : token.kind ≠ .eof) (htokens : body ++ [stop] = used ++ token :: more) :
    ∃ after, body = used ++ token :: after := by
  obtain rfl | ⟨after, last, rfl⟩ := more.eq_nil_or_concat
  · obtain ⟨-, hlast⟩ := List.append_inj' htokens rfl
    cases hlast
    exact absurd hstop htoken
  · have hconcat : body ++ [stop] = (used ++ token :: after) ++ [last] := by simpa using htokens
    exact ⟨after, (List.append_inj' hconcat rfl).1⟩

/-- What is refused, but not for a limit, is no expression. -/
theorem not_complete_of_ofTokens {error : SyntaxError} (hstop : stop.kind = .eof)
    (h : Expr.ofTokens limits (body ++ [stop]) = .error error) (hlimit : error.isLimit = false) :
    ¬Complete (body.map Token.kind) := by
  intro hcomplete
  obtain ⟨greater, e, hdepth, hheight, hread⟩ := exists_ofTokens hcomplete limits hstop
  have hlimits : ∀ found, Expr.ofTokens limits (body ++ [stop]) = .error found →
      found.isLimit = false := by
    intro found hfound
    cases h.symm.trans hfound
    exact hlimit
  rw [ofTokens_eq_of_le hdepth hheight hlimits, h] at hread
  cases hread

/-- An error about a token divides the viable from what is not. -/
theorem exists_of_token? {error : SyntaxError} {token : Token} (hstop : stop.kind = .eof)
    (h : Expr.ofTokens limits (body ++ [stop]) = .error error) (hlimit : error.isLimit = false)
    (htoken : error.token? = some token) :
    ∃ before after, body = before ++ token :: after ∧ Viable (before.map Token.kind) ∧
      ¬Viable ((before ++ [token]).map Token.kind) := by
  obtain ⟨used, rest, htokens, hviable, hsuffix, hwithin, ⟨rfl, -⟩ |
    ⟨first, hrest, hfirst, hreported⟩⟩ := exists_of_ofTokens_eq_error h hlimit
  · cases htoken
  · obtain rfl := Option.some.inj (hreported.symm.trans htoken)
    obtain ⟨more, rfl⟩ := List.head?_eq_some_iff.mp hrest
    have hspoilt := not_viable_of_suffix h htokens hsuffix hwithin
    rw [closeTokens_concat hstop] at htokens
    obtain ⟨after, hbody⟩ := exists_of_ne_eof hstop hfirst htokens
    exact ⟨used, after, hbody, hviable, hspoilt⟩

/-- **Errors are found at the earliest token.** Let a sequence of tokens have its only end of
input at the end, and let no limit be met. The input is said to end too early exactly if what
is in front of the end is no expression, but can be completed to one. And if an error is about
a token, then what is in front of this token can be completed to an expression, and with the
token it no longer can. -/
theorem ofTokens_error_earliest (limits : Limits) (body : List Token) (stop : Token)
    (hbody : ∀ t ∈ body, t.kind ≠ .eof) (hstop : stop.kind = .eof)
    (hlimits : ∀ error, Expr.ofTokens limits (body ++ [stop]) = .error error →
      error.isLimit = false) :
    (Expr.ofTokens limits (body ++ [stop]) = .error .unexpectedEnd ↔
      ¬Complete (body.map Token.kind) ∧ Viable (body.map Token.kind)) ∧
    ∀ error token, Expr.ofTokens limits (body ++ [stop]) = .error error →
      error.token? = some token →
      ∃ before after, body = before ++ token :: after ∧ Viable (before.map Token.kind) ∧
        ¬Viable ((before ++ [token]).map Token.kind) := by
  refine ⟨⟨?_, ?_⟩, ?_⟩
  · intro h
    refine ⟨not_complete_of_ofTokens hstop h rfl, ?_⟩
    obtain ⟨used, rest, htokens, hviable, -, -, ⟨-, hrest⟩ | ⟨first, -, -, hreported⟩⟩ :=
      exists_of_ofTokens_eq_error h rfl
    · rw [closeTokens_concat hstop] at htokens
      obtain rfl := eq_of_viable hbody hstop htokens hviable hrest
      exact hviable
    · cases hreported
  · rintro ⟨hincomplete, hviable⟩
    cases h : Expr.ofTokens limits (body ++ [stop]) with
    | ok e =>
      obtain ⟨n, hderives, -⟩ := derives_of_ofTokens hbody hstop h
      exact absurd ⟨n, e, hderives⟩ hincomplete
    | error error =>
      obtain ⟨used, rest, -, -, -, -, ⟨rfl, -⟩ | ⟨token, -, -, htoken⟩⟩ :=
        exists_of_ofTokens_eq_error h (hlimits error h)
      · rfl
      · -- an error about a token would leave the whole no more viable than up to there
        obtain ⟨before, after, rfl, -, hspoilt⟩ :=
          exists_of_token? hstop h (hlimits error h) htoken
        have hparts : (before ++ token :: after).map Token.kind =
            (before ++ [token]).map Token.kind ++ after.map Token.kind := by simp
        rw [hparts] at hviable
        exact absurd hviable.of_append hspoilt
  · intro error token h htoken
    exact exists_of_token? hstop h (hlimits error h) htoken

/-- In `a ? b )` the parenthesis is at fault: `a ? b` still lacks its other branch, and no
expression starts with `a ? b )`. -/
theorem ofTokens_error_branch :
    let body : List Token := [⟨.identifier "a", ⟨0, 1⟩⟩, ⟨.mark .question, ⟨2, 3⟩⟩,
      ⟨.identifier "b", ⟨4, 5⟩⟩, ⟨.mark .rightParen, ⟨6, 7⟩⟩]
    let error : SyntaxError := .expected (.mark .colon) (.mark .rightParen) ⟨6, 7⟩
    (∀ t ∈ body, t.kind ≠ .eof) ∧
      Expr.ofTokens .standard (body ++ [⟨.eof, ⟨7, 7⟩⟩]) = .error error ∧
      error.isLimit = false ∧ error.token? = some ⟨.mark .rightParen, ⟨6, 7⟩⟩ ∧
      ∃ before after, body = before ++ ⟨.mark .rightParen, ⟨6, 7⟩⟩ :: after ∧
        Viable (before.map Token.kind) ∧
        ¬Viable ((before ++ [⟨.mark .rightParen, ⟨6, 7⟩⟩]).map Token.kind) := by
  intro body error
  have hbody : ∀ t ∈ body, t.kind ≠ .eof := by decide
  have hread : Expr.ofTokens .standard (body ++ [⟨.eof, ⟨7, 7⟩⟩]) = .error error := by
    decide +kernel
  have hlimits : ∀ found, Expr.ofTokens .standard (body ++ [⟨.eof, ⟨7, 7⟩⟩]) = .error found →
      found.isLimit = false := by
    intro found hfound
    cases hread.symm.trans hfound
    rfl
  refine ⟨hbody, hread, rfl, rfl, ?_⟩
  exact (ofTokens_error_earliest .standard body ⟨.eof, ⟨7, 7⟩⟩ hbody rfl hlimits).2 error _
    hread rfl

end whole

end Parser

end ScreenedExpr
