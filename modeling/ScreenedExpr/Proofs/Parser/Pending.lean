import ScreenedExpr.Proofs.Parser.Completeness

/-!
# Phrases that are pending

In the middle of its tokens the parser is inside phrases that it has begun and not finished. The
tokens read so far **open** the phrase that comes next: of each phrase around it they hold the
parts in front, completed and within the limits. Behind them stands the next node, if the tokens
that follow **build** one and its last part cannot go on.

All this is said of the tokens and of the grammar. What the parser does with it: a phrase that it
has read has come to its end, and a node that fails inside pending phrases fails them all.

* `Grammar.Opens` — tokens that lead from the start of a phrase to the start of one inside;
* `Grammar.Builds` — phrases for a tree whose root is a node of their own stratum;
* `Completes` — where a node stands that is the next to be completed;
* `read` — the readings of all strata;
* `ends_read` — no phrase that was read goes on with the tokens left;
* `fails_of_opens` — a tree that is too tall inside pending phrases.
-/

namespace ScreenedExpr.Grammar

open ScreenedExpr.Parser

/-! ## Tokens in front of a node, and tokens of a node -/

/-- The kinds are a phrase for the tree, within the limits: it nests fewer levels deep than there
are, the one that it stands in included, and the tree is not too high. -/
def Fits (limits : Limits) (phrase : Phrase) (levels : Nat) (kinds : List TokenKind)
    (e : Expr) : Prop :=
  ∃ n, Derives phrase n kinds e ∧ n < levels ∧ e.height ≤ limits.height

/-- **Pending phrases.** A phrase with that many levels starts with the kinds, and an inner phrase
with `left` levels is the next thing in it. What was completed before is within the limits. -/
inductive Opens (limits : Limits) (inner : Phrase) (left : Nat) :
    Phrase → Nat → List TokenKind → Prop where
  /-- nothing is pending -/
  | here : Opens limits inner left inner left []
  /-- behind an opening parenthesis -/
  | parenthesized {levels : Nat} {kinds : List TokenKind}
      (nested : Opens limits inner left .expression levels kinds) :
      Opens limits inner left .primary (levels + 1) (.mark .leftParen :: kinds)
  /-- in the primary of a chain -/
  | ofPrimary {levels : Nat} {kinds : List TokenKind}
      (nested : Opens limits inner left .primary levels kinds) :
      Opens limits inner left .chain levels kinds
  /-- in the key of a member -/
  | key {levels : Nat} {objectKinds kinds : List TokenKind} {object : Expr}
      (first : Fits limits .chain (levels + 1) objectKinds object)
      (nested : Opens limits inner left .expression levels kinds) :
      Opens limits inner left .chain (levels + 1) (objectKinds ++ .mark .leftBracket :: kinds)
  /-- in an operand without an operator in front -/
  | ofChain {levels : Nat} {kinds : List TokenKind}
      (nested : Opens limits inner left .chain levels kinds) :
      Opens limits inner left .operand levels kinds
  /-- behind `!` -/
  | not {levels : Nat} {kinds : List TokenKind}
      (nested : Opens limits inner left .operand levels kinds) :
      Opens limits inner left .operand (levels + 1) (.mark .bang :: kinds)
  /-- behind `-` -/
  | negate {levels : Nat} {kinds : List TokenKind}
      (nested : Opens limits inner left .operand levels kinds) :
      Opens limits inner left .operand (levels + 1) (.mark .minus :: kinds)
  /-- in an operand between no operators -/
  | ofOperand {levels : Nat} {kinds : List TokenKind}
      (nested : Opens limits inner left .operand levels kinds) :
      Opens limits inner left (.connected 0) levels kinds
  /-- in the first of the operands -/
  | weaken {s levels : Nat} {kinds : List TokenKind}
      (nested : Opens limits inner left (.connected s) levels kinds) :
      Opens limits inner left (.connected (s + 1)) levels kinds
  /-- in a right operand -/
  | right {s levels : Nat} {firstKinds kinds : List TokenKind} {first : Expr}
      {connective : Connective} {mark : Mark}
      (before : Fits limits (.connected (s + 1)) levels firstKinds first)
      (hop : connective ∈ operators s) (hmark : mark.symbol = symbol connective)
      (nested : Opens limits inner left (.connected s) levels kinds) :
      Opens limits inner left (.connected (s + 1)) levels (firstKinds ++ .mark mark :: kinds)
  /-- in what may be the test of a conditional -/
  | ofConnected {levels : Nat} {kinds : List TokenKind}
      (nested : Opens limits inner left (.connected 6) levels kinds) :
      Opens limits inner left .expression levels kinds
  /-- in the first branch of a conditional -/
  | consequent {levels : Nat} {testKinds kinds : List TokenKind} {test : Expr}
      (first : Fits limits (.connected 6) (levels + 1) testKinds test)
      (nested : Opens limits inner left .expression levels kinds) :
      Opens limits inner left .expression (levels + 1) (testKinds ++ .mark .question :: kinds)
  /-- in the other branch of a conditional -/
  | alternate {levels : Nat} {testKinds thenKinds kinds : List TokenKind}
      {test consequent : Expr}
      (first : Fits limits (.connected 6) (levels + 1) testKinds test)
      (second : Fits limits .expression levels thenKinds consequent)
      (nested : Opens limits inner left .expression levels kinds) :
      Opens limits inner left .expression (levels + 1)
        (testKinds ++ .mark .question :: (thenKinds ++ .mark .colon :: kinds))

/-- **Nodes.** The kinds are a phrase for the tree, nested that deep, and its root is a node of
this very stratum. The last index is the phrase that the node ends with, which can still go on;
a primary is one that cannot. -/
inductive Builds : Phrase → Nat → List TokenKind → Expr → Phrase → Prop where
  /-- a literal -/
  | literal (value : Literal) :
      Builds .primary 0 [.literal value] (.literal (.ofLiteral value)) .primary
  /-- a name -/
  | identifier (name : String) : Builds .primary 0 [.identifier name] (.identifier name) .primary
  /-- a member by name -/
  | dot {n : Nat} {kinds : List TokenKind} {object : Expr} {kind : TokenKind} {name : String}
      (inner : Derives .chain n kinds object) (hname : PropertyName kind name) :
      Builds .chain n (kinds ++ [.mark .dot, kind]) (.dot object name) .primary
  /-- a member by computed key -/
  | index {n m : Nat} {kinds keyKinds : List TokenKind} {object key : Expr}
      (inner : Derives .chain n kinds object) (nested : Derives .expression m keyKinds key) :
      Builds .chain (max n (m + 1))
        (kinds ++ .mark .leftBracket :: (keyKinds ++ [.mark .rightBracket]))
        (.member object key true) .primary
  /-- an operand behind `!` -/
  | not {n : Nat} {kinds : List TokenKind} {e : Expr} (inner : Derives .operand n kinds e) :
      Builds .operand (n + 1) (.mark .bang :: kinds) (.unary .not e) .operand
  /-- an operand behind `-` -/
  | negate {n : Nat} {kinds : List TokenKind} {e : Expr} (inner : Derives .operand n kinds e) :
      Builds .operand (n + 1) (.mark .minus :: kinds) (.unary .negate e) .operand
  /-- an operator between operands -/
  | connect {s n m : Nat} {kinds rightKinds : List TokenKind} {left right : Expr}
      {connective : Connective} {mark : Mark}
      (first : Derives (.connected (s + 1)) n kinds left)
      (hop : connective ∈ operators s) (hmark : mark.symbol = symbol connective)
      (second : Derives (.connected s) m rightKinds right) :
      Builds (.connected (s + 1)) (max n m) (kinds ++ .mark mark :: rightKinds)
        (connective.node left right) (.connected s)
  /-- a conditional -/
  | conditional {n m p : Nat} {kinds thenKinds elseKinds : List TokenKind}
      {test consequent alternate : Expr}
      (first : Derives (.connected 6) n kinds test)
      (second : Derives .expression m thenKinds consequent)
      (third : Derives .expression p elseKinds alternate) :
      Builds .expression (max n (max (m + 1) (p + 1)))
        (kinds ++ .mark .question :: (thenKinds ++ .mark .colon :: elseKinds))
        (.conditional test consequent alternate) .expression

end ScreenedExpr.Grammar

namespace ScreenedExpr.Parser

open Grammar

variable {limits : Limits} {room levels left limit : Nat} {phrase inner last : Phrase}
variable {tokens rest : List Token} {failure : Failure}

/-- **The node that is next.** Of a phrase with that many levels the tokens are read up to `rest`,
everything completed so far is within the limits, and the tokens read last are a node that does
not go on: it is the next to be completed. -/
def Completes (limits : Limits) (phrase : Phrase) (levels : Nat) (tokens : List Token)
    (node : Expr) (rest : List Token) : Prop :=
  ∃ before own inner left n last, tokens = before ++ (own ++ rest) ∧
    Opens limits inner left phrase levels (before.map Token.kind) ∧
    Builds inner n (own.map Token.kind) node last ∧ n < left ∧ Ends last rest

/-! ## Readings of all strata -/

/-- Reads a phrase with that many levels, the one that it stands in included. -/
def read (limits : Limits) : Phrase → Nat → List Token → Outcome
  | _, 0 => tooDeep limits
  | .primary, room + 1 => primary limits room (expression limits room)
  | .chain, room + 1 => member limits room (expression limits room)
  | .operand, room + 1 => operand limits room
  | .connected s, room + 1 => connected limits room (operand limits room) s
  | .expression, room + 1 =>
    conditional limits room (expression limits room) (operand limits room)

theorem read_expression (limits : Limits) (levels : Nat) :
    read limits .expression levels = expression limits levels := by
  cases levels <;> rfl

/-- An operator in front takes a level from the operand behind it. -/
theorem read_operand_succ (limits : Limits) (levels : Nat) :
    read limits .operand (levels + 1) =
      prefixed limits levels (read limits .expression levels) (read limits .operand levels) := by
  rw [read_expression]
  cases levels with
  | zero => exact operand_zero limits
  | succ room => exact operand_succ limits room

theorem sound_read (limits : Limits) (phrase : Phrase) (levels : Nat) :
    Sound limits phrase levels (read limits phrase levels) := by
  cases levels with
  | zero => cases phrase <;> exact sound_tooDeep _
  | succ room =>
    obtain ⟨hexpression, hoperand⟩ := sound_expression limits room
    cases phrase with
    | primary => exact sound_primary hexpression
    | chain => exact sound_member hexpression
    | operand => exact hoperand
    | connected s => exact sound_connected hoperand s
    | expression => exact sound_conditional hexpression hoperand

/-! ## Phrases that were read -/

/-- What is read does not go on with the tokens left. -/
def Finishes (phrase : Phrase) (read : List Token → Outcome) : Prop :=
  ∀ tokens parsed, read tokens = .ok parsed → Ends phrase parsed.rest

/-- A loop stops only where there is no step. -/
theorem Consumes.step_eq_none {step : Parsed → Option Outcome} (hstep : Consumes step)
    {bound : List Token} {start parsed : Parsed} (hbound : start.rest.length ≤ bound.length)
    (h : extend step bound start = .ok parsed) : step parsed = none := by
  induction bound generalizing start with
  | nil =>
    cases h
    exact hstep.none_of_nil parsed (List.eq_nil_of_length_eq_zero (Nat.le_zero.mp hbound))
  | cons _ bound ih =>
    rw [extend] at h
    split at h
    · next hnone => cases h; exact hnone
    · cases h
    · next longer hlonger =>
      have hlt := hstep.length_lt start longer hlonger
      rw [List.length_cons] at hbound
      exact ih (by omega) h

theorem finishes_member (limits : Limits) (room : Nat) :
    Finishes .chain (member limits room (expression limits room)) := by
  intro tokens parsed h
  obtain ⟨object, -, h⟩ := bind_eq_ok h
  have hnone := (consumes_memberStep limits room).step_eq_none (Nat.le_refl _) h
  intro token htoken
  obtain ⟨more, hmore⟩ := List.head?_eq_some_iff.mp htoken
  obtain ⟨kind, span⟩ := token
  constructor
  · rintro ⟨⟩
    simp [memberStep, hmore] at hnone
  · rintro ⟨⟩
    simp [memberStep, hmore] at hnone

theorem finishes_prefixed {operand : List Token → Outcome}
    (hoperand : Finishes .operand operand) :
    Finishes .operand (prefixed limits room (expression limits room) operand) := by
  intro tokens parsed h
  rw [prefixed.eq_def] at h
  split at h
  · obtain ⟨inner, hinner, hbuilt⟩ := bind_eq_ok h
    obtain ⟨-, rfl⟩ := built_eq_ok hbuilt
    exact hoperand _ inner hinner
  · obtain ⟨inner, hinner, hbuilt⟩ := bind_eq_ok h
    obtain ⟨-, rfl⟩ := built_eq_ok hbuilt
    exact hoperand _ inner hinner
  · exact finishes_member limits room _ _ h

theorem finishes_connected (hoperand : Finishes .operand (operand limits room)) (s : Nat) :
    Finishes (.connected s) (connected limits room (operand limits room) s) := by
  induction s with
  | zero =>
    intro tokens parsed h
    exact (hoperand _ _ h).mono fun _ hstops => ⟨hstops, fun t ht => by omega⟩
  | succ s ih =>
    intro tokens parsed h
    obtain ⟨first, hfirst, h⟩ := bind_eq_ok h
    have hnone := (consumes_connectedStep limits room s).step_eq_none (Nat.le_refl _) h
    -- behind each operand no stronger operator is left
    have hends : Ends (.connected s) parsed.rest := by
      refine extend_invariant (I := fun parsed => Ends (.connected s) parsed.rest) ?_ _
        (ih _ _ hfirst) h
      intro left longer _ hlonger
      obtain ⟨_, _, _, right, -, -, hright, -, rfl⟩ := connectedStep_eq_ok hlonger
      exact ih _ right hright
    intro token htoken
    obtain ⟨hchain, hconnected⟩ := hends token htoken
    refine ⟨hchain, fun t ht => ?_⟩
    obtain rfl | ht : t = s ∨ t < s := by omega
    · obtain ⟨more, hmore⟩ := List.head?_eq_some_iff.mp htoken
      rw [connectedStep, hmore] at hnone
      dsimp only at hnone
      split at hnone
      · assumption
      · cases hnone
    · exact hconnected t ht

theorem finishes_conditional {nested : List Token → Outcome} (hnested : Finishes .expression nested)
    (hoperand : Finishes .operand (operand limits room)) :
    Finishes .expression (conditional limits room nested (operand limits room)) := by
  intro tokens parsed h
  obtain ⟨test, htest, h⟩ := bind_eq_ok h
  have hends := finishes_connected hoperand strengths _ _ htest
  split at h
  · obtain ⟨consequent, -, hmore⟩ := bind_eq_ok h
    obtain ⟨after, -, hlast⟩ := bind_eq_ok hmore
    obtain ⟨alternate, halternate, hbuilt⟩ := bind_eq_ok hlast
    obtain ⟨-, rfl⟩ := built_eq_ok hbuilt
    exact hnested _ alternate halternate
  · next hquestion =>
    cases h
    intro token htoken
    refine ⟨hends token htoken, fun hkind => ?_⟩
    obtain ⟨more, hmore⟩ := List.head?_eq_some_iff.mp htoken
    exact hquestion token.span more (by rw [hmore, ← hkind])

theorem finishes_tooDeep (phrase : Phrase) : Finishes phrase (tooDeep limits) :=
  fun _ _ h => by cases h

/-- **What is read has come to its end.** -/
theorem ends_read (limits : Limits) (phrase : Phrase) (levels : Nat) :
    Finishes phrase (read limits phrase levels) := by
  -- operators in front are nested in one another, whatever else the levels are used for
  have hoperand : ∀ levels, Finishes .operand (read limits .operand levels) := by
    intro levels
    induction levels with
    | zero => exact finishes_tooDeep _
    | succ levels ih =>
      rw [read_operand_succ, read_expression]
      exact finishes_prefixed ih
  induction levels generalizing phrase with
  | zero => cases phrase <;> exact finishes_tooDeep _
  | succ room ih =>
    cases phrase with
    | primary => exact fun _ _ _ _ _ => trivial
    | chain => exact finishes_member limits room
    | operand => exact hoperand (room + 1)
    | connected s => exact finishes_connected (hoperand (room + 1)) s
    | expression =>
      have hnested := ih .expression
      rw [read_expression] at hnested
      exact finishes_conditional hnested (hoperand (room + 1))

/-! ## Parts that fit are read -/

/-- What accounts for tokens fits. -/
theorem Accounts.exists_fits {parsed : Parsed} (h : Accounts limits phrase levels tokens parsed) :
    ∃ used, tokens = used ++ parsed.rest ∧
      Fits limits phrase levels (used.map Token.kind) parsed.expr ∧
      parsed.height = parsed.expr.height := by
  obtain ⟨used, n, htokens, hderives, hn, hheight, hlimit⟩ := h
  exact ⟨used, htokens, ⟨n, hderives, hn, hheight ▸ hlimit⟩, hheight⟩

/-- A part that fits is read, up to the loop that may go on with it. -/
theorem readsAs_of_fits {used : List Token} {e : Expr}
    (h : Fits limits phrase (room + 1) (used.map Token.kind) e) (rest : List Token) :
    ReadsAs limits room e (used ++ rest) rest phrase := by
  obtain ⟨n, hderives, hn, hheight⟩ := h
  exact complete hderives room used rest (Nat.le_of_lt_succ hn) hheight rfl

/-- Nothing fits without levels. -/
theorem exists_levels {kinds : List TokenKind} {e : Expr} (h : Fits limits phrase levels kinds e) :
    ∃ room, levels = room + 1 := by
  obtain ⟨n, -, hn, -⟩ := h
  exact ⟨levels - 1, by omega⟩

/-! ## Failures inside pending phrases -/

/-- Reading a phrase fails in this way. -/
def Fails (limits : Limits) (failure : Failure) (phrase : Phrase) (levels : Nat)
    (tokens : List Token) : Prop :=
  read limits phrase levels tokens = .error failure

namespace Fails

variable {used thenUsed : List Token} {span span' : Span} {e e' : Expr} {s : Nat}

theorem expression_eq (h : Fails limits failure .expression levels tokens) :
    expression limits levels tokens = .error failure :=
  read_expression limits levels ▸ h

theorem parenthesized (h : Fails limits failure .expression levels tokens) :
    Fails limits failure .primary (levels + 1) (⟨.mark .leftParen, span⟩ :: tokens) := by
  rw [Fails, read, primary, h.expression_eq]
  rfl

theorem ofPrimary (h : Fails limits failure .primary levels tokens) :
    Fails limits failure .chain levels tokens := by
  cases levels with
  | zero => exact h
  | succ room =>
    rw [Fails, read] at h
    rw [Fails, read, member, h]
    rfl

/-- The object was read, and the loop goes round for the key. -/
theorem key (hobject : Fits limits .chain (levels + 1) (used.map Token.kind) e)
    (h : Fails limits failure .expression levels tokens) :
    Fails limits failure .chain (levels + 1) (used ++ ⟨.mark .leftBracket, span⟩ :: tokens) := by
  have hchain := readsAs_of_fits hobject (⟨.mark .leftBracket, span⟩ :: tokens)
  have hstep : memberStep limits levels (expression limits levels)
      ⟨e, e.height, ⟨.mark .leftBracket, span⟩ :: tokens⟩ = some (.error failure) := by
    simp only [memberStep, h.expression_eq]
    rfl
  exact Eq.trans hchain ((consumes_memberStep limits levels).extend_eq_bind hstep)

/-- A chain that is too tall does not begin with an operator. -/
theorem ofChain (h : Fails limits failure .chain levels tokens)
    (htall : failure.error = .tooTall limit) : Fails limits failure .operand levels tokens := by
  cases levels with
  | zero => exact h
  | succ room =>
    rw [Fails, read] at h
    rw [Fails, read_operand_succ, read_expression, prefixed.eq_def]
    -- at an operator a chain fails as well, but not for its height
    split
    · cases h
      cases htall
    · cases h
      cases htall
    · exact h

theorem not (h : Fails limits failure .operand levels tokens) :
    Fails limits failure .operand (levels + 1) (⟨.mark .bang, span⟩ :: tokens) := by
  rw [Fails] at h
  rw [Fails, read_operand_succ, prefixed, h]
  rfl

theorem negate (h : Fails limits failure .operand levels tokens) :
    Fails limits failure .operand (levels + 1) (⟨.mark .minus, span⟩ :: tokens) := by
  rw [Fails] at h
  rw [Fails, read_operand_succ, prefixed, h]
  rfl

theorem ofOperand (h : Fails limits failure .operand levels tokens) :
    Fails limits failure (.connected 0) levels tokens := by
  cases levels <;> exact h

theorem weaken (h : Fails limits failure (.connected s) levels tokens) :
    Fails limits failure (.connected (s + 1)) levels tokens := by
  cases levels with
  | zero => exact h
  | succ room =>
    rw [Fails, read] at h
    rw [Fails, read, connected, h]
    rfl

/-- The operands in front were read, and the loop goes round for one more. -/
theorem right {kind : TokenKind} {connective : Connective}
    (hfirst : Fits limits (.connected (s + 1)) levels (used.map Token.kind) e)
    (hconnective : connectiveAt s kind = some connective)
    (h : Fails limits failure (.connected s) levels tokens) :
    Fails limits failure (.connected (s + 1)) levels (used ++ ⟨kind, span⟩ :: tokens) := by
  obtain ⟨room, rfl⟩ := exists_levels hfirst
  have hread := readsAs_of_fits hfirst (⟨kind, span⟩ :: tokens)
    (ends_cons (stops_connective hconnective) _ _)
  rw [Fails, read] at h
  have hstep : connectedStep limits room s (connected limits room (operand limits room) s)
      ⟨e, e.height, ⟨kind, span⟩ :: tokens⟩ = some (.error failure) := by
    simp only [connectedStep, hconnective, h]
    rfl
  exact hread.trans ((consumes_connectedStep limits room s).extend_eq_bind hstep)

theorem ofConnected (h : Fails limits failure (.connected strengths) levels tokens) :
    Fails limits failure .expression levels tokens := by
  cases levels with
  | zero => exact h
  | succ room =>
    rw [Fails, read] at h
    rw [Fails, read, conditional, h]
    rfl

theorem consequent
    (htest : Fits limits (.connected strengths) (levels + 1) (used.map Token.kind) e)
    (h : Fails limits failure .expression levels tokens) :
    Fails limits failure .expression (levels + 1)
      (used ++ ⟨.mark .question, span⟩ :: tokens) := by
  have hread := (readsAs_of_fits htest (⟨.mark .question, span⟩ :: tokens)).connected_eq_ok
    (ends_cons stops_question _ _)
  rw [Fails, read, conditional, hread, ok_bind]
  dsimp only
  rw [h.expression_eq]
  rfl

theorem alternate
    (htest : Fits limits (.connected strengths) (levels + 1) (used.map Token.kind) e)
    (hthen : Fits limits .expression levels (thenUsed.map Token.kind) e')
    (h : Fails limits failure .expression levels tokens) :
    Fails limits failure .expression (levels + 1)
      (used ++ ⟨.mark .question, span⟩ :: (thenUsed ++ ⟨.mark .colon, span'⟩ :: tokens)) := by
  obtain ⟨room, rfl⟩ := exists_levels hthen
  have hread := (readsAs_of_fits htest (⟨.mark .question, span⟩ ::
    (thenUsed ++ ⟨.mark .colon, span'⟩ :: tokens))).connected_eq_ok (ends_cons stops_question _ _)
  have hreadThen := readsAs_of_fits hthen (⟨.mark .colon, span'⟩ :: tokens)
    (ends_cons (stops_mark .colon rfl nofun nofun nofun) _ _)
  rw [Fails, read, conditional, hread, ok_bind]
  dsimp only
  rw [hreadThen, ok_bind, expect_cons, ok_bind, h.expression_eq]
  rfl

end Fails

/-- **A tree that is too tall inside pending phrases** fails them all: their parts in front are
read, and no phrase goes another way. -/
theorem fails_of_opens {kinds : List TokenKind}
    (h : Opens limits inner left phrase levels kinds) {used : List Token}
    (hused : used.map Token.kind = kinds) (hread : Fails limits failure inner left tokens)
    (htall : failure.error = .tooTall limit) :
    Fails limits failure phrase levels (used ++ tokens) := by
  induction h generalizing used with
  | here =>
    obtain rfl := List.map_eq_nil_iff.mp hused
    exact hread
  | parenthesized nested ih =>
    obtain ⟨span, more, rfl, hmore⟩ := map_kind_eq_cons hused
    exact (ih hmore).parenthesized
  | ofPrimary nested ih => exact (ih hused).ofPrimary
  | key first nested ih =>
    obtain ⟨inside, span, more, rfl, rfl, hkey⟩ := map_kind_eq_append_cons hused
    rw [List.append_assoc, List.cons_append]
    exact (ih hkey).key first
  | ofChain nested ih => exact (ih hused).ofChain htall
  | not nested ih =>
    obtain ⟨span, more, rfl, hmore⟩ := map_kind_eq_cons hused
    exact (ih hmore).not
  | negate nested ih =>
    obtain ⟨span, more, rfl, hmore⟩ := map_kind_eq_cons hused
    exact (ih hmore).negate
  | ofOperand nested ih => exact (ih hused).ofOperand
  | weaken nested ih => exact (ih hused).weaken
  | @right s _ _ _ _ connective mark before hop hmark nested ih =>
    obtain ⟨inside, span, more, rfl, rfl, hright⟩ := map_kind_eq_append_cons hused
    rw [List.append_assoc, List.cons_append]
    exact (ih hright).right before (connectiveAt_eq_some_iff.mpr ⟨hop, mark, rfl, hmark⟩)
  | ofConnected nested ih => exact (ih hused).ofConnected
  | consequent first nested ih =>
    obtain ⟨inside, span, more, rfl, rfl, hthen⟩ := map_kind_eq_append_cons hused
    rw [List.append_assoc, List.cons_append]
    exact (ih hthen).consequent first
  | alternate first second nested ih =>
    obtain ⟨inside, span, _, rfl, rfl, hbranches⟩ := map_kind_eq_append_cons hused
    obtain ⟨thenUsed, span', more, rfl, rfl, helse⟩ := map_kind_eq_append_cons hbranches
    rw [List.append_assoc, List.cons_append, List.append_assoc, List.cons_append]
    exact (ih helse).alternate first second

end ScreenedExpr.Parser
