import ScreenedExpr.Expr.Parser.Machine
import ScreenedExpr.Proofs.Parser.Completeness

/-!
# A parser at work reads what a reading says

`Parser.expression` is a function of the tokens left and the room left, `Machine.expression` an
action on a state that holds more than that. Here the first is shown to be what the second does:
from a machine that can go on, an action gives the expression or the error of the reading, without
a crash, and leaves the machine where the reading stops. A result also leaves the depth as it was
and its height in the register; a refusal leaves the levels entered.

Only the tokens left count for the meaning of a state. So a token that is taken out is like one
that is passed by, and neither the depth nor the register says anything but what the reading says
with its room and its heights.

* `Machine.Ready` — machines that can go on;
* `Machine.Later` — what every action leaves as it was;
* `Machine.Performs` — an action does once what a reading says;
* `Machine.Realizes` — it does so in every state with the same room;
* `Machine.realizes_expression` — so do expressions and operands, and no bound is reached.
-/

namespace ScreenedExpr.Parser.Machine

open Grammar

variable {α β : Type} {m m' m'' : Machine} {limits : Limits} {room height : Nat}
  {token : Token} {tokens : List Token}

/-! ## Sequencing -/

section sequencing

variable {x : Action α} {f : α → Action β}

/-- Behind a result the second action goes on. -/
theorem bind_of_ok {a : α} (h : x m = .ok (.ok a, m')) : (x >>= f) m = f a m' := by
  change (x m >>= fun reply => ExceptT.bindCont f reply.1 reply.2) = _
  rw [h]
  rfl

/-- A refusal is passed on. -/
theorem bind_of_error {e : SyntaxError} (h : x m = .ok (.error e, m')) :
    (x >>= f) m = .ok (.error e, m') := by
  change (x m >>= fun reply => ExceptT.bindCont f reply.1 reply.2) = _
  rw [h]
  rfl

theorem get_bind (f : Machine → Action α) (m : Machine) : (get >>= f) m = f m m := rfl

theorem modify_apply (f : Machine → Machine) (m : Machine) :
    (modify f : Action Unit) m = .ok (.ok (), f m) := rfl

theorem lastHeight_bind (f : Nat → Action α) (m : Machine) :
    (lastHeight >>= f) m = f m.height m := rfl

end sequencing

/-! ## States -/

/-- The tokens not yet read. -/
def rest (m : Machine) : List Token := m.tokens.toList.drop m.position

/-- **A machine that can go on**: a token stands at its position, and the last token is an end of
the input. -/
structure Ready (m : Machine) : Prop where
  /-- the position is one of a token -/
  position_lt : m.position < m.tokens.size
  /-- the last token ends the input -/
  last_eof : ∀ token ∈ m.tokens.back?, token.kind = .eof

/-- **A later state** of a machine, after an action that may have been refused. -/
structure Later (m m' : Machine) : Prop where
  /-- the limits stay -/
  limits_eq : m'.limits = m.limits
  /-- there are as many tokens as before -/
  size_eq : m'.tokens.size = m.tokens.size
  /-- the last one stays -/
  back_eq : m'.tokens.back? = m.tokens.back?
  /-- the position does not go back -/
  position_le : m.position ≤ m'.position
  /-- the position is one of a token -/
  position_lt : m'.position < m'.tokens.size
  /-- no level is left that was entered before -/
  depth_le : m.depth ≤ m'.depth

/-- **The state after a result**: these tokens are left, all levels that were entered are left
again, and the register holds this height. -/
structure Reaches (m m' : Machine) (tokens : List Token) (height : Nat) : Prop where
  /-- it is a later state -/
  later : Later m m'
  /-- the depth is as before -/
  depth_eq : m'.depth = m.depth
  /-- the tokens left -/
  rest_eq : m'.rest = tokens
  /-- the height in the register -/
  height_eq : m'.height = height

/-- **The state after a refusal**: it stands where the failure says. -/
structure Refuses (m m' : Machine) (failure : Failure) : Prop where
  /-- it is a later state -/
  later : Later m m'
  /-- the tokens left -/
  rest_eq : m'.rest = failure.rest
  /-- the levels left -/
  room_eq : m'.limits.depth - m'.depth = failure.room

/-- A machine that can go on under these limits, with room for that many levels. -/
structure At (limits : Limits) (room : Nat) (m : Machine) : Prop where
  /-- it can go on -/
  ready : m.Ready
  /-- it works under these limits -/
  limits_eq : m.limits = limits
  /-- it has that much room -/
  room_eq : limits.depth - m.depth = room

theorem length_rest (m : Machine) : m.rest.length = m.tokens.size - m.position := by
  rw [rest, List.length_drop, Array.length_toList]

theorem Ready.later_self (h : m.Ready) : Later m m :=
  ⟨rfl, rfl, rfl, Nat.le_refl _, h.position_lt, Nat.le_refl _⟩

theorem Later.trans (h : Later m m') (h' : Later m' m'') : Later m m'' where
  limits_eq := h'.limits_eq.trans h.limits_eq
  size_eq := h'.size_eq.trans h.size_eq
  back_eq := h'.back_eq.trans h.back_eq
  position_le := Nat.le_trans h.position_le h'.position_le
  position_lt := h'.position_lt
  depth_le := Nat.le_trans h.depth_le h'.depth_le

theorem Ready.of_later (h : m.Ready) (hlater : Later m m') : m'.Ready :=
  ⟨hlater.position_lt, fun token htoken => h.last_eof token (hlater.back_eq ▸ htoken)⟩

theorem At.reaches (h : At limits room m) (hreaches : Reaches m m' tokens height) :
    At limits room m' :=
  ⟨h.ready.of_later hreaches.later, hreaches.later.limits_eq.trans h.limits_eq,
    by rw [hreaches.depth_eq, h.room_eq]⟩

/-- A refusal on the spot. -/
theorem At.refuses (h : At limits room m) (error : SyntaxError) :
    Refuses m m ⟨error, m.rest, room⟩ :=
  ⟨h.ready.later_self, rfl, h.limits_eq ▸ h.room_eq⟩

/-- There is always a token left. -/
theorem Ready.exists_cons (h : m.Ready) : ∃ token tokens, m.rest = token :: tokens := by
  apply List.exists_cons_of_ne_nil
  have hlt := h.position_lt
  rw [← List.length_pos_iff, length_rest]
  omega

/-- The last of the tokens left is the last of all. -/
theorem Ready.getLast?_rest (h : m.Ready) : m.rest.getLast? = m.tokens.back? := by
  have hlt := h.position_lt
  rw [rest, List.getLast?_drop, if_neg (by rw [Array.length_toList]; omega), Array.getLast?_toList]

/-- Behind a token that does not end the input there is another. -/
theorem Ready.ne_nil (h : m.Ready) (hrest : m.rest = token :: tokens) (hkind : token.kind ≠ .eof) :
    tokens ≠ [] := by
  rintro rfl
  have hlast : m.tokens.back? = some token := by rw [← h.getLast?_rest, hrest]; rfl
  exact hkind (h.last_eof token hlast)

/-- Then the next position is one of a token. -/
theorem Ready.position_succ_lt (h : m.Ready) (hrest : m.rest = token :: tokens)
    (hkind : token.kind ≠ .eof) : m.position + 1 < m.tokens.size := by
  have hpos := List.length_pos_iff.mpr (h.ne_nil hrest hkind)
  have hlength := length_rest m
  rw [hrest, List.length_cons] at hlength
  omega

/-! ## Single actions -/

theorem current_eq (h : m.rest = token :: tokens) : current m = .ok (.ok token, m) := by
  have htoken : m.tokens[m.position]? = some token := by
    rw [← Array.getElem?_toList, ← List.head?_drop]
    exact congrArg List.head? h
  rw [current, get_bind, htoken]
  rfl

theorem check_mark {mark : Mark} {span : Span} (h : m.rest = ⟨.mark mark, span⟩ :: tokens) :
    check mark m = .ok (.ok true, m) := by
  rw [check, bind_of_ok (current_eq h), decide_eq_true rfl]
  rfl

theorem check_of_ne {mark : Mark} (h : m.rest = token :: tokens) (hne : token.kind ≠ .mark mark) :
    check mark m = .ok (.ok false, m) := by
  rw [check, bind_of_ok (current_eq h), decide_eq_false hne]
  rfl

theorem refuse_eq (h : m.rest = token :: tokens) (error : TokenKind → Span → SyntaxError) :
    (refuse error : Action α) m = .ok (.error (errorAt error m.rest), m) := by
  rw [refuse, bind_of_ok (current_eq h), h]
  rfl

/-- What is left behind the first of the tokens left. -/
theorem drop_position_succ (hrest : m.rest = token :: tokens) :
    m.tokens.toList.drop (m.position + 1) = tokens := by
  rw [← List.tail_drop]
  exact congrArg List.tail hrest

theorem advance_of_lt (h : m.position + 1 < m.tokens.size) :
    advance m = .ok (.ok (), { m with position := m.position + 1 }) := by
  change Except.ok (_, if _ then _ else m) = _
  rw [if_pos h]

/-- **Moving on** behind a token that does not end the input. -/
theorem advance_eq (h : m.Ready) (hrest : m.rest = token :: tokens) (hkind : token.kind ≠ .eof) :
    ∃ m', advance m = .ok (.ok (), m') ∧ Reaches m m' tokens m.height := by
  have hlt := h.position_succ_lt hrest hkind
  have hlater : Later m { m with position := m.position + 1 } :=
    ⟨rfl, rfl, rfl, Nat.le_succ _, hlt, Nat.le_refl _⟩
  exact ⟨_, advance_of_lt hlt, hlater, rfl, drop_position_succ hrest, rfl⟩

/-- **Taking a token out** that does not end the input. What was read is not looked at again. -/
theorem bump_eq (h : m.Ready) (hrest : m.rest = token :: tokens) (hkind : token.kind ≠ .eof) :
    ∃ m', bump m = .ok (.ok token, m') ∧ Reaches m m' tokens m.height := by
  have hlt := h.position_succ_lt hrest hkind
  let taken := m.tokens.setIfInBounds m.position ⟨.eof, token.span⟩
  have hsize : taken.size = m.tokens.size := Array.size_setIfInBounds
  have hback : taken.back? = m.tokens.back? := by
    rw [Array.back?_eq_getElem?, Array.back?_eq_getElem?, hsize,
      Array.getElem?_setIfInBounds_ne (by omega)]
  have hdrop : taken.toList.drop (m.position + 1) = tokens := by
    rw [Array.toList_setIfInBounds, List.drop_set_of_lt (Nat.lt_succ_self _),
      drop_position_succ hrest]
  have hlater : Later m { m with tokens := taken, position := m.position + 1 } :=
    ⟨rfl, hsize, hback, Nat.le_succ _, hsize ▸ hlt, Nat.le_refl _⟩
  refine ⟨_, ?_, hlater, rfl, hdrop, rfl⟩
  have hadvance : advance { m with tokens := taken } =
      .ok (.ok (), { m with tokens := taken, position := m.position + 1 }) :=
    advance_of_lt (hsize ▸ hlt)
  rw [bump, bind_of_ok (current_eq hrest)]
  change (advance >>= fun _ => pure token) { m with tokens := taken } = _
  rw [bind_of_ok hadvance]
  rfl

/-! ## Actions that read a construct -/

/-- **An action does what a reading says**: from this state it gives what was read, as `value`
presents it, or the same refusal. -/
inductive Performs (value : Parsed → α) (m : Machine) :
    Outcome → Except Crash (Except SyntaxError α × Machine) → Prop where
  /-- a result -/
  | ok {parsed : Parsed} {m' : Machine} (h : Reaches m m' parsed.rest parsed.height) :
      Performs value m (.ok parsed) (.ok (.ok (value parsed), m'))
  /-- a refusal -/
  | error {failure : Failure} {m' : Machine} (h : Refuses m m' failure) :
      Performs value m (.error failure) (.ok (.error failure.error, m'))

/-- An action reads expressions like a reading, in every state under these limits with that much
room. -/
def Realizes (limits : Limits) (room : Nat) (action : Action Expr)
    (read : List Token → Outcome) : Prop :=
  ∀ m, At limits room m → Performs Parsed.expr m (read m.rest) (action m)

namespace Performs

variable {value : Parsed → α} {value' : Parsed → β} {out : Outcome}
  {result : Except Crash (Except SyntaxError α × Machine)}

/-- Something was read before. -/
theorem behind (hreaches : Reaches m m' tokens height) (h : Performs value m' out result) :
    Performs value m out result := by
  cases h with
  | ok h => exact .ok ⟨hreaches.later.trans h.later, h.depth_eq.trans hreaches.depth_eq,
      h.rest_eq, h.height_eq⟩
  | error h => exact .error ⟨hreaches.later.trans h.later, h.rest_eq, h.room_eq⟩

/-- **Sequencing.** -/
theorem bind {x : Action α} {f : Parsed → Outcome} {g : α → Action β}
    (h : Performs value m out (x m))
    (hmore : ∀ parsed m', out = .ok parsed → Reaches m m' parsed.rest parsed.height →
      Performs value' m' (f parsed) (g (value parsed) m')) :
    Performs value' m (out >>= f) ((x >>= g) m) := by
  generalize hresult : x m = result at h
  cases h with
  | ok h =>
    rw [bind_of_ok hresult]
    exact (hmore _ _ rfl h).behind h
  | error h =>
    rw [bind_of_error hresult]
    exact .error h

/-- An error at the tokens left. -/
theorem refuse (hat : At limits room m) (error : TokenKind → Span → SyntaxError) :
    Performs value m (.error ⟨errorAt error m.rest, m.rest, room⟩) (Machine.refuse error m) := by
  obtain ⟨token, tokens, hrest⟩ := hat.ready.exists_cons
  rw [refuse_eq hrest]
  exact .error (hat.refuses _)

/-- It stops what would have come behind it. -/
theorem refused (hat : At limits room m) {x : Action β} {g : β → Action α}
    {error : TokenKind → Span → SyntaxError} (hx : x m = Machine.refuse error m) :
    Performs value m (.error ⟨errorAt error m.rest, m.rest, room⟩) ((x >>= g) m) := by
  obtain ⟨token, tokens, hrest⟩ := hat.ready.exists_cons
  rw [refuse_eq hrest] at hx
  rw [bind_of_error hx]
  exact .error (hat.refuses _)

/-- Completing a tree. -/
theorem built (hat : At limits room m) (expr : Expr) (height : Nat) {a : α}
    (hvalue : value ⟨expr, height, m.rest⟩ = a) :
    Performs value m (Parser.built limits room expr height m.rest)
      ((Machine.built height >>= fun _ => pure a) m) := by
  by_cases hlimit : limits.height < height
  · have hrefused : Machine.built height m = .ok (.error (.tooTall limits.height), m) := by
      rw [Machine.built, get_bind, hat.limits_eq, if_pos hlimit]
      rfl
    rw [Parser.built, if_pos hlimit, bind_of_error hrefused]
    exact .error (hat.refuses _)
  · have hbuilt : Machine.built height m = .ok (.ok (), { m with height }) := by
      rw [Machine.built, get_bind, hat.limits_eq, if_neg hlimit]
      rfl
    have hlater : Later m { m with height } :=
      ⟨rfl, rfl, rfl, Nat.le_refl _, hat.ready.position_lt, Nat.le_refl _⟩
    rw [Parser.built, if_neg hlimit, bind_of_ok hbuilt, ← hvalue]
    exact .ok ⟨hlater, rfl, rfl, rfl⟩

/-- A mark that is asked for. -/
theorem expect (hat : At limits room m) (mark : Mark) {f : List Token → Outcome}
    {g : Unit → Action α}
    (hmore : ∀ m' tokens, Reaches m m' tokens m.height → Performs value m' (f tokens) (g () m')) :
    Performs value m (Parser.expect room mark m.rest >>= f)
      ((Machine.expect mark >>= g) m) := by
  obtain ⟨token, tokens, hrest⟩ := hat.ready.exists_cons
  by_cases hmark : token.kind = .mark mark
  · obtain ⟨kind, span⟩ := token
    obtain rfl : kind = .mark mark := hmark
    obtain ⟨m', hadvance, hreaches⟩ := advance_eq hat.ready hrest (by simp)
    have hexpect : Machine.expect mark m = .ok (.ok (), m') := by
      rw [Machine.expect, bind_of_ok (check_mark hrest)]
      exact hadvance
    rw [hrest, expect_cons, bind_of_ok hexpect]
    exact (hmore m' tokens hreaches).behind hreaches
  · have hhead : ∀ token ∈ m.rest.head?, token.kind ≠ .mark mark := by
      rw [hrest]
      rintro _ ⟨⟩
      exact hmark
    have hexpect : Machine.expect mark m =
        Machine.refuse (.expected (.mark mark)) m := by
      rw [Machine.expect, bind_of_ok (check_of_ne hrest hmark)]
      rfl
    rw [expect_of_ne hhead]
    exact .refused hat hexpect

/-- A name that is asked for. -/
theorem propertyName (hat : At limits room m) {f : String × List Token → Outcome}
    {g : String → Action α}
    (hmore : ∀ name m' tokens, Reaches m m' tokens m.height →
      Performs value m' (f (name, tokens)) (g name m')) :
    Performs value m (Parser.propertyName room m.rest >>= f)
      ((Machine.propertyName >>= g) m) := by
  obtain ⟨token, tokens, hrest⟩ := hat.ready.exists_cons
  cases hname : token.kind.propertyName? with
  | some name =>
    have hproperty := Grammar.PropertyName.propertyName?_eq_some_iff.mp hname
    obtain ⟨m', hadvance, hreaches⟩ := advance_eq hat.ready hrest hproperty.ne_eof
    have hread : Machine.propertyName m = .ok (.ok name, m') := by
      rw [Machine.propertyName, bind_of_ok (current_eq hrest), hname]
      dsimp only
      rw [bind_of_ok hadvance]
      rfl
    rw [hrest, propertyName_cons hproperty, bind_of_ok hread]
    exact (hmore name m' tokens hreaches).behind hreaches
  | none =>
    have hhead : ∀ token ∈ m.rest.head?, token.kind.propertyName? = none := by
      rw [hrest]
      rintro _ ⟨⟩
      exact hname
    have hread : Machine.propertyName m = Machine.refuse (.expected .propertyName) m := by
      rw [Machine.propertyName, bind_of_ok (current_eq hrest), hname]
    rw [propertyName_of_none hhead]
    exact .refused hat hread

end Performs

/-! ## Primaries and member chains -/

variable {nested operand : Action Expr} {read : List Token → Outcome}

/-- A literal or a name is taken out. -/
theorem leaf_eq (h : m.Ready) {span : Span} {kind : TokenKind} {expr : Expr}
    (hrest : m.rest = ⟨kind, span⟩ :: tokens)
    (hkind : (∃ value, kind = .literal value ∧ expr = .literal (.ofLiteral value)) ∨
      ∃ name, kind = .identifier name ∧ expr = .identifier name) :
    ∃ m', leaf m = .ok (.ok expr, m') ∧ Reaches m m' tokens m.height := by
  have hne : kind ≠ .eof := by
    rintro rfl
    simp at hkind
  obtain ⟨m', hbump, hreaches⟩ := bump_eq h hrest hne
  refine ⟨m', ?_, hreaches⟩
  rw [leaf, bind_of_ok hbump]
  obtain ⟨value, rfl, rfl⟩ | ⟨name, rfl, rfl⟩ := hkind <;> rfl

theorem realizes_primary (hnested : Realizes limits room nested read) :
    Realizes limits room (primary nested) (Parser.primary limits room read) := by
  intro m hat
  obtain ⟨⟨kind, span⟩, tokens, hrest⟩ := hat.ready.exists_cons
  rw [primary, bind_of_ok (current_eq hrest)]
  dsimp only
  split
  · next value =>
    obtain ⟨m', hleaf, hreaches⟩ := leaf_eq hat.ready hrest (.inl ⟨value, rfl, rfl⟩)
    rw [hrest, Parser.primary, bind_of_ok hleaf, ← hreaches.rest_eq]
    exact (Performs.built (hat.reaches hreaches) _ 1 rfl).behind hreaches
  · next name =>
    obtain ⟨m', hleaf, hreaches⟩ := leaf_eq hat.ready hrest (.inr ⟨name, rfl, rfl⟩)
    rw [hrest, Parser.primary, bind_of_ok hleaf, ← hreaches.rest_eq]
    exact (Performs.built (hat.reaches hreaches) _ 1 rfl).behind hreaches
  · obtain ⟨m₁, hadvance, hreaches⟩ := advance_eq hat.ready hrest (by simp)
    have hat₁ := hat.reaches hreaches
    rw [hrest, Parser.primary, bind_of_ok hadvance, ← hreaches.rest_eq]
    refine Performs.behind hreaches ?_
    refine (hnested m₁ hat₁).bind fun inner m₂ _ hinner => ?_
    have hat₂ := hat₁.reaches hinner
    rw [← hinner.rest_eq]
    refine Performs.expect hat₂ .rightParen fun m₃ tokens hclose => ?_
    have hready := hat₂.ready.of_later hclose.later
    exact .ok ⟨hready.later_self, rfl, hclose.rest_eq, hclose.height_eq.trans hinner.height_eq⟩
  · next hliteral hname hparen =>
    have hhead : ∀ {kind' span' tokens'}, m.rest = ⟨kind', span'⟩ :: tokens' → kind = kind' := by
      intro kind' span' tokens' heq
      rw [hrest] at heq
      cases heq
      rfl
    rw [Parser.primary]
    · exact .refuse hat .unexpectedToken
    · exact fun value _ _ heq => hliteral value (hhead heq)
    · exact fun name _ _ heq => hname name (hhead heq)
    · exact fun _ _ heq => hparen (hhead heq)

/-! ## Loops -/

/-- A step of a loop does what a step of a reading says: it leaves the state alone if there is
none, and otherwise gives the longer tree with its height. -/
inductive Steps (m : Machine) :
    Option Outcome → Except Crash (Except SyntaxError (Option Partial) × Machine) → Prop where
  /-- there is no step -/
  | none : Steps m none (.ok (.ok none, m))
  /-- there is one -/
  | some {out : Outcome} {result : Except Crash (Except SyntaxError (Option Partial) × Machine)}
      (h : Performs (fun parsed => some (parsed.expr, parsed.height)) m out result) :
      Steps m (some out) result

/-- **Loops.** Steps that do what the steps of a reading say make such a loop, if its bound covers
the tokens left. The end of the input is never taken, so the last round finds no step. -/
theorem performs_extend {step : Parsed → Option Outcome}
    {action : Partial → Action (Option Partial)} (hconsumes : Consumes step)
    (hstep : ∀ m left, At limits room m → m.rest = left.rest →
      Steps m (step left) (action (left.expr, left.height) m))
    {bound : Nat} {left : Parsed} (hat : At limits room m) (hrest : m.rest = left.rest)
    (hheight : m.height = left.height) (hbound : left.rest.length ≤ bound) :
    Performs Parsed.expr m (Parser.extend step left.rest left)
      (extend action bound (left.expr, left.height) m) := by
  induction bound generalizing m left with
  | zero =>
    -- there is a token left, so the bound was no bound
    obtain ⟨token, tokens, hcons⟩ := hat.ready.exists_cons
    rw [← hrest, hcons] at hbound
    cases hbound
  | succ bound ih =>
    rw [extend]
    generalize hout : step left = out, hresult : action (left.expr, left.height) m = result
    have hsteps := hstep m left hat hrest
    rw [hout, hresult] at hsteps
    cases hsteps with
    | none =>
      rw [extend_of_none hout, bind_of_ok hresult]
      exact .ok ⟨hat.ready.later_self, rfl, hrest, hheight⟩
    | some hperforms =>
      rw [hconsumes.extend_eq_bind hout]
      refine Performs.bind (hresult ▸ hperforms) fun longer m' hlonger hreaches => ?_
      have hlt := hconsumes.length_lt left longer (by rw [hout, hlonger])
      exact ih (hat.reaches hreaches) hreaches.rest_eq hreaches.height_eq (by omega)

/-- A loop over the tree completed last. -/
theorem performs_extended {step : Parsed → Option Outcome}
    {action : Partial → Action (Option Partial)} (hconsumes : Consumes step)
    (hstep : ∀ m left, At limits room m → m.rest = left.rest →
      Steps m (step left) (action (left.expr, left.height) m))
    {left : Parsed} (hat : At limits room m) (hrest : m.rest = left.rest)
    (hheight : m.height = left.height) :
    Performs Parsed.expr m (Parser.extend step left.rest left)
      (extended action left.expr m) := by
  rw [extended, get_bind, hheight]
  apply performs_extend hconsumes hstep hat hrest hheight
  rw [← hrest, length_rest]
  exact Nat.sub_le _ _

/-- One step of a member chain. -/
theorem steps_memberStep (hnested : Realizes limits room nested read) {left : Parsed}
    (hat : At limits room m) (hrest : m.rest = left.rest) :
    Steps m (Parser.memberStep limits room read left)
      (memberStep nested (left.expr, left.height) m) := by
  obtain ⟨⟨kind, span⟩, tokens, hcons⟩ := hat.ready.exists_cons
  obtain ⟨expr, height, _⟩ := left
  obtain rfl : m.rest = _ := hrest
  rw [memberStep]
  by_cases hdot : kind = .mark .dot
  · subst hdot
    obtain ⟨m₁, hadvance, hreaches⟩ := advance_eq hat.ready hcons (by simp)
    have hat₁ := hat.reaches hreaches
    rw [bind_of_ok (check_mark hcons), if_pos rfl, bind_of_ok hadvance, hcons, Parser.memberStep]
    refine .some (Performs.behind hreaches ?_)
    rw [← hreaches.rest_eq]
    refine Performs.propertyName hat₁ fun name m₂ tokens hname => ?_
    rw [← hname.rest_eq]
    exact .built (hat₁.reaches hname) _ _ rfl
  rw [bind_of_ok (check_of_ne hcons hdot), if_neg Bool.false_ne_true]
  by_cases hbracket : kind = .mark .leftBracket
  · subst hbracket
    obtain ⟨m₁, hadvance, hreaches⟩ := advance_eq hat.ready hcons (by simp)
    have hat₁ := hat.reaches hreaches
    rw [bind_of_ok (check_mark hcons), if_pos rfl, bind_of_ok hadvance, hcons, Parser.memberStep]
    refine .some (Performs.behind hreaches ?_)
    rw [← hreaches.rest_eq]
    refine (hnested m₁ hat₁).bind fun key m₂ _ hkey => ?_
    have hat₂ := hat₁.reaches hkey
    rw [← hkey.rest_eq]
    refine Performs.expect hat₂ .rightBracket fun m₃ tokens hclose => ?_
    rw [lastHeight_bind, ← hclose.rest_eq, hclose.height_eq, hkey.height_eq]
    exact .built (hat₂.reaches hclose) _ _ rfl
  · rw [bind_of_ok (check_of_ne hcons hbracket), if_neg Bool.false_ne_true, Parser.memberStep]
    dsimp only
    rw [hcons]
    split
    · next heq => cases heq; exact absurd rfl hdot
    · next heq => cases heq; exact absurd rfl hbracket
    · exact .none

theorem realizes_member (hnested : Realizes limits room nested (Parser.expression limits room)) :
    Realizes limits room (member nested)
      (Parser.member limits room (Parser.expression limits room)) := by
  intro m hat
  refine (realizes_primary hnested m hat).bind fun object m' _ hreaches => ?_
  exact performs_extended (consumes_memberStep limits room)
    (fun _ _ => steps_memberStep hnested) (hat.reaches hreaches) hreaches.rest_eq
    hreaches.height_eq

/-! ## Operators -/

/-- One more operator and its operand. -/
theorem steps_connectedStep (strength : Nat) (hoperand : Realizes limits room operand read)
    {left : Parsed} (hat : At limits room m) (hrest : m.rest = left.rest) :
    Steps m (Parser.connectedStep limits room strength read left)
      (connectedStep strength operand (left.expr, left.height) m) := by
  obtain ⟨token, tokens, hcons⟩ := hat.ready.exists_cons
  obtain ⟨expr, height, _⟩ := left
  obtain rfl : m.rest = _ := hrest
  rw [connectedStep, bind_of_ok (current_eq hcons)]
  simp only [Parser.connectedStep, hcons]
  cases hconnective : connectiveAt strength token.kind with
  | none => exact .none
  | some connective =>
    obtain ⟨-, mark, hkind, -⟩ := connectiveAt_eq_some_iff.mp hconnective
    obtain ⟨m₁, hadvance, hreaches⟩ := advance_eq hat.ready hcons (by simp [hkind])
    have hat₁ := hat.reaches hreaches
    dsimp only
    rw [bind_of_ok hadvance, ← hreaches.rest_eq]
    refine .some (Performs.behind hreaches ?_)
    refine (hoperand m₁ hat₁).bind fun right m₂ _ hright => ?_
    rw [lastHeight_bind, ← hright.rest_eq, hright.height_eq]
    exact .built (hat₁.reaches hright) _ _ rfl

theorem realizes_connected (hoperand : Realizes limits room operand (Parser.operand limits room))
    (strength : Nat) :
    Realizes limits room (connected operand strength)
      (Parser.connected limits room (Parser.operand limits room) strength) := by
  induction strength with
  | zero => exact hoperand
  | succ strength ih =>
    intro m hat
    refine (ih m hat).bind fun left m' _ hreaches => ?_
    exact performs_extended (consumes_connectedStep limits room strength)
      (fun _ _ => steps_connectedStep strength ih) (hat.reaches hreaches) hreaches.rest_eq
      hreaches.height_eq

theorem realizes_conditional (hnested : Realizes limits room nested read)
    (hoperand : Realizes limits room operand (Parser.operand limits room)) :
    Realizes limits room (conditional nested operand)
      (Parser.conditional limits room read (Parser.operand limits room)) := by
  intro m hat
  refine (realizes_connected hoperand strengths m hat).bind fun test m₁ _ htest => ?_
  have hat₁ := hat.reaches htest
  obtain ⟨⟨kind, span⟩, tokens, hcons⟩ := hat₁.ready.exists_cons
  rw [lastHeight_bind, htest.height_eq, ← htest.rest_eq, hcons]
  by_cases hquestion : kind = .mark .question
  · subst hquestion
    obtain ⟨m₂, hadvance, hreaches⟩ := advance_eq hat₁.ready hcons (by simp)
    have hat₂ := hat₁.reaches hreaches
    rw [bind_of_ok (check_mark hcons), if_pos rfl, bind_of_ok hadvance]
    refine Performs.behind hreaches ?_
    dsimp only
    rw [← hreaches.rest_eq]
    refine (hnested m₂ hat₂).bind fun consequent m₃ _ hconsequent => ?_
    have hat₃ := hat₂.reaches hconsequent
    rw [lastHeight_bind, hconsequent.height_eq, ← hconsequent.rest_eq]
    refine Performs.expect hat₃ .colon fun m₄ tokens hcolon => ?_
    have hat₄ := hat₃.reaches hcolon
    rw [← hcolon.rest_eq]
    refine (hnested m₄ hat₄).bind fun alternate m₅ _ halternate => ?_
    rw [lastHeight_bind, halternate.height_eq, ← halternate.rest_eq]
    exact .built (hat₄.reaches halternate) _ _ rfl
  · rw [bind_of_ok (check_of_ne hcons hquestion), if_neg Bool.false_ne_true]
    split
    · next heq => cases heq; exact absurd rfl hquestion
    · exact .ok ⟨hat₁.ready.later_self, rfl, htest.rest_eq, htest.height_eq⟩

/-! ## Levels -/

/-- The state in which a level is entered. -/
def deeper (m : Machine) : Machine := { m with depth := m.depth + 1 }

theorem descend_eq (h : m.depth < m.limits.depth) : descend m = .ok (.ok (), m.deeper) := by
  rw [descend, bind_of_ok (modify_apply _ m), get_bind, if_neg (by dsimp only; omega)]
  rfl

theorem descend_eq_tooDeep (h : m.limits.depth ≤ m.depth) :
    descend m = .ok (.error (.tooDeep m.limits.depth), m.deeper) := by
  rw [descend, bind_of_ok (modify_apply _ m), get_bind, if_pos (by dsimp only; omega)]
  rfl

theorem ascend_eq (h : m.depth ≠ 0) :
    ascend m = .ok (.ok (), { m with depth := m.depth - 1 }) := by
  rw [ascend, get_bind, if_neg h]
  rfl

/-- A level may be entered and not left. -/
theorem Later.of_deeper (h : Later m.deeper m') : Later m m' :=
  ⟨h.limits_eq, h.size_eq, h.back_eq, h.position_le, h.position_lt,
    Nat.le_of_succ_le h.depth_le⟩

/-- **One level deeper**, if there is room for it. -/
theorem realizes_enclosed {action : Action Expr} (h : Realizes limits room action read) :
    Realizes limits (room + 1) (enclosed action) read := by
  intro m hat
  obtain ⟨hready, hlimits, hroom⟩ := hat
  have hat' : At limits room m.deeper :=
    ⟨⟨hready.position_lt, hready.last_eof⟩, hlimits, by dsimp only [deeper]; omega⟩
  rw [enclosed, bind_of_ok (descend_eq (by rw [hlimits]; omega))]
  have hperforms := h m.deeper hat'
  generalize hresult : action m.deeper = result at hperforms
  change Performs _ _ (read m.rest) _ at hperforms
  generalize read m.rest = out at hperforms ⊢
  cases hperforms with
  | error hrefuses =>
    -- the level stays entered
    rw [bind_of_error hresult]
    exact .error ⟨hrefuses.later.of_deeper, hrefuses.rest_eq, hrefuses.room_eq⟩
  | @ok parsed m' hreaches =>
    have hdepth : m'.depth = m.depth + 1 := hreaches.depth_eq
    have hlater := hreaches.later.of_deeper
    rw [bind_of_ok hresult, bind_of_ok (ascend_eq (by omega))]
    refine .ok ⟨⟨hlater.limits_eq, hlater.size_eq, hlater.back_eq, hlater.position_le,
      hlater.position_lt, ?_⟩, ?_, hreaches.rest_eq, hreaches.height_eq⟩
    · dsimp only; omega
    · dsimp only; omega

/-- Without room there is only the refusal. -/
theorem realizes_enclosed_zero (action : Action Expr) :
    Realizes limits 0 (enclosed action) (tooDeep limits) := by
  intro m hat
  obtain ⟨hready, hlimits, hroom⟩ := hat
  rw [enclosed, bind_of_error (descend_eq_tooDeep (by rw [hlimits]; omega)), hlimits]
  refine .error ⟨⟨rfl, rfl, rfl, Nat.le_refl _, hready.position_lt, Nat.le_succ _⟩, rfl, ?_⟩
  rw [deeper, hlimits]
  dsimp only
  omega

/-- An operator in front of an operand. -/
theorem performs_negated {op : UnaryOp} {mark : Mark} {span : Span} (hat : At limits room m)
    (hcons : m.rest = ⟨.mark mark, span⟩ :: tokens)
    (hoperand : Realizes limits room (enclosed operand) read) :
    Performs Parsed.expr m
      (read tokens >>= fun inner =>
        Parser.built limits room (.unary op inner.expr) (inner.height + 1) inner.rest)
      (negated op operand m) := by
  obtain ⟨m₁, hadvance, hreaches⟩ := advance_eq hat.ready hcons (by simp)
  have hat₁ := hat.reaches hreaches
  rw [negated, bind_of_ok hadvance, ← hreaches.rest_eq]
  refine Performs.behind hreaches ?_
  refine (hoperand m₁ hat₁).bind fun inner m₂ _ hinner => ?_
  rw [lastHeight_bind, hinner.height_eq, ← hinner.rest_eq]
  exact .built (hat₁.reaches hinner) _ _ rfl

theorem realizes_prefixed (hnested : Realizes limits room nested (Parser.expression limits room))
    (hoperand : Realizes limits room (enclosed operand) read) :
    Realizes limits room (prefixed nested operand)
      (Parser.prefixed limits room (Parser.expression limits room) read) := by
  intro m hat
  obtain ⟨⟨kind, span⟩, tokens, hcons⟩ := hat.ready.exists_cons
  rw [prefixed, bind_of_ok (current_eq hcons)]
  dsimp only
  split
  · rw [hcons, Parser.prefixed]
    exact performs_negated hat hcons hoperand
  · rw [hcons, Parser.prefixed]
    exact performs_negated hat hcons hoperand
  · next hbang hminus =>
    rw [Parser.prefixed.eq_def, hcons]
    split
    · next heq => cases heq; exact absurd rfl hbang
    · next heq => cases heq; exact absurd rfl hminus
    · rw [← hcons]
      exact realizes_member hnested m hat

/-- **The recursion.** With bounds that cover the room, expressions and operands are read as the
grammar says. -/
theorem realizes_expression (limits : Limits) (room : Nat) :
    (∀ bound, 2 * room < bound →
      Realizes limits room (expression bound) (Parser.expression limits room)) ∧
    ∀ bound, 2 * room + 1 < bound →
      Realizes limits room (Machine.operand bound) (Parser.operand limits room) := by
  induction room with
  | zero =>
    have hexpression : ∀ bound, 2 * 0 < bound →
        Realizes limits 0 (expression bound) (Parser.expression limits 0) := by
      intro bound hbound
      obtain ⟨bound, rfl⟩ : ∃ n, bound = n + 1 := ⟨bound - 1, by omega⟩
      exact realizes_enclosed_zero _
    refine ⟨hexpression, ?_⟩
    intro bound hbound
    obtain ⟨bound, rfl⟩ : ∃ n, bound = n + 1 := ⟨bound - 1, by omega⟩
    rw [operand_zero]
    exact realizes_prefixed (hexpression bound (by omega)) (realizes_enclosed_zero _)
  | succ room ih =>
    obtain ⟨ihExpression, ihOperand⟩ := ih
    have hexpression : ∀ bound, 2 * (room + 1) < bound →
        Realizes limits (room + 1) (expression bound) (Parser.expression limits (room + 1)) := by
      intro bound hbound
      obtain ⟨bound, rfl⟩ : ∃ n, bound = n + 1 := ⟨bound - 1, by omega⟩
      rw [expression_succ]
      exact realizes_enclosed (realizes_conditional (ihExpression bound (by omega))
        (ihOperand bound (by omega)))
    refine ⟨hexpression, ?_⟩
    intro bound hbound
    obtain ⟨bound, rfl⟩ : ∃ n, bound = n + 1 := ⟨bound - 1, by omega⟩
    rw [operand_succ]
    exact realizes_prefixed (hexpression bound (by omega))
      (realizes_enclosed (ihOperand bound (by omega)))

end ScreenedExpr.Parser.Machine
