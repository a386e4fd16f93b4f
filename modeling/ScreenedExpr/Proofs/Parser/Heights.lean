import ScreenedExpr.Proofs.Parser.Machine
import ScreenedExpr.Proofs.Parser.Pending

/-!
# Heights are counted exactly

The parser has one register for heights. Every part that it reads writes it anew, while the loops
and the branches of a conditional keep heights of their own, and no part looks at a tree to learn
how high it is. Still the register behind a result is the height of the tree returned. And a tree
is refused as too tall exactly where the next node to be completed would be higher than the limit
while its children are not.

The refusal is compared with the tokens alone: with the phrases that are pending in front of a
node, and with the tokens that the node is made of. From there to a failure, the parser is led
through the pending phrases and meets the node. Back from a failure, each construct adds what it
has read to the tokens in front.

* `Overgrown` — a failure at a node that is too tall, though its children are not;
* `fails_of_builds` — such a node fails;
* `measures_read` — no other node does;
* `Machine.part_measured` — the register and the refusals of a machine, part by part.
-/

namespace ScreenedExpr

/-- The trees directly below the root. -/
def Expr.children : Expr → List Expr
  | literal _ | identifier _ => []
  | member object property _ => [object, property]
  | binary _ left right | logical _ left right => [left, right]
  | unary _ operand => [operand]
  | conditional test consequent alternate => [test, consequent, alternate]

namespace Parser

open Grammar

variable {limits : Limits} {room levels left limit n : Nat} {phrase inner last : Phrase}
variable {tokens own rest : List Token} {failure : Failure} {node : Expr}

theorem Connective.children_node (connective : Connective) (left right : Expr) :
    (connective.node left right).children = [left, right] := by
  cases connective <;> rfl

/-! ## A node that is too tall fails -/

/-- **A node that is too tall fails** when its children are read. -/
theorem fails_of_builds {kinds : List TokenKind} (h : Builds inner n kinds node last)
    (hown : own.map Token.kind = kinds) (hn : n ≤ room) (hends : Ends last rest)
    (hchildren : ∀ child ∈ node.children, child.height ≤ limits.height)
    (htall : limits.height < node.height) :
    Fails limits ⟨.tooTall limits.height, rest, room⟩ inner (room + 1) (own ++ rest) := by
  -- the children are phrases within the limits, so they are read; then only the height is tested
  cases h with
  | literal value =>
    obtain ⟨⟨_, span⟩, rfl, rfl⟩ := List.map_eq_singleton_iff.mp hown
    exact built_of_lt htall rest
  | identifier name =>
    obtain ⟨⟨_, span⟩, rfl, rfl⟩ := List.map_eq_singleton_iff.mp hown
    exact built_of_lt htall rest
  | dot hobject hname =>
    obtain ⟨inside, span, _, rfl, hinside, hlast⟩ := map_kind_eq_append_cons hown
    obtain ⟨token, rfl, rfl⟩ := List.map_eq_singleton_iff.mp hlast
    have hread := complete hobject room inside (⟨.mark .dot, span⟩ :: token :: rest) hn
      (hchildren _ (by simp [Expr.dot, Expr.children])) hinside
    have hnode := hread.dot_eq_built hname
    rw [built_of_lt htall] at hnode
    rw [List.append_assoc]
    exact hnode
  | index hobject hkey =>
    obtain ⟨inside, span, _, rfl, hinside, hlast⟩ := map_kind_eq_append_cons hown
    obtain ⟨keyUsed, span', rfl, hkeyUsed⟩ := map_kind_eq_concat hlast
    obtain ⟨room, rfl⟩ : ∃ r, room = r + 1 := ⟨room - 1, by omega⟩
    simp only [Expr.children, List.forall_mem_cons] at hchildren
    have hread := complete hobject (room + 1) inside
      (⟨.mark .leftBracket, span⟩ :: (keyUsed ++ ⟨.mark .rightBracket, span'⟩ :: rest)) (by omega)
      hchildren.1 hinside
    have hreadKey := complete hkey room keyUsed (⟨.mark .rightBracket, span'⟩ :: rest) (by omega)
      hchildren.2.1 hkeyUsed
    have hnode := hread.index_eq_built hreadKey
    rw [built_of_lt htall] at hnode
    rw [List.append_assoc, List.cons_append, List.append_assoc]
    exact hnode
  | not hoperand =>
    obtain ⟨span, more, rfl, hmore⟩ := map_kind_eq_cons hown
    obtain ⟨room, rfl⟩ : ∃ r, room = r + 1 := ⟨room - 1, by omega⟩
    have hread := complete hoperand room more rest (by omega)
      (hchildren _ (by simp [Expr.children])) hmore
    rw [List.cons_append, Fails, read, hread.not_eq_built hends, built_of_lt htall]
  | negate hoperand =>
    obtain ⟨span, more, rfl, hmore⟩ := map_kind_eq_cons hown
    obtain ⟨room, rfl⟩ : ∃ r, room = r + 1 := ⟨room - 1, by omega⟩
    have hread := complete hoperand room more rest (by omega)
      (hchildren _ (by simp [Expr.children])) hmore
    rw [List.cons_append, Fails, read, hread.negate_eq_built hends, built_of_lt htall]
  | @connect _ _ _ _ _ _ _ connective mark hfirst hop hmark hsecond =>
    obtain ⟨inside, span, rightUsed, rfl, hinside, hrightUsed⟩ := map_kind_eq_append_cons hown
    rw [connective.children_node] at hchildren
    simp only [List.forall_mem_cons] at hchildren
    have hconnective := connectiveAt_eq_some_iff.mpr ⟨hop, mark, rfl, hmark⟩
    have hread := complete hfirst room inside (⟨.mark mark, span⟩ :: (rightUsed ++ rest))
      (by omega) hchildren.1 hinside
    have hreadRight := complete hsecond room rightUsed rest (by omega) hchildren.2.1 hrightUsed
    have hnode := hread.connect_eq_built hconnective hreadRight hends
    rw [built_of_lt htall] at hnode
    rw [List.append_assoc, List.cons_append]
    exact hnode
  | conditional hfirst hsecond hthird =>
    obtain ⟨inside, span, _, rfl, hinside, hbranches⟩ := map_kind_eq_append_cons hown
    obtain ⟨thenUsed, span', elseUsed, rfl, hthenUsed, helseUsed⟩ :=
      map_kind_eq_append_cons hbranches
    obtain ⟨room, rfl⟩ : ∃ r, room = r + 1 := ⟨room - 1, by omega⟩
    simp only [Expr.children, List.forall_mem_cons] at hchildren
    have hread := complete hfirst (room + 1) inside (⟨.mark .question, span⟩ ::
      (thenUsed ++ ⟨.mark .colon, span'⟩ :: (elseUsed ++ rest))) (by omega) hchildren.1 hinside
    have hreadThen := complete hsecond room thenUsed
      (⟨.mark .colon, span'⟩ :: (elseUsed ++ rest)) (by omega) hchildren.2.1 hthenUsed
    have hreadElse := complete hthird room elseUsed rest (by omega) hchildren.2.2.1 helseUsed
    rw [List.append_assoc, List.cons_append, List.append_assoc, List.cons_append, Fails,
      read_expression, hread.conditional_eq_built hreadThen hreadElse hends, built_of_lt htall]

/-! ## No other node does -/

/-- **A failure at a node that is too tall**: it is the next to be completed where the parser
stands, its children are within the limit, and it is not. -/
def Overgrown (limits : Limits) (phrase : Phrase) (levels : Nat) (tokens : List Token)
    (failure : Failure) : Prop :=
  failure.error = .tooTall limits.height ∧
    ∃ node, Completes limits phrase levels tokens node failure.rest ∧
      (∀ child ∈ node.children, child.height ≤ limits.height) ∧ limits.height < node.height

/-- A reading says that a tree is too tall only at such a node. -/
def Measures (limits : Limits) (phrase : Phrase) (levels : Nat)
    (read : List Token → Outcome) : Prop :=
  ∀ tokens failure limit, read tokens = .error failure → failure.error = .tooTall limit →
    Overgrown limits phrase levels tokens failure

/-- An error at the first token does not say so. -/
theorem errorAt_ne_tooTall {error : TokenKind → Span → SyntaxError}
    (herror : ∀ kind span, error kind span ≠ .tooTall limit) (tokens : List Token) :
    errorAt error tokens ≠ .tooTall limit := by
  cases tokens with
  | nil => simp [errorAt]
  | cons token more =>
    rw [errorAt]
    split
    · simp
    · exact herror _ _

theorem expect_ne_tooTall {mark : Mark} (h : expect room mark tokens = .error failure) :
    failure.error ≠ .tooTall limit := by
  obtain rfl := expect_eq_error h
  exact errorAt_ne_tooTall (by simp) _

theorem propertyName_ne_tooTall (h : propertyName room tokens = .error failure) :
    failure.error ≠ .tooTall limit := by
  obtain rfl := propertyName_eq_error h
  exact errorAt_ne_tooTall (by simp) _

namespace Overgrown

variable {phrase' : Phrase} {levels' : Nat}

/-- The node itself, with nothing pending. -/
theorem of_built (own : List Token) {height : Nat}
    (h : built limits room node height rest = .error failure)
    (hheight : height = node.height) (hbuilds : Builds phrase n (own.map Token.kind) node last)
    (hn : n < levels) (hends : Ends last rest)
    (hchildren : ∀ child ∈ node.children, child.height ≤ limits.height) :
    Overgrown limits phrase levels (own ++ rest) failure := by
  rw [built] at h
  split at h
  · next hlimit =>
    cases h
    have hcompletes : Completes limits phrase levels (own ++ rest) node rest :=
      ⟨[], own, phrase, levels, n, last, rfl, .here, hbuilds, hn, hends⟩
    exact ⟨rfl, node, hcompletes, hchildren, hheight ▸ hlimit⟩
  · cases h

/-- What a phrase opens with may be more than what is pending in it. -/
theorem behind (h : Overgrown limits phrase levels tokens failure) (used : List Token)
    (hopens : ∀ {inner left kinds}, Opens limits inner left phrase levels kinds →
      Opens limits inner left phrase' levels' (used.map Token.kind ++ kinds)) :
    Overgrown limits phrase' levels' (used ++ tokens) failure := by
  obtain ⟨herror, node, ⟨before, own, inner, left, n, last, rfl, hbefore, hnode⟩, htall⟩ := h
  refine ⟨herror, node, ⟨used ++ before, own, inner, left, n, last, ?_, ?_, hnode⟩, htall⟩
  · rw [List.append_assoc]
  · rw [List.map_append]
    exact hopens hbefore

theorem mono (h : Overgrown limits phrase levels tokens failure)
    (hopens : ∀ {inner left kinds}, Opens limits inner left phrase levels kinds →
      Opens limits inner left phrase' levels' kinds) :
    Overgrown limits phrase' levels' tokens failure :=
  h.behind [] hopens

end Overgrown

section constructs

variable {nested : List Token → Outcome}

theorem measures_primary (hnested : Measures limits .expression room nested) :
    Measures limits .primary (room + 1) (primary limits room nested) := by
  intro tokens failure limit h htall
  rw [primary.eq_def] at h
  split at h
  · next value span rest =>
    exact .of_built [⟨.literal value, span⟩] h rfl (.literal value) (Nat.succ_pos room)
      (fun _ _ => trivial) (by simp [Expr.children])
  · next name span rest =>
    exact .of_built [⟨.identifier name, span⟩] h rfl (.identifier name) (Nat.succ_pos room)
      (fun _ _ => trivial) (by simp [Expr.children])
  · next span rest =>
    obtain hinner | ⟨inner, -, hmore⟩ := bind_eq_error h
    · exact (hnested _ _ _ hinner htall).behind [⟨.mark .leftParen, span⟩] .parenthesized
    obtain hclose | ⟨_, -, hdone⟩ := bind_eq_error hmore
    · exact absurd htall (expect_ne_tooTall hclose)
    · cases hdone
  · cases h
    exact absurd htall (errorAt_ne_tooTall (by simp) _)

/-- A member step fails inside the key, or at the member. -/
theorem overgrown_memberStep (hsound : Sound limits .expression room nested)
    (hnested : Measures limits .expression room nested) {object : Parsed}
    (hobject : Accounts limits .chain (room + 1) tokens object)
    (h : memberStep limits room nested object = some (.error failure))
    (htall : failure.error = .tooTall limit) :
    Overgrown limits .chain (room + 1) tokens failure := by
  obtain ⟨used, rfl, hfits, hheight⟩ := hobject.exists_fits
  have ⟨n, hderives, hn, hlimit⟩ := hfits
  rw [memberStep] at h
  split at h
  · next span rest hrest =>
    rw [hrest]
    obtain hname | ⟨⟨name, after⟩, hname, hbuilt⟩ := bind_eq_error (Option.some.inj h)
    · exact absurd htall (propertyName_ne_tooTall hname)
    obtain ⟨token, rfl, hproperty⟩ := propertyName_eq_ok hname
    have hbuilds : Builds .chain n ((used ++ [⟨.mark .dot, span⟩, token]).map Token.kind)
        (.dot object.expr name) .primary := by
      simpa using Builds.dot hderives hproperty
    -- the name is a child too, but no leaf is higher than the object
    have hleaf := Nat.le_trans object.expr.one_le_height hlimit
    have htree : Overgrown limits .chain (room + 1) (_ ++ after) failure :=
      .of_built _ hbuilt (by rw [hheight, Expr.height_dot]) hbuilds hn (fun _ _ => trivial)
        (by simp [Expr.dot, Expr.children, Expr.height, hlimit, hleaf])
    simpa using htree
  · next span rest hrest =>
    rw [hrest]
    obtain hkey | ⟨key, hkey, hmore⟩ := bind_eq_error (Option.some.inj h)
    · have hinside := (hnested _ _ _ hkey htall).behind (used ++ [⟨.mark .leftBracket, span⟩])
        fun hopens => by simpa using Opens.key hfits hopens
      simpa using hinside
    obtain hclose | ⟨after, hclose, hbuilt⟩ := bind_eq_error hmore
    · exact absurd htall (expect_ne_tooTall hclose)
    obtain ⟨keyUsed, rfl, ⟨m, hkeyDerives, hm, hkeyLimit⟩, hkeyHeight⟩ :=
      (hsound _ _ hkey).exists_fits
    obtain ⟨span', hspan⟩ := expect_eq_ok hclose
    have hbuilds : Builds .chain (max n (m + 1)) (List.map Token.kind
        (used ++ ⟨.mark .leftBracket, span⟩ :: (keyUsed ++ [⟨.mark .rightBracket, span'⟩])))
        (.member object.expr key.expr true) .primary := by
      simpa using Builds.index hderives hkeyDerives
    have htree : Overgrown limits .chain (room + 1) (_ ++ after) failure :=
      .of_built _ hbuilt (by rw [hheight, hkeyHeight]; rfl) hbuilds (by omega)
        (fun _ _ => trivial) (by simp [Expr.children, hlimit, hkeyLimit])
    simpa [hspan] using htree
  · cases h

theorem measures_member (hsound : Sound limits .expression room nested)
    (hnested : Measures limits .expression room nested) :
    Measures limits .chain (room + 1) (member limits room nested) := by
  intro tokens failure limit h htall
  obtain hobject | ⟨object, hobject, hmore⟩ := bind_eq_error h
  · exact (measures_primary hnested _ _ _ hobject htall).mono .ofPrimary
  · have hstart := (sound_primary hsound _ _ hobject).mono .ofPrimary
    obtain ⟨last, hlast, hstep⟩ :=
      extend_eq_error (fun _ _ => sound_memberStep hsound) hstart hmore
    exact overgrown_memberStep hsound hnested hlast hstep htall

/-- An operator in front fails inside its operand, or at the node of both. -/
theorem overgrown_unary {op : UnaryOp} {mark : Mark} {span : Span}
    {operand : List Token → Outcome}
    (hopens : ∀ {inner left kinds}, Opens limits inner left .operand room kinds →
      Opens limits inner left .operand (room + 1) (.mark mark :: kinds))
    (hbuilds : ∀ {n kinds e}, Derives .operand n kinds e →
      Builds .operand (n + 1) (.mark mark :: kinds) (.unary op e) .operand)
    (hsound : Sound limits .operand room operand) (hfinishes : Finishes .operand operand)
    (hoperand : Measures limits .operand room operand)
    (h : (operand rest >>= fun inner =>
      built limits room (.unary op inner.expr) (inner.height + 1) inner.rest) = .error failure)
    (htall : failure.error = .tooTall limit) :
    Overgrown limits .operand (room + 1) (⟨.mark mark, span⟩ :: rest) failure := by
  obtain hinner | ⟨inner, hinner, hbuilt⟩ := bind_eq_error h
  · exact (hoperand _ _ _ hinner htall).behind [⟨.mark mark, span⟩] hopens
  obtain ⟨used, rfl, ⟨n, hderives, hn, hlimit⟩, hheight⟩ := (hsound _ _ hinner).exists_fits
  exact .of_built (⟨.mark mark, span⟩ :: used) hbuilt (by rw [hheight]; rfl)
    (hbuilds hderives) (Nat.succ_lt_succ hn) (hfinishes _ inner hinner)
    (by simp [Expr.children, hlimit])

theorem measures_prefixed {operand : List Token → Outcome}
    (hsound : Sound limits .expression room nested)
    (hnested : Measures limits .expression room nested)
    (hsoundOperand : Sound limits .operand room operand) (hfinishes : Finishes .operand operand)
    (hoperand : Measures limits .operand room operand) :
    Measures limits .operand (room + 1) (prefixed limits room nested operand) := by
  intro tokens failure limit h htall
  rw [prefixed.eq_def] at h
  split at h
  · exact overgrown_unary .not .not hsoundOperand hfinishes hoperand h htall
  · exact overgrown_unary .negate .negate hsoundOperand hfinishes hoperand h htall
  · exact (measures_member hsound hnested _ _ _ h htall).mono .ofChain

/-- A step between operands fails inside the right one, or at the operator. -/
theorem overgrown_connectedStep {s : Nat} {operand : List Token → Outcome}
    (hsound : Sound limits (.connected s) (room + 1) operand)
    (hfinishes : Finishes (.connected s) operand)
    (hoperand : Measures limits (.connected s) (room + 1) operand) {first : Parsed}
    (hfirst : Accounts limits (.connected (s + 1)) (room + 1) tokens first)
    (h : connectedStep limits room s operand first = some (.error failure))
    (htall : failure.error = .tooTall limit) :
    Overgrown limits (.connected (s + 1)) (room + 1) tokens failure := by
  obtain ⟨used, rfl, hfits, hheight⟩ := hfirst.exists_fits
  rw [connectedStep] at h
  split at h
  · cases h
  · next token rest hrest =>
    rw [hrest]
    split at h
    · cases h
    · next connective hconnective =>
      obtain ⟨hop, mark, hkind, hmark⟩ := connectiveAt_eq_some_iff.mp hconnective
      obtain hright | ⟨right, hright, hbuilt⟩ := bind_eq_error (Option.some.inj h)
      · have hinside := (hoperand _ _ _ hright htall).behind (used ++ [token])
          fun hopens => by simpa [hkind] using Opens.right hfits hop hmark hopens
        simpa using hinside
      obtain ⟨n, hderives, hn, hlimit⟩ := hfits
      obtain ⟨rightUsed, rfl, ⟨m, hrightDerives, hm, hrightLimit⟩, hrightHeight⟩ :=
        (hsound _ _ hright).exists_fits
      have hbuilds : Builds (.connected (s + 1)) (max n m)
          ((used ++ token :: rightUsed).map Token.kind) (connective.node first.expr right.expr)
          (.connected s) := by
        simpa [hkind] using Builds.connect hderives hop hmark hrightDerives
      have htree : Overgrown limits (.connected (s + 1)) (room + 1) (_ ++ right.rest) failure :=
        .of_built _ hbuilt (by rw [hheight, hrightHeight, connective.height_node]) hbuilds
          (by omega) (hfinishes _ right hright)
          (by simp [connective.children_node, hlimit, hrightLimit])
      simpa using htree

theorem measures_connected {operand : List Token → Outcome}
    (hsound : Sound limits .operand (room + 1) operand)
    (hfinishes : ∀ s, Finishes (.connected s) (connected limits room operand s))
    (hoperand : Measures limits .operand (room + 1) operand) (s : Nat) :
    Measures limits (.connected s) (room + 1) (connected limits room operand s) := by
  induction s with
  | zero => exact fun _ _ _ h htall => (hoperand _ _ _ h htall).mono .ofOperand
  | succ s ih =>
    intro tokens failure limit h htall
    obtain hfirst | ⟨first, hfirst, hmore⟩ := bind_eq_error h
    · exact (ih _ _ _ hfirst htall).mono .weaken
    · have hstart := (sound_connected hsound s _ _ hfirst).mono .weaken
      obtain ⟨last, hlast, hstep⟩ := extend_eq_error
        (fun _ _ => sound_connectedStep (sound_connected hsound s)) hstart hmore
      exact overgrown_connectedStep (sound_connected hsound s) (hfinishes s) ih hlast hstep htall

theorem measures_conditional {operand : List Token → Outcome}
    (hsound : Sound limits .expression room nested) (hfinishes : Finishes .expression nested)
    (hnested : Measures limits .expression room nested)
    (hsoundOperand : Sound limits .operand (room + 1) operand)
    (hoperand : Measures limits (.connected strengths) (room + 1)
      (connected limits room operand strengths)) :
    Measures limits .expression (room + 1) (conditional limits room nested operand) := by
  intro tokens failure limit h htall
  obtain htest | ⟨test, htest, hbranches⟩ := bind_eq_error h
  · exact (hoperand _ _ _ htest htall).mono .ofConnected
  obtain ⟨used, rfl, hfits, hheight⟩ :=
    (sound_connected hsoundOperand strengths _ _ htest).exists_fits
  split at hbranches
  · next span rest hrest =>
    rw [hrest]
    obtain hconsequent | ⟨consequent, hconsequent, hmore⟩ := bind_eq_error hbranches
    · have hinside := (hnested _ _ _ hconsequent htall).behind (used ++ [⟨.mark .question, span⟩])
        fun hopens => by simpa using Opens.consequent hfits hopens
      simpa using hinside
    obtain ⟨thenUsed, rfl, hthenFits, hthenHeight⟩ := (hsound _ _ hconsequent).exists_fits
    obtain hcolon | ⟨after, hcolon, hlast⟩ := bind_eq_error hmore
    · exact absurd htall (expect_ne_tooTall hcolon)
    obtain ⟨span', hspan⟩ := expect_eq_ok hcolon
    rw [hspan]
    obtain halternate | ⟨alternate, halternate, hbuilt⟩ := bind_eq_error hlast
    · have hinside := (hnested _ _ _ halternate htall).behind
        (used ++ ⟨.mark .question, span⟩ :: (thenUsed ++ [⟨.mark .colon, span'⟩]))
        fun hopens => by simpa using Opens.alternate hfits hthenFits hopens
      simpa using hinside
    obtain ⟨n, hderives, hn, hlimit⟩ := hfits
    obtain ⟨m, hthen, hm, hthenLimit⟩ := hthenFits
    obtain ⟨elseUsed, rfl, ⟨p, helse, hp, helseLimit⟩, helseHeight⟩ :=
      (hsound _ _ halternate).exists_fits
    have hbuilds : Builds .expression (max n (max (m + 1) (p + 1))) (List.map Token.kind
        (used ++ ⟨.mark .question, span⟩ :: (thenUsed ++ ⟨.mark .colon, span'⟩ :: elseUsed)))
        (.conditional test.expr consequent.expr alternate.expr) .expression := by
      simpa using Builds.conditional hderives hthen helse
    have htree : Overgrown limits .expression (room + 1) (_ ++ alternate.rest) failure :=
      .of_built _ hbuilt (by rw [hheight, hthenHeight, helseHeight]; rfl) hbuilds (by omega)
        (hfinishes _ alternate halternate)
        (by simp [Expr.children, hlimit, hthenLimit, helseLimit])
    simpa using htree
  · cases hbranches

end constructs

theorem measures_tooDeep (phrase : Phrase) (levels : Nat) :
    Measures limits phrase levels (tooDeep limits) :=
  fun _ _ _ h htall => by cases h; cases htall

/-- **Only nodes that are too tall are refused as such**, in every stratum and with any levels. -/
theorem measures_read (limits : Limits) (phrase : Phrase) (levels : Nat) :
    Measures limits phrase levels (read limits phrase levels) := by
  induction levels generalizing phrase with
  | zero => cases phrase <;> exact measures_tooDeep _ 0
  | succ room ih =>
    -- operands of this level come first: their own operands and all nested expressions have a
    -- level less, and everything else of this level is made of operands
    have hsound := sound_read limits .expression room
    have hnested := ih .expression
    have hoperand : Measures limits .operand (room + 1) (read limits .operand (room + 1)) := by
      rw [read_operand_succ]
      exact measures_prefixed hsound hnested (sound_read limits .operand room)
        (ends_read limits .operand room) (ih .operand)
    have hconnected := measures_connected (sound_read limits .operand (room + 1))
      (fun s => ends_read limits (.connected s) (room + 1)) hoperand
    rw [read_expression] at hsound hnested
    cases phrase with
    | primary => exact measures_primary hnested
    | chain => exact measures_member hsound hnested
    | operand => exact hoperand
    | connected s => exact hconnected s
    | expression =>
      have hfinishes := ends_read limits .expression room
      rw [read_expression] at hfinishes
      exact measures_conditional hsound hfinishes hnested (sound_read limits .operand (room + 1))
        (hconnected strengths)

/-- **A tree is refused as too tall** exactly at a node that is too tall though its children are
not, if everything in front of it is completed. -/
theorem read_eq_tooTall_iff (limits : Limits) (phrase : Phrase) (levels limit : Nat)
    (tokens rest : List Token) :
    (∃ room, read limits phrase levels tokens = .error ⟨.tooTall limit, rest, room⟩) ↔
      limit = limits.height ∧ ∃ node, Completes limits phrase levels tokens node rest ∧
        (∀ child ∈ node.children, child.height ≤ limits.height) ∧ limits.height < node.height := by
  constructor
  · rintro ⟨room, h⟩
    obtain ⟨herror, htree⟩ := measures_read limits phrase levels tokens _ limit h rfl
    exact ⟨SyntaxError.tooTall.inj herror, htree⟩
  · rintro ⟨rfl, node, ⟨before, own, inner, left, n, last, rfl, hopens, hbuilds, hn, hends⟩,
      hchildren, htall⟩
    obtain ⟨room, rfl⟩ : ∃ room, left = room + 1 := ⟨left - 1, by omega⟩
    have hnode := fails_of_builds hbuilds rfl (Nat.le_of_lt_succ hn) hends hchildren htall
    exact ⟨room, fails_of_opens hopens rfl hnode rfl⟩

end Parser

/-! ## The register of a machine -/

namespace Parser.Machine

open Grammar

variable {m : Machine} {limits : Limits} {room bound : Nat}

/-- The parts that a machine reads. -/
inductive Part where
  /-- a literal, a name, or an expression in parentheses -/
  | primary
  /-- a primary and the member steps behind it -/
  | member
  /-- a member chain, or an operator and an operand behind it -/
  | operand
  /-- operands connected by operators of strengths below the given one -/
  | connected (strength : Nat)
  /-- connected operands, or a conditional that they are the test of -/
  | conditional
  /-- the same one level deeper -/
  | expression

namespace Part

/-- How a machine reads a part. The bound is for the recursion. -/
def action (bound : Nat) : Part → Action Expr
  | primary => Machine.primary (Machine.expression bound)
  | member => Machine.member (Machine.expression bound)
  | operand => Machine.operand bound
  | connected strength => Machine.connected (Machine.operand bound) strength
  | conditional => Machine.conditional (Machine.expression bound) (Machine.operand bound)
  | expression => Machine.expression bound

/-- The stratum of a part. -/
def phrase : Part → Phrase
  | primary => .primary
  | member => .chain
  | operand => .operand
  | connected strength => .connected strength
  | conditional | expression => .expression

/-- The levels that a part has where there is room for that many more. It stands in one that is
entered already, but an expression has to enter its own. -/
def levels (room : Nat) : Part → Nat
  | expression => room
  | _ => room + 1

end Part

theorem realizes_part (part : Part) (hbound : 2 * room + 1 < bound) :
    Realizes limits room (part.action bound) (read limits part.phrase (part.levels room)) := by
  obtain ⟨hexpression, hoperand⟩ := realizes_expression limits room
  have hexpression := hexpression bound (by omega)
  have hoperand := hoperand bound hbound
  cases part with
  | primary => exact realizes_primary hexpression
  | member => exact realizes_member hexpression
  | operand => exact hoperand
  | connected strength => exact realizes_connected hoperand strength
  | conditional => exact realizes_conditional hexpression hoperand
  | expression =>
    rw [Part.phrase, Part.levels, read_expression]
    exact hexpression

/-- **Heights are counted exactly.** In every state that a machine can go on from, whatever its
register holds, it reads each part without a crash. Behind a result the register holds the height
of the tree, and this is within the limit. A tree is refused as too tall, with these tokens left,
exactly if a node in front of them is the next to be completed that is higher than the limit while
all its children are within it. -/
theorem part_measured (h : m.Ready) (part : Part)
    (hbound : 2 * (m.limits.depth - m.depth) + 1 < bound) :
    ∃ reply m', part.action bound m = .ok (reply, m') ∧
      (∀ e, reply = .ok e → m'.height = e.height ∧ e.height ≤ m.limits.height) ∧
      ∀ limit rest, reply = .error (.tooTall limit) ∧ m'.rest = rest ↔
        limit = m.limits.height ∧ ∃ node,
          Completes m.limits part.phrase (part.levels (m.limits.depth - m.depth)) m.rest node rest ∧
          (∀ child ∈ node.children, child.height ≤ m.limits.height) ∧
          m.limits.height < node.height := by
  let levels := part.levels (m.limits.depth - m.depth)
  have hperforms := realizes_part part hbound m ⟨h, rfl, rfl⟩
  have hsound := sound_read m.limits part.phrase levels m.rest
  have htall := read_eq_tooTall_iff m.limits part.phrase levels
  generalize hread : read m.limits part.phrase levels m.rest = out at hperforms hsound
  generalize part.action bound m = result at hperforms ⊢
  cases hperforms with
  | @ok parsed m' hreaches =>
    obtain ⟨-, -, -, -, -, hheight, hlimit⟩ := hsound parsed rfl
    refine ⟨_, m', rfl, ?_, fun limit rest => ⟨by rintro ⟨⟨⟩, -⟩, fun hnode => ?_⟩⟩
    · rintro e ⟨⟩
      exact ⟨hreaches.height_eq.trans hheight, hheight ▸ hlimit⟩
    · obtain ⟨room, herror⟩ := (htall limit m.rest rest).mpr hnode
      cases hread.symm.trans herror
  | @error failure m' hrefuses =>
    refine ⟨_, m', rfl, by rintro _ ⟨⟩, fun limit rest => ?_⟩
    rw [← htall limit m.rest rest, hread, hrefuses.rest_eq]
    constructor
    · rintro ⟨herror, rfl⟩
      exact ⟨failure.room, by rw [← Except.error.inj herror]⟩
    · rintro ⟨room, ⟨⟩⟩
      exact ⟨rfl, rfl⟩

/-- Inside a parenthesis, with a height left over in the register, the chain in `a.b.c ? d : e` is
as high as the limit allows. The conditional is refused at the end of the input, as the next node
and a higher one, though its branches are leaves. -/
theorem part_measured_lopsided :
    let stop : Token := ⟨.eof, ⟨14, 14⟩⟩
    let m : Machine := ⟨⟨100, 2, 3⟩, #[⟨.mark .leftParen, ⟨0, 1⟩⟩, ⟨.identifier "a", ⟨1, 2⟩⟩,
      ⟨.mark .dot, ⟨2, 3⟩⟩, ⟨.identifier "b", ⟨3, 4⟩⟩, ⟨.mark .dot, ⟨4, 5⟩⟩,
      ⟨.identifier "c", ⟨5, 6⟩⟩, ⟨.mark .question, ⟨7, 8⟩⟩, ⟨.identifier "d", ⟨9, 10⟩⟩,
      ⟨.mark .colon, ⟨11, 12⟩⟩, ⟨.identifier "e", ⟨13, 14⟩⟩, stop], 1, 1, 9⟩
    let chain : Expr := .dot (.dot (.identifier "a") "b") "c"
    m.Ready ∧ 2 * (m.limits.depth - m.depth) + 1 < 4 ∧
      (∃ m', Part.member.action 4 m = .ok (.ok chain, m') ∧ m'.height = chain.height ∧
        chain.height ≤ 3) ∧
      (∃ m', Part.conditional.action 4 m = .ok (.error (.tooTall 3), m')) ∧
      ∃ node, Completes m.limits .expression 2 m.rest node [stop] ∧
        (∀ child ∈ node.children, child.height ≤ 3) ∧ 3 < node.height := by
  intro stop m chain
  have hready : m.Ready := ⟨by decide, by rintro _ ⟨⟩; rfl⟩
  have hbound : 2 * (m.limits.depth - m.depth) + 1 < 4 := by decide
  obtain ⟨reply, m₁, hmember, hheight, -⟩ := part_measured hready .member hbound
  obtain ⟨refusal, m₂, hconditional, -, htall⟩ := part_measured hready .conditional hbound
  have hreply : (Part.member.action 4 m).map Prod.fst = .ok (.ok chain) := by decide +kernel
  have hrefusal : (Part.conditional.action 4 m).map (fun answer => (answer.1, answer.2.rest)) =
      .ok (.error (.tooTall 3), [stop]) := by decide +kernel
  rw [hmember] at hreply
  rw [hconditional] at hrefusal
  obtain rfl : reply = .ok chain := Except.ok.inj hreply
  obtain ⟨rfl, hrest⟩ := Prod.mk.inj (Except.ok.inj hrefusal)
  exact ⟨hready, hbound, ⟨m₁, hmember, hheight chain rfl⟩, ⟨m₂, hconditional⟩,
    ((htall 3 [stop]).mp ⟨rfl, hrest⟩).2⟩

end Parser.Machine

end ScreenedExpr
