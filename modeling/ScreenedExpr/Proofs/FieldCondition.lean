import ScreenedExpr.Proofs.Parser.Heights
import ScreenedExpr.Proofs.Screening
import ScreenedExpr.Proofs.SourceLanguage

/-!
# Field conditions as texts

A field condition has a text: the path, the operator and the literal, with spaces between.
Evaluating that text is another way to the same answer, unless the text is refused though
the path alone is not.

* `Tiles.connected` — two texts with an operator between them are read as the tokens of both;
* `Derives.chain_of_isFieldPath` — a field path may stand beside any operator;
* `Parser.ofTokens_eq_tooTall` — a node that exceeds the limit between operands that do not;
* `Sandbox.check_text` — the verdict on the text of a field condition;
* `Sandbox.evaluate_of_fieldCondition` — its value, and the only reasons to refuse it.
-/

namespace ScreenedExpr

open Denylist Grammar

/-! ## Texts with an operator between them -/

namespace Tiles

variable {offset : Nat} {text rest : List Char} {tokens body body' : List Token}
variable {stop stop' : Token}

/-- Blank characters may stand in front of a text. -/
theorem blanks_append {blanks : List Char} (hblanks : ∀ c ∈ blanks, Text.isBlank c = true)
    (h : Tiles (offset + blanks.length) text tokens) : Tiles offset (blanks ++ text) tokens := by
  cases h with
  | done hmore =>
    have h : Tiles offset (blanks ++ text) _ := .done (List.forall_mem_append.mpr ⟨hblanks, hmore⟩)
    rwa [List.length_append, ← Nat.add_assoc] at h
  | token hmore hlexeme rest =>
    rw [← List.append_assoc]
    rw [Nat.add_assoc offset, ← List.length_append] at rest ⊢
    exact .token (List.forall_mem_append.mpr ⟨hblanks, hmore⟩) hlexeme rest

/-- Wherever a text starts, its tokens are of the same kinds. -/
theorem exists_shift (h : Tiles offset text tokens) (offset' : Nat) :
    ∃ tokens', Tiles offset' text tokens' ∧ tokens'.map Token.kind = tokens.map Token.kind := by
  induction h generalizing offset' with
  | done hblanks => exact ⟨_, .done hblanks, rfl⟩
  | token hblanks hlexeme _ ih =>
    obtain ⟨tokens', htiles, hkinds⟩ := ih _
    exact ⟨_, .token hblanks hlexeme htiles, congrArg (List.cons _) hkinds⟩

/-- What stands behind a space is read on its own. -/
theorem append_space (h : Tiles offset text (body ++ [stop])) (hstop : stop.kind = .eof)
    (more : Tiles (offset + text.length) (' ' :: rest) tokens) :
    Tiles offset (text ++ ' ' :: rest) (body ++ tokens) := by
  generalize hall : body ++ [stop] = all at h
  induction h generalizing body with
  | done hblanks =>
    cases body with
    | nil => exact blanks_append hblanks more
    | cons => simp at hall
  | @token _ blanks lexeme between kind _ hblanks hlexeme _ ih =>
    cases body with
    | nil =>
      -- a lexeme is no end of the input
      cases hall
      exact absurd hstop hlexeme.kind_ne_eof
    | cons token body =>
      obtain ⟨rfl, hbody⟩ := List.cons.inj hall
      have hlexeme' : Lexeme lexeme kind (between ++ ' ' :: rest) := by
        apply hlexeme.of_head?
        cases between with
        | nil => simp [Text.isBlank, Text.blankRanges]
        | cons => exact fun _ hc => .inl hc
      simp only [List.length_append, ← Nat.add_assoc] at more
      rw [List.append_assoc, List.append_assoc]
      exact .token hblanks hlexeme' (ih more hbody)

/-- **An operator between two texts**, with spaces around it, is read between their tokens. -/
theorem connected {first second : List Char} (h : Tiles 0 first (body ++ [stop]))
    (hstop : stop.kind = .eof) (h' : Tiles 0 second (body' ++ [stop'])) (mark : Mark) :
    ∃ span right last,
      Tiles 0 (first ++ ' ' :: (mark.symbol.toList ++ ' ' :: second))
        (body ++ ⟨.mark mark, span⟩ :: right ++ [last]) ∧
      right.map Token.kind = body'.map Token.kind ∧ last.kind = stop'.kind := by
  have hmark := (Lexeme.symbol mark).before_space second
  let start := 0 + first.length + [' '].length
  let behind := start + mark.symbol.toList.length
  obtain ⟨tokens, htiles, hkinds⟩ := h'.exists_shift (behind + [' '].length)
  rw [List.map_append] at hkinds
  obtain ⟨right, tail, rfl, hright, htail⟩ := List.map_eq_append_iff.mp hkinds
  obtain ⟨last, rfl, hlast⟩ := List.map_eq_singleton_iff.mp htail
  refine ⟨⟨start, behind⟩, right, last, ?_, hright, hlast⟩
  rw [List.append_assoc]
  exact h.append_space hstop
    (.token isBlank_of_mem_space hmark (htiles.blanks_append isBlank_of_mem_space))

end Tiles

/-! ## Paths -/

/-- **A field path binds as strongly as any operand**, whatever parentheses it is written
with. -/
theorem Grammar.Derives.chain_of_isFieldPath {phrase : Phrase} {n : Nat} {kinds : List TokenKind}
    {e : Expr} (h : Derives phrase n kinds e) (hpath : e.isFieldPath = true) :
    Derives .chain n kinds e := by
  induction h with
  | literal | not | negate | conditional => cases hpath
  | @connect _ _ _ _ _ _ _ connective => cases connective <;> cases hpath
  | identifier name => exact .ofPrimary (.identifier name)
  | parenthesized inner => exact .chain_of_expression inner
  | dot inner hname => exact .dot inner hname
  | index inner nested => exact .index inner nested
  | ofPrimary _ ih | ofChain _ ih | ofOperand _ ih | weaken _ ih | ofConnected _ ih =>
    exact ih hpath

/-! ## Nodes that exceed the limit -/

namespace Parser

variable {limits : Limits} {room s t : Nat} {tokens : List Token} {failure : Failure}

/-- What fails between strong operators fails between weaker ones. -/
theorem connected_eq_error (hst : s ≤ t)
    (h : connected limits room (operand limits room) s tokens = .error failure) :
    connected limits room (operand limits room) t tokens = .error failure := by
  induction hst with
  | refl => exact h
  | step _ ih =>
    rw [connected, ih]
    rfl

/-- Where reading connected operands fails, there is no expression. -/
theorem ofTokens_eq_error {body : List Token} {stop : Token} (hstop : stop.kind = .eof)
    (hroom : limits.depth = room + 1) (hs : s ≤ strengths)
    (h : connected limits room (operand limits room) s (body ++ [stop]) = .error failure) :
    Expr.ofTokens limits (body ++ [stop]) = .error failure.error := by
  have hexpression : expression limits limits.depth (body ++ [stop]) = .error failure := by
    rw [hroom, expression_succ, conditional, connected_eq_error hs h]
    rfl
  rw [Expr.ofTokens, ofTokens, closeTokens_concat hstop]
  simp only [whole, nextExpr, hexpression]

section tooTall

variable {body right : List Token} {stop : Token} {n m : Nat} {connective : Connective}
variable {mark : Mark} {e e' : Expr}

/-- **A node that is too high.** If the operands of the last operator are within the limit
on the height and their node is not, the sequence is refused for that. -/
theorem ofTokens_eq_tooTall (first : Derives (.connected (s + 1)) n (body.map Token.kind) e)
    (hop : connective ∈ operators s) (hmark : mark.symbol = symbol connective)
    (second : Derives (.connected s) m (right.map Token.kind) e') (hstop : stop.kind = .eof)
    (hn : 1 + n ≤ limits.depth) (hm : 1 + m ≤ limits.depth)
    (he : e.height ≤ limits.height) (he' : e'.height ≤ limits.height)
    (hheight : limits.height < (connective.node e e').height) (span : Span) :
    Expr.ofTokens limits (body ++ ⟨.mark mark, span⟩ :: right ++ [stop]) =
      .error (.tooTall limits.height) := by
  have hends : Ends (.connected s) [stop] := by
    intro token htoken
    cases htoken
    rw [hstop]
    exact ⟨by simp, fun _ _ => rfl⟩
  have hstrength : s + 1 ≤ strengths := by
    match s with
    | 0 | 1 | 2 | 3 | 4 | 5 => decide
    | s + 6 => cases hop
  obtain ⟨room, hroom⟩ : ∃ room, limits.depth = room + 1 := ⟨limits.depth - 1, by omega⟩
  have hchildren : ∀ child ∈ (connective.node e e').children, child.height ≤ limits.height := by
    simp [connective.children_node, he, he']
  exact ofTokens_eq_error hstop hroom hstrength
    (fails_of_builds (.connect first hop hmark second) (by simp) (by omega) hends hchildren hheight)

end tooTall

end Parser

/-! ## The text of a field condition -/

/-- The text is a single literal, with blank characters around it. -/
def Literal.IsText (value : Literal) (text : String) : Prop :=
  ∃ tokens, tokenize text = .ok tokens ∧ tokens.map Token.kind = [.literal value, .eof]

namespace FieldOperator

/-- The text of a field condition. -/
def text (op : FieldOperator) (path literal : String) : String :=
  path ++ " " ++ op.symbol ++ " " ++ literal

variable (op : FieldOperator)

/-- A comparison has a truth value, which a field condition answers with. -/
theorem apply_toBinaryOp (actual literal : Value) :
    op.toBinaryOp.apply actual literal = .boolean (op.compare actual literal) := by
  cases op <;> rfl

/-- The spelling of a comparison has no character of a word. -/
theorem isWordChar_of_mem_symbol : ∀ c ∈ op.symbol.toList, isWordChar c = false := by
  have hall : op.symbol.toList.all (fun c => !isWordChar c) = true := by
    cases op <;> rfl
  simpa using hall

variable {op} {path literal : String}

/-- What stands in front of the literal ends with a space, and mentions no more than the
path. -/
theorem blocked?_text (hpath : blocked? path = none) :
    blocked? (op.text path literal) = blocked? literal := by
  have hspace : ∀ c ∈ " ".toList, isWordChar c = false := by
    simp [isWordChar]
  have hbetween : ¬Mentions (" " ++ op.symbol ++ " ").toList := by
    apply not_mentions
    simp only [String.toList_append, List.forall_mem_append]
    exact ⟨⟨hspace, op.isWordChar_of_mem_symbol⟩, hspace⟩
  have hstart : WordStart (" " ++ op.symbol ++ " ").toList := by
    simp [WordStart, String.toList_append, isWordChar]
  have hparts : path ++ " " ++ op.symbol ++ " " = path ++ (" " ++ op.symbol ++ " ") := by
    simp only [String.append_assoc]
  have hfront : blocked? (path ++ " " ++ op.symbol ++ " ") = none := by
    rw [blocked?_eq_none_iff_not_mentions] at hpath ⊢
    rw [hparts, String.toList_append, mentions_append_iff (.inr hstart)]
    exact not_or.mpr ⟨hpath, hbetween⟩
  apply blocked?_append hfront
  rw [String.toList_append]
  exact .inl (wordEnd_concat (by decide))

/-- The tokens of a field condition are those of the path, an operator and the literal. -/
theorem tiles_text (op : FieldOperator) {value : Literal} {body : List Token} {stop : Token}
    (hpath : Tiles 0 path.toList (body ++ [stop])) (hstop : stop.kind = .eof)
    (hliteral : value.IsText literal) : ∃ s mark span right last,
      s < 6 ∧ Parser.Connective.binary op.toBinaryOp ∈ operators s ∧ mark.symbol = op.symbol ∧
      Tiles 0 (op.text path literal).toList (body ++ ⟨.mark mark, span⟩ :: right ++ [last]) ∧
      right.map Token.kind = [.literal value] ∧ last.kind = .eof := by
  obtain ⟨_, htokens, hkinds⟩ := hliteral
  have hliteral := tokenize_eq_ok_iff.mp htokens
  obtain ⟨body', stop', rfl, hstop', -⟩ := hliteral.eq_concat
  obtain ⟨s, mark, hs, hat⟩ := exists_connectiveAt (.binary op.toBinaryOp)
  obtain ⟨hop, _, hmark, hsymbol⟩ := connectiveAt_eq_some_iff.mp hat
  cases hmark
  obtain ⟨span, right, last, htiles, hright, hlast⟩ := hpath.connected hstop hliteral mark
  refine ⟨s, mark, span, right, last, hs, hop, hsymbol, ?_, ?_, hlast.trans hstop'⟩
  · simpa [text, hsymbol, Grammar.symbol, symbol] using htiles
  · have hsplit : right.map Token.kind ++ [stop'.kind] = [.literal value] ++ [.eof] := by
      rw [hright]
      simpa using hkinds
    exact (List.append_inj' hsplit rfl).1

/-- **The tree of a field condition** is the comparison of the path's tree with the literal,
which is one higher than the path. -/
theorem ofText_text {limits : Limits} {tree : Expr} {value : Literal}
    (hpath : Expr.ofText limits path = .ok tree) (hshape : tree.isFieldPath = true)
    (hliteral : value.IsText literal) : Expr.ofText limits (op.text path literal) =
      if tree.height < limits.height then
        .ok (.binary op.toBinaryOp tree (.literal (.ofLiteral value)))
      else .error (.syntactic (.tooTall limits.height)) := by
  obtain ⟨body, stop, n, hbody, hstop, hderives, hdepth, hheight⟩ :=
    Expr.ofText_eq_ok_iff.mp hpath
  obtain ⟨s, mark, span, right, last, hs, hop, hmark, htiles, hright, hlast⟩ :=
    tiles_text op hbody hstop hliteral
  have hleft : Derives (.connected (s + 1)) n (body.map Token.kind) tree :=
    (hderives.chain_of_isFieldPath hshape).connected_of_chain (s + 1)
  have hvalue : Derives (.connected s) 0 (right.map Token.kind) (.literal (.ofLiteral value)) := by
    rw [hright]
    exact (Derives.ofPrimary (.literal value)).connected_of_chain s
  have hone := tree.one_le_height
  have hnode : (Expr.binary op.toBinaryOp tree (.literal (.ofLiteral value))).height =
      tree.height + 1 := by
    simp only [Expr.height]
    omega
  split
  · next hlow =>
    refine Expr.ofText_eq_ok_iff.mpr
      ⟨body ++ ⟨.mark mark, span⟩ :: right, last, n, htiles, hlast, ?_, hdepth, by omega⟩
    have hall := ((hleft.connect hop hmark hvalue).weaken_le (Nat.succ_le_of_lt hs)).ofConnected
    rw [Nat.max_zero] at hall
    rwa [List.map_append]
  · next hhigh =>
    rw [Expr.ofText, tokenize_eq_ok_iff.mpr htiles]
    dsimp only
    rw [Parser.ofTokens_eq_tooTall hleft hop hmark hvalue hlast hdepth (by omega) hheight
      (hone.trans hheight) (by change _ < (Expr.binary _ _ _).height; omega) span]
    rfl

end FieldOperator

/-! ## Screening -/

namespace Sandbox

variable {sandbox : Sandbox} {path literal : String} {op : FieldOperator} {value : Literal}

/-- **The verdict on the text of a field condition** whose path is accepted. -/
theorem check_text {tree : Expr} (hpath : sandbox.screen path = .ok tree)
    (hshape : tree.isFieldPath = true) (hliteral : value.IsText literal) :
    sandbox.check (op.text path literal) =
      if sandbox.limits.length < (op.text path literal).toList.length then
        .error (.tooLong sandbox.limits.length)
      else match blocked? literal with
        | some category => .error (.denylisted category)
        | none =>
          if tree.height < sandbox.limits.height then
            .ok (.binary op.toBinaryOp tree (.literal (.ofLiteral value)))
          else .error (.syntactic (.tooTall sandbox.limits.height)) := by
  obtain ⟨-, hblocked, hread⟩ := screen_eq_ok_iff.mp hpath
  have hblank : ¬(op.text path literal).toList.all Text.isBlank = true := by
    have hpathBlank := Expr.not_blank_of_ofText hread
    simp only [FieldOperator.text, String.toList_append, List.all_append, Bool.and_eq_true]
    tauto
  rw [check, textual?, if_neg hblank, FieldOperator.blocked?_text hblocked]
  by_cases hlong : sandbox.limits.length < (op.text path literal).toList.length
  · rw [if_pos hlong, if_pos hlong]
  rw [if_neg hlong, if_neg hlong]
  cases blocked? literal with
  | some category => rfl
  | none =>
    rw [FieldOperator.ofText_text hread hshape hliteral]
    dsimp only [Option.map_none]
    split <;> rfl

/-- What a field condition answers is the comparison with the value of its path. -/
theorem fieldCondition_eq_ok {literal : Value} {context : Context} {holds : Bool}
    (h : sandbox.fieldCondition path op literal context = .ok holds) :
    ∃ tree, sandbox.screen path = .ok tree ∧ tree.isFieldPath = true ∧
      holds = op.compare (tree.eval context) literal := by
  rw [fieldCondition, fieldPath] at h
  cases hscreen : sandbox.screen path with
  | error => rw [hscreen] at h; cases h
  | ok tree =>
    rw [hscreen] at h
    dsimp only at h
    split at h
    · next hshape =>
      cases h
      exact ⟨tree, rfl, hshape, rfl⟩
    · cases h

/-- **Why the text of a field condition may be refused** though its path, with that tree, is
not. -/
inductive RefusesText (sandbox : Sandbox) (path : Expr) (text literal : String) :
    RejectReason → Prop where
  /-- the operator and the literal make it too long -/
  | tooLong (h : sandbox.limits.length < text.toList.length) :
      RefusesText sandbox path text literal (.tooLong sandbox.limits.length)
  /-- there is a blocked name in the literal -/
  | denylisted {category : Category} (h : blocked? literal = some category) :
      RefusesText sandbox path text literal (.denylisted category)
  /-- the path alone is as high as allowed -/
  | tooTall (h : path.height = sandbox.limits.height) :
      RefusesText sandbox path text literal (.syntactic (.tooTall sandbox.limits.height))

/-- **A field condition agrees with its text.** Whenever a field is compared with the value
of a literal, the text of the comparison evaluates to the same truth value, or is refused
because it is too long, the literal has a blocked name, or the path leaves no height for the
comparison. -/
theorem evaluate_of_fieldCondition (sandbox : Sandbox) (path literal : String)
    (op : FieldOperator) (value : Literal) (context : Context) (holds : Bool)
    (hliteral : value.IsText literal)
    (h : sandbox.fieldCondition path op (.ofLiteral value) context = .ok holds) :
    sandbox.evaluate (op.text path literal) context = .ok (.boolean holds) ∨
      ∃ tree reason, sandbox.screen path = .ok tree ∧
        sandbox.evaluate (op.text path literal) context =
          .error ⟨op.text path literal, reason⟩ ∧
        RefusesText sandbox tree (op.text path literal) literal reason := by
  obtain ⟨tree, hpath, hshape, rfl⟩ := fieldCondition_eq_ok h
  rw [evaluate, screen, check_text hpath hshape hliteral]
  split
  · next hlong => exact .inr ⟨tree, _, hpath, rfl, .tooLong hlong⟩
  split
  · next category hblocked => exact .inr ⟨tree, _, hpath, rfl, .denylisted hblocked⟩
  split
  · next hlow => exact .inl (congrArg Except.ok (op.apply_toBinaryOp _ _))
  · next hhigh =>
    obtain ⟨-, -, hread⟩ := screen_eq_ok_iff.mp hpath
    obtain ⟨-, -, -, -, -, -, -, hheight⟩ := Expr.ofText_eq_ok_iff.mp hread
    exact .inr ⟨tree, _, hpath, rfl, .tooTall (by omega)⟩

/-- One paid invoice. -/
def invoices : Context :=
  .ofList [("rows", .array [.object [("status", .string "paid")]])]

/-- In parentheses a name is a path still, and the literal may have blank characters around
it. Where a height of three is allowed, the path uses it up. -/
theorem evaluate_invoices :
    let tight : Sandbox := ⟨⟨40, 5, 3⟩⟩
    let text := "(rows)[0].status === \t'paid' "
    Literal.IsText (.string "paid") "\t'paid' " ∧
    standard.fieldCondition "(rows)[0].status" .strictEqual (.string "paid") invoices = .ok true ∧
    standard.evaluate text invoices = .ok (.boolean true) ∧
    tight.fieldCondition "(rows)[0].status" .strictEqual (.string "paid") invoices = .ok true ∧
    ∃ tree reason, tight.screen "(rows)[0].status" = .ok tree ∧
      tight.evaluate text invoices = .error ⟨text, reason⟩ ∧
      RefusesText tight tree text "\t'paid' " reason := by
  intro tight text
  have hliteral : Literal.IsText (.string "paid") "\t'paid' " :=
    ⟨[⟨.literal (.string "paid"), ⟨1, 7⟩⟩, ⟨.eof, ⟨8, 8⟩⟩], by decide +kernel, rfl⟩
  have hstandard : standard.fieldCondition "(rows)[0].status" .strictEqual (.string "paid")
      invoices = .ok true := by
    decide +kernel
  have htight : tight.fieldCondition "(rows)[0].status" .strictEqual (.string "paid")
      invoices = .ok true := by
    decide +kernel
  have haccepted : (standard.evaluate text invoices).isOk = true := by
    decide +kernel
  have hrefused : tight.evaluate text invoices ≠ .ok (.boolean true) := by
    decide +kernel
  refine ⟨hliteral, hstandard, ?_, htight, ?_⟩
  · refine (evaluate_of_fieldCondition _ _ _ _ _ _ _ hliteral hstandard).resolve_right ?_
    rintro ⟨tree, reason, -, herror, -⟩
    cases haccepted.symm.trans (congrArg Except.isOk herror)
  · exact (evaluate_of_fieldCondition _ _ _ _ _ _ _ hliteral htight).resolve_left hrefused

end Sandbox

end ScreenedExpr
