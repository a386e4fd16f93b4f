import ScreenedExpr.Proofs.Numeral
import ScreenedExpr.Proofs.Source

/-!
# Which trees have a source text

The texts denote exactly the well-formed trees, whose literals can be written down and whose
names are names.

* `Expr.WellFormed` — the trees that a text can denote;
* `IsLexical` — the kinds that some characters stand for; `isLexical_literal_iff` and
  `isLexical_identifier_iff` say which literals and identifiers are among them;
* `Derives.wellFormed` — lexical kinds derive well-formed trees only;
* `WellFormed.isWritten` — every well-formed tree is derived by lexical kinds, with
  parentheses around every node that is an operation.
-/

namespace ScreenedExpr

open Grammar

/-! ## Well-formed trees -/

/-- The names that are not identifiers. -/
def keywords : List String := ["true", "false", "null", "undefined"]

/-- A value that can be written down: a scalar, and if it is a number, one without a sign. -/
def Value.IsWritable : Value → Prop
  | undefined | null | boolean _ | string _ => True
  | number n => n.IsUnsigned
  | array _ | object _ => False

/-- What can be written down is the value of a literal. -/
theorem Value.IsWritable.exists_ofLiteral {value : Value} (h : value.IsWritable) :
    ∃ written, value = .ofLiteral written := by
  cases value with
  | undefined => exact ⟨.undefined, rfl⟩
  | null => exact ⟨.null, rfl⟩
  | boolean b => exact ⟨.boolean b, rfl⟩
  | number n => exact ⟨.number n, rfl⟩
  | string s => exact ⟨.string s, rfl⟩
  | array | object => cases h

/-- **The trees that a text can denote.** Any well-formed tree may stand at any place, except
behind a point. -/
inductive Expr.WellFormed : Expr → Prop where
  /-- a value that can be written down -/
  | literal {value : Value} (hvalue : value.IsWritable) : WellFormed (.literal value)
  /-- a name that is no keyword -/
  | identifier {name : String} (hname : IsName name) (hkeyword : name ∉ keywords) :
      WellFormed (.identifier name)
  /-- a member by name, which may be a keyword -/
  | byName {object : Expr} {name : String} (hobject : WellFormed object) (hname : IsName name) :
      WellFormed (.member object (.literal (.string name)) false)
  /-- a member by computed key -/
  | byKey {object key : Expr} (hobject : WellFormed object) (hkey : WellFormed key) :
      WellFormed (.member object key true)
  /-- an operation on both operands -/
  | binary {op : BinaryOp} {left right : Expr} (hleft : WellFormed left)
      (hright : WellFormed right) : WellFormed (.binary op left right)
  /-- an operation that may leave its right operand alone -/
  | logical {op : LogicalOp} {left right : Expr} (hleft : WellFormed left)
      (hright : WellFormed right) : WellFormed (.logical op left right)
  /-- an operation on one operand -/
  | unary {op : UnaryOp} {operand : Expr} (hoperand : WellFormed operand) :
      WellFormed (.unary op operand)
  /-- one of two branches -/
  | conditional {test consequent alternate : Expr} (htest : WellFormed test)
      (hconsequent : WellFormed consequent) (halternate : WellFormed alternate) :
      WellFormed (.conditional test consequent alternate)

/-! ## Lexical kinds -/

/-- A kind that some characters stand for. -/
def IsLexical (kind : TokenKind) : Prop := ∃ lexeme rest, Lexeme lexeme kind rest

/-- A space may follow every lexeme. -/
theorem Lexeme.before_space {lexeme rest : List Char} {kind : TokenKind}
    (h : Lexeme lexeme kind rest) (more : List Char) : Lexeme lexeme kind (' ' :: more) := by
  apply h.of_head?
  intro c hc
  cases hc
  exact .inr rfl

/-- A space is a gap between tokens. -/
theorem isBlank_of_mem_space : ∀ c ∈ [' '], Text.isBlank c = true := by
  intro c hc
  rw [List.mem_singleton.mp hc]
  rfl

/-- Any lexical kinds are the tokens of some text, which may start with a space. -/
theorem exists_tiles {kinds : List TokenKind} (h : ∀ kind ∈ kinds, IsLexical kind)
    (offset : Nat) : ∃ more body stop, Tiles offset (' ' :: more) (body ++ [stop]) ∧
      stop.kind = .eof ∧ body.map Token.kind = kinds := by
  induction kinds generalizing offset with
  | nil => exact ⟨[], [], _, .done isBlank_of_mem_space, rfl, rfl⟩
  | cons kind kinds ih =>
    obtain ⟨⟨lexeme, rest, hlexeme⟩, hkinds⟩ := List.forall_mem_cons.mp h
    -- the space that starts the rest ends this lexeme
    obtain ⟨more, body, stop, htiles, hstop, hbody⟩ :=
      ih hkinds (offset + [' '].length + lexeme.length)
    exact ⟨_, _ :: body, stop,
      .token isBlank_of_mem_space (hlexeme.before_space more) htiles, hstop,
      congrArg _ hbody⟩

/-- The tokens of a text are lexical. -/
theorem Tiles.isLexical {offset : Nat} {text : List Char} {tokens : List Token}
    (h : Tiles offset text tokens) : ∀ t ∈ tokens, t.kind = .eof ∨ IsLexical t.kind := by
  induction h with
  | done => simp
  | token _ hlexeme _ ih => exact List.forall_mem_cons.mpr ⟨.inr ⟨_, _, hlexeme⟩, ih⟩

/-! ### Strings -/

theorem isLexical_string (s : String) : IsLexical (.literal (.string s)) := by
  obtain ⟨body, hbody⟩ := exists_encodes (.inl rfl) s.toList
  refine ⟨'"' :: (body ++ ['"']), [], ?_⟩
  rw [← String.ofList_toList (s := s)]
  exact .string (.inl rfl) hbody

/-! ### Numbers -/

theorem isLexical_number {n : Double} (h : n.IsUnsigned) : IsLexical (.literal (.number n)) := by
  obtain ⟨c, more, d, hstart, hparts, hread, rfl⟩ := Double.exists_numeral h
  refine ⟨c :: more, [], .number hstart ⟨fun x hx => ?_, nofun⟩ hread⟩
  rcases hparts x hx with hdigit | rfl
  · simp [isNumberPart, hdigit]
  · rfl

/-! ### Names and keywords -/

theorem isLexical_ofName {name : String} (h : IsName name) : IsLexical (.ofName name) := by
  obtain ⟨c, more, hname, hstart, hparts⟩ := h
  have hrun : IsRun isNamePart (c :: more) [] :=
    ⟨List.forall_mem_cons.mpr ⟨isNamePart_of_isNameStart hstart, hparts⟩, nofun⟩
  have hlexeme := Lexeme.name hstart hrun
  rw [← hname, String.ofList_toList] at hlexeme
  exact ⟨_, _, hlexeme⟩

theorem isName_of_mem_keywords {name : String} (h : name ∈ keywords) : IsName name := by
  simp only [keywords, List.mem_cons, List.not_mem_nil, or_false] at h
  rcases h with rfl | rfl | rfl | rfl
  · exact ⟨'t', ['r', 'u', 'e'], rfl, rfl, List.all_eq_true.mp rfl⟩
  · exact ⟨'f', ['a', 'l', 's', 'e'], rfl, rfl, List.all_eq_true.mp rfl⟩
  · exact ⟨'n', ['u', 'l', 'l'], rfl, rfl, List.all_eq_true.mp rfl⟩
  · exact ⟨'u', ['n', 'd', 'e', 'f', 'i', 'n', 'e', 'd'], rfl, rfl, List.all_eq_true.mp rfl⟩

/-- The names that make an identifier are those that are no keyword. -/
theorem ofName_eq_identifier_iff {name name' : String} :
    TokenKind.ofName name = .identifier name' ↔ name = name' ∧ name' ∉ keywords := by
  unfold TokenKind.ofName
  grind [keywords]

/-- **Identifiers** are the names that are no keyword. -/
theorem isLexical_identifier_iff {name : String} :
    IsLexical (.identifier name) ↔ IsName name ∧ name ∉ keywords := by
  refine ⟨?_, ?_⟩
  · rintro ⟨lexeme, rest, h⟩
    refine ⟨(h.eq_name rfl).2.1, ?_⟩
    generalize hkind : TokenKind.identifier name = kind at h
    cases h with
    | name => exact (ofName_eq_identifier_iff.mp hkind.symm).2
    | _ => cases hkind
  · rintro ⟨hname, hkeyword⟩
    have h := isLexical_ofName hname
    rwa [ofName_eq_identifier_iff.mpr ⟨rfl, hkeyword⟩] at h

/-- **Literals** are the values that can be written down. -/
theorem isLexical_literal_iff {value : Literal} :
    IsLexical (.literal value) ↔ (Value.ofLiteral value).IsWritable := by
  refine ⟨?_, ?_⟩
  · rintro ⟨lexeme, rest, h⟩
    generalize hkind : TokenKind.literal value = kind at h
    cases h with
    | string => cases hkind; trivial
    | number => cases hkind; exact Double.isUnsigned_ofDecimal _
    | mark => cases hkind
    | name =>
      unfold TokenKind.ofName at hkind
      grind [Value.ofLiteral, Value.IsWritable]
  · intro h
    have hkeyword (name : String) (h : name ∈ keywords) : IsLexical (.ofName name) :=
      isLexical_ofName (isName_of_mem_keywords h)
    cases value with
    | undefined => exact hkeyword "undefined" (by decide)
    | null => exact hkeyword "null" (by decide)
    | boolean b =>
      cases b with
      | true => exact hkeyword "true" (by decide)
      | false => exact hkeyword "false" (by decide)
    | number n => exact isLexical_number h
    | string s => exact isLexical_string s

/-- Every mark is its own spelling. -/
theorem Lexeme.symbol (mark : Mark) : Lexeme mark.symbol.toList (.mark mark) [] := by
  refine .mark ?_
  rw [List.append_nil]
  exact mark.leading?_symbol

@[simp] theorem isLexical_mark (mark : Mark) : IsLexical (.mark mark) :=
  ⟨_, _, .symbol mark⟩

/-! ## From tokens to well-formed trees -/

/-- **Lexical kinds derive well-formed trees only.** -/
theorem Grammar.Derives.wellFormed {phrase : Phrase} {n : Nat} {kinds : List TokenKind} {e : Expr}
    (h : Derives phrase n kinds e) (hkinds : ∀ kind ∈ kinds, IsLexical kind) :
    e.WellFormed := by
  induction h with
  | literal value => exact .literal (isLexical_literal_iff.mp (hkinds _ List.mem_cons_self))
  | identifier name =>
    obtain ⟨hname, hkeyword⟩ := isLexical_identifier_iff.mp (hkinds _ List.mem_cons_self)
    exact .identifier hname hkeyword
  | ofPrimary _ ih | ofChain _ ih | ofOperand _ ih | weaken _ ih | ofConnected _ ih =>
    exact ih hkinds
  | parenthesized _ ih =>
    simp only [List.forall_mem_append, List.forall_mem_cons] at hkinds
    obtain ⟨-, hinner, -⟩ := hkinds
    exact ih hinner
  | dot _ hname ih =>
    simp only [List.forall_mem_append, List.forall_mem_cons] at hkinds
    obtain ⟨hobject, -, ⟨lexeme, rest, hlexeme⟩, -⟩ := hkinds
    -- a keyword too is spelled as a name
    obtain ⟨-, hname, -⟩ := hlexeme.eq_name (PropertyName.propertyName?_eq_some_iff.mpr hname)
    exact .byName (ih hobject) hname
  | index _ _ ih ihKey =>
    simp only [List.forall_mem_append, List.forall_mem_cons] at hkinds
    obtain ⟨hobject, -, hkey, -⟩ := hkinds
    exact .byKey (ih hobject) (ihKey hkey)
  | not _ ih | negate _ ih =>
    obtain ⟨-, hoperand⟩ := List.forall_mem_cons.mp hkinds
    exact .unary (ih hoperand)
  | @connect _ _ _ _ _ _ _ connective _ _ _ _ _ ih ihRight =>
    simp only [List.forall_mem_append, List.forall_mem_cons] at hkinds
    obtain ⟨hleft, -, hright⟩ := hkinds
    cases connective with
    | binary => exact .binary (ih hleft) (ihRight hright)
    | logical => exact .logical (ih hleft) (ihRight hright)
  | conditional _ _ _ ih ihThen ihElse =>
    simp only [List.forall_mem_append, List.forall_mem_cons] at hkinds
    obtain ⟨htest, -, hthen, -, helse⟩ := hkinds
    exact .conditional (ih htest) (ihThen hthen) (ihElse helse)

/-! ## From well-formed trees to tokens -/

/-- Every operator has a strength and a mark. -/
theorem exists_connectiveAt : ∀ connective : Parser.Connective, ∃ s mark, s < 6 ∧
    Parser.connectiveAt s (.mark mark) = some connective
  | .binary .multiply => ⟨0, .star, by decide, rfl⟩
  | .binary .divide => ⟨0, .slash, by decide, rfl⟩
  | .binary .remainder => ⟨0, .percent, by decide, rfl⟩
  | .binary .add => ⟨1, .plus, by decide, rfl⟩
  | .binary .subtract => ⟨1, .minus, by decide, rfl⟩
  | .binary .less => ⟨2, .less, by decide, rfl⟩
  | .binary .greater => ⟨2, .greater, by decide, rfl⟩
  | .binary .lessEqual => ⟨2, .lessEqual, by decide, rfl⟩
  | .binary .greaterEqual => ⟨2, .greaterEqual, by decide, rfl⟩
  | .binary .looseEqual => ⟨3, .looseEqual, by decide, rfl⟩
  | .binary .looseNotEqual => ⟨3, .looseNotEqual, by decide, rfl⟩
  | .binary .strictEqual => ⟨3, .strictEqual, by decide, rfl⟩
  | .binary .strictNotEqual => ⟨3, .strictNotEqual, by decide, rfl⟩
  | .logical .and => ⟨4, .andAnd, by decide, rfl⟩
  | .logical .or => ⟨5, .orOr, by decide, rfl⟩

namespace Expr

/-- Lexical kinds stand for this tree, which may be followed by member steps. -/
def IsWritten (e : Expr) : Prop :=
  ∃ n kinds, Derives .chain n kinds e ∧ ∀ kind ∈ kinds, IsLexical kind

/-- An expression is written in parentheses. -/
theorem isWritten_of_expression {n : Nat} {kinds : List TokenKind} {e : Expr}
    (h : Derives .expression n kinds e) (hkinds : ∀ kind ∈ kinds, IsLexical kind) :
    e.IsWritten := by
  refine ⟨_, _, h.chain_of_expression, ?_⟩
  simpa [or_imp, forall_and] using hkinds

/-- Operands are written on both sides of their operator. -/
theorem isWritten_node {left right : Expr} (connective : Parser.Connective)
    (hleft : left.IsWritten) (hright : right.IsWritten) :
    (connective.node left right).IsWritten := by
  obtain ⟨n, kinds, hderives, hkinds⟩ := hleft
  obtain ⟨m, rightKinds, hrightDerives, hrightKinds⟩ := hright
  obtain ⟨s, mark, hs, hconnective⟩ := exists_connectiveAt connective
  obtain ⟨hop, _, hkind, hmark⟩ := connectiveAt_eq_some_iff.mp hconnective
  cases hkind
  have h := (hderives.connected_of_chain (s + 1)).connect hop hmark
    (hrightDerives.connected_of_chain s)
  refine isWritten_of_expression (h.weaken_le hs).ofConnected ?_
  intro kind hkind
  rcases List.mem_append.mp hkind with hkind | hkind
  · exact hkinds kind hkind
  rcases List.mem_cons.mp hkind with rfl | hkind
  · exact isLexical_mark mark
  · exact hrightKinds kind hkind

/-- **Every well-formed tree is written**, with parentheses around every operation. -/
theorem WellFormed.isWritten {e : Expr} (h : e.WellFormed) : e.IsWritten := by
  induction h with
  | @literal value hvalue =>
    obtain ⟨written, rfl⟩ := hvalue.exists_ofLiteral
    refine ⟨0, _, (Derives.literal written).ofPrimary, ?_⟩
    simpa using isLexical_literal_iff.mpr hvalue
  | identifier hname hkeyword =>
    refine ⟨0, _, (Derives.identifier _).ofPrimary, ?_⟩
    simpa using isLexical_identifier_iff.mpr ⟨hname, hkeyword⟩
  | @byName object name _ hname ih =>
    obtain ⟨n, kinds, hderives, hkinds⟩ := ih
    have hproperty : PropertyName (.ofName name) name :=
      PropertyName.propertyName?_eq_some_iff.mp (TokenKind.propertyName?_ofName name)
    refine ⟨n, _, hderives.dot hproperty, ?_⟩
    simpa [or_imp, forall_and, isLexical_ofName hname] using hkinds
  | byKey _ _ ih ihKey =>
    obtain ⟨n, kinds, hderives, hkinds⟩ := ih
    obtain ⟨m, keyKinds, hkeyDerives, hkeyKinds⟩ := ihKey
    refine ⟨_, _, hderives.index hkeyDerives.expression_of_chain, ?_⟩
    simpa [or_imp, forall_and] using ⟨hkinds, hkeyKinds⟩
  | @binary op _ _ _ _ ih ihRight => exact isWritten_node (.binary op) ih ihRight
  | @logical op _ _ _ _ ih ihRight => exact isWritten_node (.logical op) ih ihRight
  | @unary op _ _ ih =>
    obtain ⟨n, kinds, hderives, hkinds⟩ := ih
    cases op with
    | not =>
      refine isWritten_of_expression hderives.ofChain.not.expression_of_operand ?_
      simpa using hkinds
    | negate =>
      refine isWritten_of_expression hderives.ofChain.negate.expression_of_operand ?_
      simpa using hkinds
  | conditional _ _ _ ih ihThen ihElse =>
    obtain ⟨n, kinds, hderives, hkinds⟩ := ih
    obtain ⟨m, thenKinds, hthenDerives, hthenKinds⟩ := ihThen
    obtain ⟨p, elseKinds, helseDerives, helseKinds⟩ := ihElse
    refine isWritten_of_expression (.conditional (hderives.connected_of_chain 6)
      hthenDerives.expression_of_chain helseDerives.expression_of_chain) ?_
    simpa [or_imp, forall_and] using ⟨hkinds, hthenKinds, helseKinds⟩

/-- **The source language.** A tree is what some text denotes under some limits exactly if it
is well-formed. -/
theorem exists_ofText_iff (e : Expr) :
    (∃ text limits, Expr.ofText limits text = .ok e) ↔ e.WellFormed := by
  refine ⟨?_, ?_⟩
  · rintro ⟨text, limits, h⟩
    obtain ⟨body, stop, n, htiles, -, hderives, -, -⟩ := Expr.ofText_eq_ok_iff.mp h
    refine hderives.wellFormed ?_
    intro kind hkind
    obtain ⟨token, htoken, rfl⟩ := List.mem_map.mp hkind
    refine (htiles.isLexical token (List.mem_append_left _ htoken)).resolve_left ?_
    exact hderives.kind_ne_eof _ hkind
  · intro h
    obtain ⟨n, kinds, hderives, hkinds⟩ := h.isWritten
    -- limits that the derivation and the tree just keep to
    obtain ⟨more, body, stop, htiles, hstop, rfl⟩ := exists_tiles hkinds 0
    refine ⟨String.ofList (' ' :: more), ⟨0, 1 + n, e.height⟩, Expr.ofText_eq_ok_iff.mpr ?_⟩
    rw [String.toList_ofList]
    exact ⟨body, stop, n, htiles, hstop, hderives.expression_of_chain, Nat.le_refl _,
      Nat.le_refl _⟩

end Expr

end ScreenedExpr
