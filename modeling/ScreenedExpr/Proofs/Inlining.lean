import ScreenedExpr.Expr.Eval
import ScreenedExpr.Proofs.Parser.Completeness

/-!
# Inlining a binding

A name that is bound to a scalar may be replaced by the literal of that scalar, in the tokens
or in the tree; the value is the same. A name behind a point is a property and no binding, so
it stays.

* `inlineKinds`, `Expr.inline` — the replacement among tokens and in a tree;
* `Expr.eval_inline` — a tree with the value put in evaluates as the tree with the name bound;
* `Derives.inline` — the tokens with the literal put in derive the tree with the value put in,
  at the same depth;
* `Parser.ofTokens_inline` — the parser reads one for the other, under the same limits.
-/

namespace ScreenedExpr

open Grammar

/-! ## Trees -/

namespace Expr

/-- The tree with a value in place of each identifier of a name. The name behind a point is a
literal of the tree, so it stays. -/
def inline (name : String) (value : Value) : Expr → Expr
  | literal other => literal other
  | identifier other => if other = name then literal value else identifier other
  | member object property computed =>
    member (object.inline name value) (property.inline name value) computed
  | binary op left right => binary op (left.inline name value) (right.inline name value)
  | logical op left right => logical op (left.inline name value) (right.inline name value)
  | unary op operand => unary op (operand.inline name value)
  | conditional test consequent alternate =>
    conditional (test.inline name value) (consequent.inline name value)
      (alternate.inline name value)

variable (name : String) (value : Value)

@[simp] theorem inline_dot (object : Expr) (property : String) :
    (dot object property).inline name value = dot (object.inline name value) property := rfl

@[simp] theorem inline_node (connective : Parser.Connective) (left right : Expr) :
    (connective.node left right).inline name value =
      connective.node (left.inline name value) (right.inline name value) := by
  cases connective <;> rfl

/-- A leaf takes the place of a leaf. -/
@[simp] theorem height_inline (e : Expr) : (e.inline name value).height = e.height := by
  induction e with
  | literal => rfl
  | identifier other =>
    rw [inline]
    split <;> rfl
  | member _ _ _ ih ih' | binary _ _ _ ih ih' | logical _ _ _ ih ih' =>
    simp only [inline, height, ih, ih']
  | unary _ _ ih => simp only [inline, height, ih]
  | conditional _ _ _ ih ih' ih'' => simp only [inline, height, ih, ih', ih'']

/-- **Putting a value in is binding it.** -/
theorem eval_inline (e : Expr) (context : Context) :
    (e.inline name value).eval context = e.eval (context.insert name value) := by
  induction e with
  | literal => rfl
  | identifier other =>
    rw [inline, eval, Context.value, Context.get?_insert]
    split
    · rfl
    · rfl
  | member _ _ _ ih ih' | binary _ _ _ ih ih' | logical _ _ _ ih ih' =>
    simp only [inline, eval, ih, ih']
  | unary _ _ ih => simp only [inline, eval, ih]
  | conditional _ _ _ ih ih' ih'' => simp only [inline, eval, ih, ih', ih'']

end Expr

/-! ## Tokens -/

/-- The kinds with a literal in place of each identifier of a name that stands behind no point;
`behindDot` says whether the first kind stands behind one. -/
def inlineKinds (name : String) (value : Literal) (behindDot : Bool) :
    List TokenKind → List TokenKind
  | [] => []
  | kind :: kinds =>
    (if kind = .identifier name ∧ behindDot = false then .literal value else kind) ::
      inlineKinds name value (decide (kind = .mark .dot)) kinds

variable (name : String) (value : Literal)

@[simp] theorem inlineKinds_nil (behindDot : Bool) :
    inlineKinds name value behindDot [] = [] := rfl

@[simp] theorem inlineKinds_mark (behindDot : Bool) (mark : Mark) (kinds : List TokenKind) :
    inlineKinds name value behindDot (.mark mark :: kinds) =
      .mark mark :: inlineKinds name value (decide (mark = .dot)) kinds := by
  simp [inlineKinds]

/-- Behind a kind that is no point, the replacement starts anew. -/
theorem inlineKinds_concat_append {last : TokenKind} (hlast : last ≠ .mark .dot)
    (front more : List TokenKind) (behindDot : Bool) :
    inlineKinds name value behindDot (front ++ [last] ++ more) =
      inlineKinds name value behindDot (front ++ [last]) ++
        inlineKinds name value false more := by
  induction front generalizing behindDot with
  | nil => simp [inlineKinds, hlast]
  | cons kind front ih => simp only [List.cons_append, inlineKinds, ih]

namespace Grammar

/-- What may stand behind a point stays there. -/
theorem PropertyName.inlineKinds_eq {kind : TokenKind} {property : String}
    (h : PropertyName kind property) : inlineKinds name value true [kind] = [kind] := by
  cases h <;> simp [inlineKinds]

namespace Derives

variable {phrase : Phrase} {n : Nat} {kinds : List TokenKind} {e : Expr}

/-- No phrase ends with a point. -/
theorem last_ne_dot (h : Derives phrase n kinds e) :
    ∃ front last, kinds = front ++ [last] ∧ last ≠ .mark .dot := by
  induction h with
  | literal | identifier => exact ⟨[], _, rfl, by simp⟩
  | parenthesized => exact ⟨_ :: _, _, rfl, by simp⟩
  | @dot _ kinds _ kind _ _ hname =>
    refine ⟨kinds ++ [.mark .dot], kind, by simp, ?_⟩
    rintro rfl
    cases hname
  | @index _ _ kinds keyKinds =>
    exact ⟨kinds ++ .mark .leftBracket :: keyKinds, .mark .rightBracket, by simp, by simp⟩
  | not _ ih | negate _ ih =>
    obtain ⟨front, last, rfl, hlast⟩ := ih
    exact ⟨_ :: front, last, rfl, hlast⟩
  | @connect _ _ _ kinds _ _ _ _ mark _ _ _ _ _ ih =>
    obtain ⟨front, last, rfl, hlast⟩ := ih
    exact ⟨kinds ++ .mark mark :: front, last, by simp, hlast⟩
  | @conditional _ _ _ kinds thenKinds _ _ _ _ _ _ _ _ _ ih =>
    obtain ⟨front, last, rfl, hlast⟩ := ih
    exact ⟨kinds ++ .mark .question :: (thenKinds ++ .mark .colon :: front), last, by simp,
      hlast⟩
  | ofPrimary _ ih | ofChain _ ih | ofOperand _ ih | weaken _ ih | ofConnected _ ih => exact ih

/-- Behind a phrase, the replacement starts anew. -/
theorem inlineKinds_append (h : Derives phrase n kinds e) (more : List TokenKind)
    (behindDot : Bool) :
    inlineKinds name value behindDot (kinds ++ more) =
      inlineKinds name value behindDot kinds ++ inlineKinds name value false more := by
  obtain ⟨front, last, rfl, hlast⟩ := h.last_ne_dot
  exact inlineKinds_concat_append name value hlast front more behindDot

/-- **Tokens with a literal put in derive the tree with its value put in**, nested no deeper.
Every phrase stays one of its stratum: a literal is a primary as an identifier is. -/
theorem inline (h : Derives phrase n kinds e) :
    Derives phrase n (inlineKinds name value false kinds) (e.inline name (.ofLiteral value)) := by
  induction h with
  | literal other => simpa [inlineKinds, Expr.inline] using Derives.literal other
  | identifier other =>
    by_cases hother : other = name
    · subst hother
      simpa [inlineKinds, Expr.inline] using Derives.literal value
    · simpa [inlineKinds, Expr.inline, hother] using Derives.identifier other
  | parenthesized inner ih =>
    rw [inlineKinds_mark, inner.inlineKinds_append]
    simpa using ih.parenthesized
  | ofPrimary _ ih => exact ih.ofPrimary
  | dot inner hname ih =>
    have hproperty := hname.inlineKinds_eq name value
    rw [inner.inlineKinds_append]
    simpa [hproperty] using ih.dot hname
  | index inner nested ih ihKey =>
    rw [inner.inlineKinds_append, inlineKinds_mark, nested.inlineKinds_append]
    simpa [Expr.inline] using ih.index ihKey
  | ofChain _ ih => exact ih.ofChain
  | not inner ih => simpa [Expr.inline] using ih.not
  | negate inner ih => simpa [Expr.inline] using ih.negate
  | ofOperand _ ih => exact ih.ofOperand
  | weaken _ ih => exact ih.weaken
  | @connect _ _ _ _ _ _ _ _ mark first hop hmark second ih ihRight =>
    have hdot : mark ≠ .dot := by
      rintro rfl
      cases connective?_eq_some hop hmark
    rw [first.inlineKinds_append, inlineKinds_mark, decide_eq_false hdot]
    simpa using ih.connect hop hmark ihRight
  | ofConnected _ ih => exact ih.ofConnected
  | conditional first second third ih ihThen ihElse =>
    rw [first.inlineKinds_append, inlineKinds_mark, second.inlineKinds_append, inlineKinds_mark]
    simpa [Expr.inline] using ih.conditional ihThen ihElse

end Derives

end Grammar

/-- What stands behind a point stays there. -/
theorem inlineKinds_behind_dot {kinds : List TokenKind} {i : Nat}
    (h : kinds[i]? = some (.mark .dot)) (behindDot : Bool) :
    (inlineKinds name value behindDot kinds)[i + 1]? = kinds[i + 1]? := by
  induction kinds generalizing i behindDot with
  | nil => rfl
  | cons kind kinds ih =>
    rw [inlineKinds, List.getElem?_cons_succ, List.getElem?_cons_succ]
    cases i with
    | zero =>
      obtain rfl : kind = .mark .dot := by simpa using h
      cases kinds <;> simp [inlineKinds]
    | succ i => exact ih h _

/-! ## Sequences of tokens -/

namespace Parser

/-- **Inlining a scalar binding.** When a sequence of tokens is an expression, then the one
with a literal in place of each identifier of a name, except behind a point, is an expression
under the same limits. Its tree has the literal's value in the same places, and evaluates in
every context to what the first evaluates to where the name is bound to the value. -/
theorem ofTokens_inline (limits : Limits) (body : List Token) (stop : Token)
    (hbody : ∀ t ∈ body, t.kind ≠ .eof) (hstop : stop.kind = .eof) (name : String)
    (value : Literal) (e : Expr) (h : Expr.ofTokens limits (body ++ [stop]) = .ok e)
    (body' : List Token)
    (hbody' : body'.map Token.kind = inlineKinds name value false (body.map Token.kind)) :
    Expr.ofTokens limits (body' ++ [stop]) = .ok (e.inline name (.ofLiteral value)) ∧
      (∀ context : Context, (e.inline name (.ofLiteral value)).eval context =
        e.eval (context.insert name (.ofLiteral value))) ∧
      ∀ i, (body.map Token.kind)[i]? = some (.mark .dot) →
        (body'.map Token.kind)[i + 1]? = (body.map Token.kind)[i + 1]? := by
  obtain ⟨n, hderives, hdepth, hheight⟩ := derives_of_ofTokens hbody hstop h
  have hinlined := hderives.inline name value
  rw [← hbody'] at hinlined
  refine ⟨?_, e.eval_inline name (.ofLiteral value), ?_⟩
  · apply ofTokens_of_derives hstop hinlined hdepth
    rwa [Expr.height_inline]
  · intro i hdot
    rw [hbody', inlineKinds_behind_dot name value hdot]

/-- The tokens of `x.x[x] ? -x : y`, with a literal or a name in place of the `x` that are
looked up. -/
def lookedUp (kind : TokenKind) : List Token :=
  [⟨kind, ⟨0, 1⟩⟩, ⟨.mark .dot, ⟨1, 2⟩⟩, ⟨.identifier "x", ⟨2, 3⟩⟩,
   ⟨.mark .leftBracket, ⟨3, 4⟩⟩, ⟨kind, ⟨4, 5⟩⟩, ⟨.mark .rightBracket, ⟨5, 6⟩⟩,
   ⟨.mark .question, ⟨7, 8⟩⟩, ⟨.mark .minus, ⟨9, 10⟩⟩, ⟨kind, ⟨10, 11⟩⟩,
   ⟨.mark .colon, ⟨12, 13⟩⟩, ⟨.identifier "y", ⟨14, 15⟩⟩]

/-- The tree of those tokens. -/
def lookedUpTree (x : Expr) : Expr :=
  .conditional (.member (.dot x "x") x true) (.unary .negate x) (.identifier "y")

/-- The object, the key and the operand of `x.x[x] ? -x : y` become literals, and the property
stays; no level of nesting or height is added. -/
theorem ofTokens_inline_lookedUp :
    Expr.ofTokens ⟨15, 3, 4⟩ (lookedUp (.identifier "x") ++ [⟨.eof, ⟨15, 15⟩⟩]) =
        .ok (lookedUpTree (.identifier "x")) ∧
      Expr.ofTokens ⟨15, 3, 4⟩ (lookedUp (.literal (.string "s")) ++ [⟨.eof, ⟨15, 15⟩⟩]) =
        .ok (lookedUpTree (.literal (.string "s"))) ∧
      ∀ context : Context, (lookedUpTree (.literal (.string "s"))).eval context =
        (lookedUpTree (.identifier "x")).eval (context.insert "x" (.string "s")) := by
  have h : Expr.ofTokens ⟨15, 3, 4⟩ (lookedUp (.identifier "x") ++ [⟨.eof, ⟨15, 15⟩⟩]) =
      .ok (lookedUpTree (.identifier "x")) := by
    decide +kernel
  obtain ⟨hread, heval, -⟩ := ofTokens_inline ⟨15, 3, 4⟩ _ ⟨.eof, ⟨15, 15⟩⟩ (by decide) rfl "x"
    (.string "s") _ h (lookedUp (.literal (.string "s"))) rfl
  exact ⟨h, hread, heval⟩

end Parser

end ScreenedExpr
