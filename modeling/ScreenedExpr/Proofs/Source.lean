import ScreenedExpr.Proofs.Lexer.Tiles
import ScreenedExpr.Proofs.Parser.Completeness

/-!
# From text to tree

A text is an expression if its tokens tile it and derive a tree within the limits. What a
tree is made of is then found again among the tokens.

* `Expr.ofText_eq_ok_iff` — both layers together;
* `Expr.names`, `Expr.strings` — the names and the string literals of a tree;
* `Derives.propertyName?_of_mem_names`, `Derives.strings_eq` — the tokens they come from.
-/

namespace ScreenedExpr

open Grammar

/-- **Reading a text.** It is an expression exactly if its tokens derive one within the
limits. -/
theorem Expr.ofText_eq_ok_iff {limits : Limits} {text : String} {e : Expr} :
    Expr.ofText limits text = .ok e ↔ ∃ body stop n, Tiles 0 text.toList (body ++ [stop]) ∧
      stop.kind = .eof ∧ Derives .expression n (body.map Token.kind) e ∧
      1 + n ≤ limits.depth ∧ e.height ≤ limits.height := by
  rw [Expr.ofText]
  refine ⟨?_, ?_⟩
  · intro h
    split at h
    · cases h
    · next tokens htokens =>
      have htiles := tokenize_eq_ok_iff.mp htokens
      obtain ⟨body, stop, rfl, hstop, hbody⟩ := htiles.eq_concat
      cases hparsed : Expr.ofTokens limits (body ++ [stop]) with
      | error => rw [hparsed] at h; cases h
      | ok parsed =>
        rw [hparsed] at h
        cases h
        obtain ⟨n, hderives, hdepth, hheight⟩ := Parser.derives_of_ofTokens hbody hstop hparsed
        exact ⟨body, stop, n, htiles, hstop, hderives, hdepth, hheight⟩
  · rintro ⟨body, stop, n, htiles, hstop, hderives, hdepth, hheight⟩
    rw [tokenize_eq_ok_iff.mpr htiles]
    dsimp only
    rw [Parser.ofTokens_of_derives hstop hderives hdepth hheight]
    rfl

/-- **No expression is blank.** -/
theorem Expr.not_blank_of_ofText {limits : Limits} {text : String} {e : Expr}
    (h : Expr.ofText limits text = .ok e) : ¬text.toList.all Text.isBlank = true := by
  obtain ⟨body, stop, n, htiles, hstop, hderives, -⟩ := ofText_eq_ok_iff.mp h
  intro hblank
  rw [List.all_eq_true] at hblank
  -- a blank text has no token but the end of the input
  have htokens := (tokenize_eq_ok_iff.mpr htiles).symm.trans (tokenize_eq_ok_iff.mpr (.done hblank))
  have hbody : body = [] := by
    have hlength := congrArg List.length (Except.ok.inj htokens)
    simpa using hlength
  rw [hbody] at hderives
  exact hderives.ne_nil rfl

/-! ## Names and strings of a tree -/

namespace Expr

/-- The names in a tree: those looked up in the context, and those behind a point. -/
def names : Expr → List String
  | literal _ => []
  | identifier name => [name]
  | member object (literal (.string name)) false => object.names ++ [name]
  | member object property _ => object.names ++ property.names
  | binary _ left right | logical _ left right => left.names ++ right.names
  | unary _ operand => operand.names
  | conditional test consequent alternate =>
    test.names ++ consequent.names ++ alternate.names

/-- The string literals in a tree, in order; a name behind a point is none. -/
def strings : Expr → List String
  | literal (.string s) => [s]
  | literal _ | identifier _ => []
  | member object (literal _) false => object.strings
  | member object property _ => object.strings ++ property.strings
  | binary _ left right | logical _ left right => left.strings ++ right.strings
  | unary _ operand => operand.strings
  | conditional test consequent alternate =>
    test.strings ++ consequent.strings ++ alternate.strings

variable (left right : Expr) (connective : Parser.Connective)

@[simp] theorem names_dot (object : Expr) (name : String) :
    (dot object name).names = object.names ++ [name] := rfl

@[simp] theorem names_node : (connective.node left right).names = left.names ++ right.names := by
  cases connective <;> rfl

@[simp] theorem strings_dot (object : Expr) (name : String) :
    (dot object name).strings = object.strings := rfl

@[simp] theorem strings_node :
    (connective.node left right).strings = left.strings ++ right.strings := by
  cases connective <;> rfl

end Expr

/-- The text of a string literal. -/
def TokenKind.string? : TokenKind → Option String
  | literal (.string s) => some s
  | _ => none

@[simp] theorem TokenKind.string?_mark (m : Mark) : (mark m).string? = none := rfl

@[simp] theorem TokenKind.string?_eof : eof.string? = none := rfl

/-- What a name makes is no string. -/
theorem TokenKind.string?_ofName (name : String) : (ofName name).string? = none := by
  have h := propertyName?_ofName name
  cases hkind : ofName name with
  | literal value => cases value <;> simp_all [propertyName?, string?]
  | _ => rfl

namespace Grammar

theorem PropertyName.string?_eq_none {kind : TokenKind} {name : String}
    (h : PropertyName kind name) : kind.string? = none := by
  cases h <;> rfl

namespace Derives

variable {phrase : Phrase} {n : Nat} {kinds : List TokenKind} {e : Expr}

/-- **Every name of a tree** is a token that may stand for a name. -/
theorem propertyName?_of_mem_names (h : Derives phrase n kinds e) :
    ∀ name ∈ e.names, ∃ kind ∈ kinds, kind.propertyName? = some name := by
  induction h with
  | dot _ hname ih =>
    intro name hmem
    rw [Expr.names_dot, List.mem_append, List.mem_singleton] at hmem
    rcases hmem with hmem | rfl
    · obtain ⟨kind, hkind, hname⟩ := ih name hmem
      exact ⟨kind, List.mem_append_left _ hkind, hname⟩
    · exact ⟨_, by simp, PropertyName.propertyName?_eq_some_iff.mpr hname⟩
  | identifier => simp [Expr.names, TokenKind.propertyName?]
  | _ => grind [Expr.names, Expr.names_node]

/-- **The string literals of a tree** are the strings among its tokens, in order. -/
theorem strings_eq (h : Derives phrase n kinds e) :
    e.strings = kinds.filterMap TokenKind.string? := by
  induction h with
  | literal value => cases value <;> rfl
  | identifier => rfl
  | dot _ hname ih => simp [ih, hname.string?_eq_none]
  | _ => simp_all [Expr.strings, List.filterMap_cons]

end Derives

end Grammar

end ScreenedExpr
