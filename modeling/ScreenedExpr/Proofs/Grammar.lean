import Mathlib.Data.List.Chain
import ScreenedExpr.Expr.Parser

/-!
# The grammar of expressions

Which trees a sequence of token kinds stands for, apart from any way to find them. The
grammar is stratified from strong to weak binding, and each stratum contains the ones
before it:

* a **primary**: a literal, a name, or an expression in parentheses, which leave no node;
* a **chain**: a primary followed by `.name` and `[expression]` steps, to the left;
* an **operand**: a chain behind any number of `!` and `-`;
* **connected** operands: six strengths of operators, each associating to the left;
* an **expression**: connected operands, or a conditional that has them as its test and
  full expressions as its branches.

`Derives phrase n kinds tree` says that the kinds are a phrase of that stratum for the
tree, and that `n` is the largest number of parentheses, index brackets, conditional
branches and operators in front that enclose any one point of it.

* `Derives.kind_ne_eof` — no phrase contains an end of input;
* `Derives.isChain_mark` — of two neighbouring tokens at least one is a mark.
-/

namespace ScreenedExpr.Grammar

open ScreenedExpr.Parser

/-! ## Operators and names -/

/-- The spelling of an operator between two operands. -/
def symbol : Connective → String
  | .binary op => op.symbol
  | .logical .and => "&&"
  | .logical .or => "||"

/-- The operators of each strength: the greater the strength, the weaker they bind. -/
def operators : Nat → List Connective
  | 0 => [.binary .multiply, .binary .divide, .binary .remainder]
  | 1 => [.binary .add, .binary .subtract]
  | 2 => [.binary .less, .binary .greater, .binary .lessEqual, .binary .greaterEqual]
  | 3 => [.binary .looseEqual, .binary .looseNotEqual, .binary .strictEqual,
      .binary .strictNotEqual]
  | 4 => [.logical .and]
  | 5 => [.logical .or]
  | _ => []

/-- The kinds that may stand behind a point, where keywords are ordinary names. -/
inductive PropertyName : TokenKind → String → Prop where
  /-- a name -/
  | identifier (name : String) : PropertyName (.identifier name) name
  /-- the keyword `true` -/
  | yes : PropertyName (.literal (.boolean true)) "true"
  /-- the keyword `false` -/
  | no : PropertyName (.literal (.boolean false)) "false"
  /-- the keyword `null` -/
  | null : PropertyName (.literal .null) "null"
  /-- the keyword `undefined` -/
  | undefined : PropertyName (.literal .undefined) "undefined"

/-! ## Phrases -/

/-- The strata of the grammar. -/
inductive Phrase where
  /-- what a member step or an operator in front can be put to -/
  | primary
  /-- a primary with member steps -/
  | chain
  /-- a chain with operators in front -/
  | operand
  /-- operands connected by operators of strengths below the given one -/
  | connected (strength : Nat)
  /-- everything -/
  | expression

/-- **The grammar.** The kinds are a phrase for the tree, with that many levels of nesting
inside. -/
inductive Derives : Phrase → Nat → List TokenKind → Expr → Prop where
  /-- a literal is a primary -/
  | literal (value : Literal) :
      Derives .primary 0 [.literal value] (.literal (.ofLiteral value))
  /-- a name is a primary -/
  | identifier (name : String) : Derives .primary 0 [.identifier name] (.identifier name)
  /-- an expression in parentheses is a primary for the same tree -/
  | parenthesized {n : Nat} {kinds : List TokenKind} {e : Expr}
      (inner : Derives .expression n kinds e) :
      Derives .primary (n + 1) (.mark .leftParen :: (kinds ++ [.mark .rightParen])) e
  /-- a primary is a chain -/
  | ofPrimary {n : Nat} {kinds : List TokenKind} {e : Expr}
      (inner : Derives .primary n kinds e) : Derives .chain n kinds e
  /-- a chain goes on with the name of a member -/
  | dot {n : Nat} {kinds : List TokenKind} {object : Expr} {kind : TokenKind} {name : String}
      (inner : Derives .chain n kinds object) (hname : PropertyName kind name) :
      Derives .chain n (kinds ++ [.mark .dot, kind]) (.dot object name)
  /-- a chain goes on with the computed key of a member -/
  | index {n m : Nat} {kinds keyKinds : List TokenKind} {object key : Expr}
      (inner : Derives .chain n kinds object) (nested : Derives .expression m keyKinds key) :
      Derives .chain (max n (m + 1))
        (kinds ++ .mark .leftBracket :: (keyKinds ++ [.mark .rightBracket]))
        (.member object key true)
  /-- a chain is an operand -/
  | ofChain {n : Nat} {kinds : List TokenKind} {e : Expr}
      (inner : Derives .chain n kinds e) : Derives .operand n kinds e
  /-- `!` in front of an operand -/
  | not {n : Nat} {kinds : List TokenKind} {e : Expr} (inner : Derives .operand n kinds e) :
      Derives .operand (n + 1) (.mark .bang :: kinds) (.unary .not e)
  /-- `-` in front of an operand -/
  | negate {n : Nat} {kinds : List TokenKind} {e : Expr}
      (inner : Derives .operand n kinds e) :
      Derives .operand (n + 1) (.mark .minus :: kinds) (.unary .negate e)
  /-- an operand is connected by no operator -/
  | ofOperand {n : Nat} {kinds : List TokenKind} {e : Expr}
      (inner : Derives .operand n kinds e) : Derives (.connected 0) n kinds e
  /-- operands need not be connected by operators of the weakest strength allowed -/
  | weaken {s n : Nat} {kinds : List TokenKind} {e : Expr}
      (inner : Derives (.connected s) n kinds e) : Derives (.connected (s + 1)) n kinds e
  /-- an operator between operands, the left of which may contain others as weak -/
  | connect {s n m : Nat} {kinds rightKinds : List TokenKind} {left right : Expr}
      {connective : Connective} {mark : Mark}
      (first : Derives (.connected (s + 1)) n kinds left)
      (hop : connective ∈ operators s) (hmark : mark.symbol = symbol connective)
      (second : Derives (.connected s) m rightKinds right) :
      Derives (.connected (s + 1)) (max n m) (kinds ++ .mark mark :: rightKinds)
        (connective.node left right)
  /-- connected operands are an expression -/
  | ofConnected {n : Nat} {kinds : List TokenKind} {e : Expr}
      (inner : Derives (.connected 6) n kinds e) : Derives .expression n kinds e
  /-- a conditional -/
  | conditional {n m p : Nat} {kinds thenKinds elseKinds : List TokenKind}
      {test consequent alternate : Expr}
      (first : Derives (.connected 6) n kinds test)
      (second : Derives .expression m thenKinds consequent)
      (third : Derives .expression p elseKinds alternate) :
      Derives .expression (max n (max (m + 1) (p + 1)))
        (kinds ++ .mark .question :: (thenKinds ++ .mark .colon :: elseKinds))
        (.conditional test consequent alternate)

/-! ## What phrases are made of -/

/-- A kind that is spelled by a mark. -/
def IsMark (kind : TokenKind) : Prop := ∃ mark, kind = .mark mark

@[simp] theorem isMark_mark (mark : Mark) : IsMark (.mark mark) := ⟨mark, rfl⟩

namespace PropertyName

variable {kind : TokenKind} {name : String}

/-- The parser's table says the same. -/
theorem propertyName?_eq_some_iff : kind.propertyName? = some name ↔ PropertyName kind name := by
  refine ⟨?_, ?_⟩
  · intro h
    unfold TokenKind.propertyName? at h
    split at h <;> cases h
    · exact .identifier _
    · exact .yes
    · exact .no
    · exact .null
    · exact .undefined
  · rintro (_ | _ | _ | _ | _) <;> rfl

theorem ne_eof (h : PropertyName kind name) : kind ≠ .eof := by
  cases h <;> simp

end PropertyName

/-- The parser's table of operators says the same. -/
theorem connectiveAt_eq_some_iff {s : Nat} {kind : TokenKind} {connective : Connective} :
    connectiveAt s kind = some connective ↔
      connective ∈ operators s ∧ ∃ mark, kind = .mark mark ∧ mark.symbol = symbol connective := by
  refine ⟨?_, ?_⟩
  · intro h
    cases kind with
    | mark mark =>
      cases mark <;> simp [connectiveAt, connective?] at h <;> obtain ⟨rfl, rfl⟩ := h <;>
        exact ⟨by simp [operators], _, rfl, rfl⟩
    | _ => cases h
  · rintro ⟨hop, mark, rfl, hmark⟩
    match s with
    | 0 | 1 | 2 | 3 | 4 | 5 =>
      simp only [operators, List.mem_cons, List.not_mem_nil, or_false] at hop
      rcases hop with rfl | rfl | rfl | rfl <;> cases mark <;>
        simp_all [Mark.symbol, symbol, BinaryOp.symbol, connectiveAt, connective?]
    | s + 6 => cases hop

/-- The mark of an operator stands in the parser's table. -/
theorem connective?_eq_some {s : Nat} {connective : Connective} {mark : Mark}
    (hop : connective ∈ operators s) (hmark : mark.symbol = symbol connective) :
    connective? mark = some (s, connective) := by
  have h := connectiveAt_eq_some_iff.mpr ⟨hop, mark, rfl, hmark⟩
  rw [connectiveAt] at h
  grind

namespace Derives

variable {phrase : Phrase} {n : Nat} {kinds : List TokenKind} {e : Expr}

/-- **No phrase contains an end of input.** -/
theorem kind_ne_eof (h : Derives phrase n kinds e) : ∀ kind ∈ kinds, kind ≠ .eof := by
  induction h <;> grind [PropertyName.ne_eof]

/-- A phrase has a token. -/
theorem ne_nil (h : Derives phrase n kinds e) : kinds ≠ [] := by
  induction h with
  | ofPrimary _ ih | ofChain _ ih | ofOperand _ ih | weaken _ ih | ofConnected _ ih => exact ih
  | _ => simp

/-- **Of two neighbouring tokens of a phrase at least one is a mark**, so that no two
literals or names ever follow each other. -/
theorem isChain_mark (h : Derives phrase n kinds e) :
    kinds.IsChain fun a b => IsMark a ∨ IsMark b := by
  induction h with
  | literal | identifier => exact List.isChain_singleton _
  | ofPrimary _ ih | ofChain _ ih | ofOperand _ ih | weaken _ ih | ofConnected _ ih => exact ih
  | _ => simp_all [List.isChain_append, List.isChain_cons]

/-! ## From stratum to stratum -/

/-- What binds strongly may stand where weaker operators may. -/
theorem weaken_le {s t : Nat} (h : Derives (.connected s) n kinds e) (hst : s ≤ t) :
    Derives (.connected t) n kinds e := by
  induction hst with
  | refl => exact h
  | step _ ih => exact ih.weaken

/-- A chain may stand between any operators. -/
theorem connected_of_chain (h : Derives .chain n kinds e) (s : Nat) :
    Derives (.connected s) n kinds e :=
  h.ofChain.ofOperand.weaken_le (Nat.zero_le s)

theorem expression_of_operand (h : Derives .operand n kinds e) : Derives .expression n kinds e :=
  (h.ofOperand.weaken_le (Nat.zero_le 6)).ofConnected

theorem expression_of_chain (h : Derives .chain n kinds e) : Derives .expression n kinds e :=
  h.ofChain.expression_of_operand

/-- In parentheses every expression is a chain. -/
theorem chain_of_expression (h : Derives .expression n kinds e) :
    Derives .chain (n + 1) (.mark .leftParen :: (kinds ++ [.mark .rightParen])) e :=
  h.parenthesized.ofPrimary

end Derives

end ScreenedExpr.Grammar
