import ScreenedExpr.Proofs.Screening

/-!
# The size of a tree and the length of its text

Every token of an expression is paid for: a node of the tree takes one token, except that a
pair of parentheses takes two and leaves no node, a pair of brackets takes two for one node,
and so do the marks of a conditional, while a point and a name take two for two nodes. So the
length of an accepted text bounds the size of its tree, and with it what an evaluation costs.

* `Derives.size_eq` — the account of the tokens of a phrase;
* `Tiles.length_le` — a text has no more tokens than characters, the end of the input apart;
* `Expr.reduce` — evaluation with a count of the nodes visited and of the levels of recursion;
* `Sandbox.screen_bounded` — the bounds of an accepted text.
-/

namespace ScreenedExpr

open Grammar

/-! ## Tokens and nodes -/

namespace Grammar

/-- How often a mark occurs. -/
def occurrences (mark : Mark) (kinds : List TokenKind) : Nat := kinds.count (.mark mark)

section occurrences

variable (mark : Mark)

@[simp, grind =] theorem occurrences_nil : occurrences mark [] = 0 := rfl

@[simp, grind =] theorem occurrences_append (first second : List TokenKind) :
    occurrences mark (first ++ second) = occurrences mark first + occurrences mark second :=
  List.count_append

@[simp, grind =] theorem occurrences_mark (found : Mark) (kinds : List TokenKind) :
    occurrences mark (.mark found :: kinds) =
      occurrences mark kinds + if found = mark then 1 else 0 := by
  simp [occurrences, List.count_cons]

/-- What is no mark does not count. -/
theorem occurrences_cons {kind : TokenKind} (h : ¬IsMark kind) (kinds : List TokenKind) :
    occurrences mark (kind :: kinds) = occurrences mark kinds := by
  apply List.count_cons_of_ne
  rintro rfl
  exact h ⟨mark, rfl⟩

end occurrences

/-- An operator between operands is none of the other marks. -/
theorem occurrences_operator {s : Nat} {connective : Parser.Connective} {found : Mark}
    (hop : connective ∈ operators s) (hfound : found.symbol = symbol connective) (mark : Mark)
    (hmark : Parser.connective? mark = none) (kinds : List TokenKind) :
    occurrences mark (.mark found :: kinds) = occurrences mark kinds := by
  have hne : found ≠ mark := by
    rintro rfl
    cases hmark.symm.trans (connective?_eq_some hop hfound)
  simp [hne]

/-- A name behind a point is no mark. -/
theorem PropertyName.not_isMark {kind : TokenKind} {name : String} (h : PropertyName kind name) :
    ¬IsMark kind := by
  rintro ⟨mark, rfl⟩
  cases h

/-- An operator adds its node to those of its operands. -/
theorem size_node (connective : Parser.Connective) (left right : Expr) :
    (connective.node left right).size = left.size + right.size + 1 := by
  cases connective <;> rfl

namespace Derives

variable {phrase : Phrase} {n : Nat} {kinds : List TokenKind} {e : Expr}

/-- **The account of tokens.** A token is a node, but for one of each pair of brackets, one of
each pair of marks of a conditional, and both parentheses of a pair. -/
theorem size_eq (h : Derives phrase n kinds e) :
    e.size + 2 * occurrences .leftParen kinds + occurrences .leftBracket kinds +
      occurrences .question kinds = kinds.length := by
  induction h with
  | literal | identifier => rfl
  | ofPrimary _ ih | ofChain _ ih | ofOperand _ ih | weaken _ ih | ofConnected _ ih => exact ih
  | dot _ hname => grind [occurrences_cons, hname.not_isMark, Expr.dot, Expr.size]
  | connect _ hop hmark _ ih ihRight =>
    have hother := occurrences_operator hop hmark
    simp only [occurrences_append, hother .leftParen rfl, hother .leftBracket rfl,
      hother .question rfl, List.length_append, List.length_cons, size_node]
    omega
  | _ => grind [Expr.size]

/-- **Enclosing marks come in pairs.** -/
theorem occurrences_eq (h : Derives phrase n kinds e) :
    occurrences .leftParen kinds = occurrences .rightParen kinds ∧
      occurrences .leftBracket kinds = occurrences .rightBracket kinds ∧
      occurrences .question kinds = occurrences .colon kinds := by
  induction h with
  | literal | identifier => exact ⟨rfl, rfl, rfl⟩
  | ofPrimary _ ih | ofChain _ ih | ofOperand _ ih | weaken _ ih | ofConnected _ ih => exact ih
  | dot _ hname => grind [occurrences_cons, hname.not_isMark]
  | connect _ hop hmark _ ih ihRight =>
    have hother := occurrences_operator hop hmark
    simp only [occurrences_append, hother .leftParen rfl, hother .rightParen rfl,
      hother .leftBracket rfl, hother .rightBracket rfl, hother .question rfl,
      hother .colon rfl, ih, ihRight, and_self]
  | _ => grind

end Derives

end Grammar

/-! ## What an evaluation costs -/

/-- An evaluation and its cost. -/
structure Reduction where
  /-- the value of the tree -/
  value : Value
  /-- the nodes that were evaluated -/
  visits : Nat
  /-- the evaluations that were under way at once, at most -/
  levels : Nat

namespace Expr

/-- **Evaluation with its cost**: each node that is evaluated counts once, and is one level above
the nodes that it evaluates. -/
def reduce (context : Context) : Expr → Reduction
  | literal value => ⟨value, 1, 1⟩
  | identifier name => ⟨context.value name, 1, 1⟩
  | member object property _ =>
    let object := object.reduce context
    if object.value.isNullish then ⟨.undefined, object.visits + 1, object.levels + 1⟩
    else
      let key := property.reduce context
      ⟨object.value.member key.value, object.visits + key.visits + 1,
        max object.levels key.levels + 1⟩
  | binary op left right =>
    let left := left.reduce context
    let right := right.reduce context
    ⟨op.apply left.value right.value, left.visits + right.visits + 1,
      max left.levels right.levels + 1⟩
  | logical op left right =>
    let left := left.reduce context
    if op.decides left.value then ⟨left.value, left.visits + 1, left.levels + 1⟩
    else
      let right := right.reduce context
      ⟨right.value, left.visits + right.visits + 1, max left.levels right.levels + 1⟩
  | unary op operand =>
    let operand := operand.reduce context
    ⟨op.apply operand.value, operand.visits + 1, operand.levels + 1⟩
  | conditional test consequent alternate =>
    let test := test.reduce context
    let branch :=
      if test.value.isTruthy then consequent.reduce context else alternate.reduce context
    ⟨branch.value, test.visits + branch.visits + 1, max test.levels branch.levels + 1⟩

variable (context : Context) (e : Expr)

/-- The cost is counted beside the value, which is the same. -/
@[simp] theorem value_reduce : (e.reduce context).value = e.eval context := by
  induction e with
  | literal | identifier => rfl
  | member _ _ _ ih ih' | logical _ _ _ ih ih' =>
    simp only [reduce, eval, ih]
    split
    · rfl
    · rw [ih']
  | binary _ _ _ ih ih' => simp only [reduce, eval, ih, ih']
  | unary _ _ ih => simp only [reduce, eval, ih]
  | conditional _ _ _ ih ihThen ihElse =>
    simp only [reduce, eval, ih]
    split
    · exact ihThen
    · exact ihElse

/-- **No node is evaluated twice.** -/
theorem visits_reduce_le : (e.reduce context).visits ≤ e.size := by
  induction e with
  | literal | identifier => exact Nat.le_refl _
  | member _ _ _ ih ih' | logical _ _ _ ih ih' =>
    simp only [reduce, size]
    split
    · dsimp only
      omega
    · dsimp only
      omega
  | binary _ _ _ ih ih' =>
    simp only [reduce, size]
    omega
  | unary _ _ ih => exact Nat.succ_le_succ ih
  | conditional _ _ _ ih ihThen ihElse =>
    simp only [reduce, size]
    split <;> omega

/-- **The recursion is no deeper than the tree is high.** -/
theorem levels_reduce_le : (e.reduce context).levels ≤ e.height := by
  induction e with
  | literal | identifier => exact Nat.le_refl _
  | member _ _ _ ih ih' | logical _ _ _ ih ih' =>
    simp only [reduce, height]
    split
    · dsimp only
      omega
    · dsimp only
      omega
  | binary _ _ _ ih ih' =>
    simp only [reduce, height]
    omega
  | unary _ _ ih => exact Nat.succ_le_succ ih
  | conditional _ _ _ ih ihThen ihElse =>
    simp only [reduce, height]
    split <;> omega

end Expr

/-! ## Screening -/

namespace Sandbox

/-- **The text bounds the tree.** The nodes of an accepted text's tree are its tokens without
the end of the input, less two for each pair of parentheses, one for each pair of brackets
and one for each conditional. So there are no more nodes than tokens, no more tokens than
characters, and no more characters than allowed; and the tree is no higher than allowed. An
evaluation visits each node at most once, and its recursion is no deeper than the tree. -/
theorem screen_bounded (sandbox : Sandbox) (text : String) (tree : Expr)
    (h : sandbox.screen text = .ok tree) : ∃ tokens kinds,
      tokenize text = .ok tokens ∧ tokens.map Token.kind = kinds ++ [.eof] ∧ .eof ∉ kinds ∧
      (occurrences .leftParen kinds = occurrences .rightParen kinds ∧
        occurrences .leftBracket kinds = occurrences .rightBracket kinds ∧
        occurrences .question kinds = occurrences .colon kinds) ∧
      tree.size + 2 * occurrences .leftParen kinds + occurrences .leftBracket kinds +
        occurrences .question kinds = kinds.length ∧
      (tree.size ≤ kinds.length ∧ kinds.length ≤ text.toList.length ∧
        text.toList.length ≤ sandbox.limits.length) ∧
      tree.height ≤ min sandbox.limits.height tree.size ∧
      ∀ context, (tree.reduce context).value = tree.eval context ∧
        (tree.reduce context).visits ≤ tree.size ∧
        (tree.reduce context).levels ≤ tree.height := by
  obtain ⟨hlength, -, hread⟩ := screen_eq_ok_iff.mp h
  obtain ⟨body, stop, n, htiles, hstop, hderives, -, hheight⟩ := Expr.ofText_eq_ok_iff.mp hread
  have hsize := hderives.size_eq
  have htokens := htiles.length_le
  rw [List.length_append, List.length_singleton] at htokens
  have hkinds : (body ++ [stop]).map Token.kind = body.map Token.kind ++ [.eof] := by
    rw [List.map_append, List.map_singleton, hstop]
  refine ⟨body ++ [stop], body.map Token.kind, tokenize_eq_ok_iff.mpr htiles, hkinds, ?_,
    hderives.occurrences_eq, hsize, ?_, Nat.le_min.mpr ⟨hheight, tree.height_le_size⟩, ?_⟩
  · intro heof
    exact hderives.kind_ne_eof _ heof rfl
  · rw [List.length_map] at hsize ⊢
    exact ⟨by omega, by omega, hlength⟩
  · intro context
    exact ⟨tree.value_reduce context, tree.visits_reduce_le context,
      tree.levels_reduce_le context⟩

/-- The tree of `(a[1]).b ? -c : (d)`. -/
def accounted : Expr :=
  .conditional (.dot (.member (.identifier "a") (.literal (.number (.ofNat 1))) true) "b")
    (.unary .negate (.identifier "c")) (.identifier "d")

/-- Fifteen tokens make nine nodes, as the two pairs of parentheses, the pair of brackets and
the conditional take six; and no evaluation visits more than nine. -/
theorem screen_accounted :
    standard.screen "(a[1]).b ? -c : (d)" = .ok accounted ∧
      (∃ tokens kinds, tokenize "(a[1]).b ? -c : (d)" = .ok tokens ∧
        tokens.map Token.kind = kinds ++ [.eof] ∧
        9 + 2 * occurrences .leftParen kinds + occurrences .leftBracket kinds +
          occurrences .question kinds = kinds.length) ∧
      ∀ context, (accounted.reduce context).visits ≤ 9 ∧
        (accounted.reduce context).levels ≤ 4 := by
  have h : standard.screen "(a[1]).b ? -c : (d)" = .ok accounted := by
    decide +kernel
  obtain ⟨tokens, kinds, htokens, hkinds, -, -, hsize, -, -, hcost⟩ :=
    screen_bounded standard _ accounted h
  exact ⟨h, ⟨tokens, kinds, htokens, hkinds, hsize⟩, fun context => (hcost context).2⟩

end Sandbox

end ScreenedExpr
