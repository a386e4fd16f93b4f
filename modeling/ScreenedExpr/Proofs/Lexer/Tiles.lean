import ScreenedExpr.Proofs.Lexer.Lexemes

/-!
# Tokens tile the text

A text is a sequence of tokens if it is nothing but their lexemes, in order, with blank
characters anywhere between them, and every token has the span of its lexeme.

* `Tiles` — the relation between a text, where it starts, and its tokens;
* `tokenize_eq_ok_iff` — the tokens of a text are those that tile it.
-/

namespace ScreenedExpr

/-- **The tokens of a text** that starts at an offset. -/
inductive Tiles : Nat → List Char → List Token → Prop where
  /-- behind the last token there are blank characters and the end of the input -/
  | done {offset : Nat} {blanks : List Char} (hblanks : ∀ c ∈ blanks, Text.isBlank c = true) :
      Tiles offset blanks
        [⟨.eof, ⟨offset + blanks.length, offset + blanks.length⟩⟩]
  /-- a token stands behind blank characters -/
  | token {offset : Nat} {blanks lexeme rest : List Char} {kind : TokenKind}
      {tokens : List Token} (hblanks : ∀ c ∈ blanks, Text.isBlank c = true)
      (hlexeme : Lexeme lexeme kind rest)
      (more : Tiles (offset + blanks.length + lexeme.length) rest tokens) :
      Tiles offset (blanks ++ (lexeme ++ rest))
        (⟨kind, ⟨offset + blanks.length, offset + blanks.length + lexeme.length⟩⟩ :: tokens)

namespace Lexer

/-- **One step of a lexer**, described: it finds the end of the input behind blank
characters, or a lexeme. -/
theorem next_eq_ok {lexer after : Lexer} {token : Token} (h : lexer.next = (.ok token, after)) :
    (∀ c ∈ lexer.rest, Text.isBlank c = true) ∧
        token = ⟨.eof, ⟨lexer.position + lexer.rest.length, lexer.position + lexer.rest.length⟩⟩ ∨
      ∃ blanks lexeme, lexer.rest = blanks ++ (lexeme ++ after.rest) ∧
        (∀ c ∈ blanks, Text.isBlank c = true) ∧ Lexeme lexeme token.kind after.rest ∧
        token.span = ⟨lexer.position + blanks.length, after.position⟩ ∧
        after.position = lexer.position + blanks.length + lexeme.length := by
  obtain ⟨text, position⟩ := lexer
  obtain ⟨hblanks, -⟩ := isRun_takeWhile Text.isBlank text
  have htext := List.takeWhile_append_dropWhile (p := Text.isBlank) (l := text)
  simp only [next, skipBlanks] at h
  generalize text.takeWhile Text.isBlank = blanks at h hblanks htext
  generalize text.dropWhile Text.isBlank = visible at h htext
  cases hscan : scan visible with
  | mk result length =>
    rw [hscan] at h
    cases result with
    | error => cases h
    | ok kind =>
      cases h
      obtain ⟨rfl, rfl⟩ | ⟨lexeme, rest, rfl, hlexeme, rfl⟩ := lexeme_of_scan hscan
      · cases hscan
        rw [List.append_nil] at htext
        subst htext
        exact .inl ⟨hblanks, rfl⟩
      · refine .inr ⟨blanks, lexeme, ?_, hblanks, ?_, rfl, rfl⟩
        · simp [advance, ← htext]
        · simpa [advance] using hlexeme

/-- Behind blank characters a lexer finds the lexeme that stands there. -/
theorem next_of_lexeme {position : Nat} {blanks lexeme rest : List Char} {kind : TokenKind}
    (hblanks : ∀ c ∈ blanks, Text.isBlank c = true) (hlexeme : Lexeme lexeme kind rest) :
    next ⟨blanks ++ (lexeme ++ rest), position⟩ =
      (.ok ⟨kind, ⟨position + blanks.length, position + blanks.length + lexeme.length⟩⟩,
        ⟨rest, position + blanks.length + lexeme.length⟩) := by
  have hrun : IsRun Text.isBlank blanks (lexeme ++ rest) := by
    refine ⟨hblanks, ?_⟩
    intro c hc
    -- a lexeme starts with no blank character
    obtain ⟨c', more, rfl, hvisible⟩ := hlexeme.head_isVisible
    cases hc
    exact hvisible.isBlank_eq_false
  simp only [next, skipBlanks, hrun.takeWhile_append, hrun.dropWhile_append,
    hlexeme.scan_append, advance, List.drop_left]

/-- Behind blank characters a lexer finds the end of the input. -/
theorem next_of_blanks {position : Nat} {blanks : List Char}
    (hblanks : ∀ c ∈ blanks, Text.isBlank c = true) :
    next ⟨blanks, position⟩ =
      (.ok ⟨.eof, ⟨position + blanks.length, position + blanks.length⟩⟩,
        ⟨[], position + blanks.length⟩) := by
  have hrun : IsRun Text.isBlank blanks [] := ⟨hblanks, nofun⟩
  have htake := hrun.takeWhile_append
  have hdrop := hrun.dropWhile_append
  rw [List.append_nil] at htake hdrop
  simp [next, skipBlanks, htake, hdrop, scan, advance]

/-- **Whatever a lexer takes tiles its text**, if it may take more tokens than there are
characters. -/
theorem tiles_of_take {count : Nat} {lexer : Lexer} {tokens : List Token}
    (hcount : lexer.rest.length < count) (h : lexer.take count = .ok tokens) :
    Tiles lexer.position lexer.rest tokens := by
  induction count generalizing lexer tokens with
  | zero => omega
  | succ count ih =>
    rw [take] at h
    split at h
    · cases h
    · next token after hnext =>
      obtain ⟨hblanks, rfl⟩ | ⟨blanks, lexeme, hrest, hblanks, hlexeme, hspan, hposition⟩ :=
        next_eq_ok hnext
      · cases h
        exact .done hblanks
      · rw [if_neg hlexeme.kind_ne_eof] at h
        cases hmore : after.take count with
        | error => rw [hmore] at h; cases h
        | ok more =>
          rw [hmore] at h
          cases h
          -- the lexeme took a character, so the count still covers the rest
          have hpos := hlexeme.length_pos
          rw [hrest, List.length_append, List.length_append] at hcount
          have htiles := ih (by omega) hmore
          obtain ⟨kind, span⟩ := token
          obtain rfl : span = _ := hspan
          rw [hposition] at htiles ⊢
          rw [hrest]
          exact .token hblanks hlexeme htiles

/-- **Whatever tiles a text is taken from it.** -/
theorem take_of_tiles {count position : Nat} {text : List Char} {tokens : List Token}
    (h : Tiles position text tokens) (hcount : text.length < count) :
    take count ⟨text, position⟩ = .ok tokens := by
  induction h generalizing count with
  | done hblanks =>
    obtain ⟨count, rfl⟩ : ∃ n, count = n + 1 := ⟨count - 1, by omega⟩
    rw [take, next_of_blanks hblanks]
    rfl
  | token hblanks hlexeme more ih =>
    obtain ⟨count, rfl⟩ : ∃ n, count = n + 1 := ⟨count - 1, by omega⟩
    have hpos := hlexeme.length_pos
    rw [List.length_append, List.length_append] at hcount
    rw [take, next_of_lexeme hblanks hlexeme]
    dsimp only
    rw [if_neg hlexeme.kind_ne_eof, ih (by omega)]
    rfl

end Lexer

/-- **Tokens.** A text is read as some tokens exactly if they tile it. -/
theorem tokenize_eq_ok_iff {text : String} {tokens : List Token} :
    tokenize text = .ok tokens ↔ Tiles 0 text.toList tokens := by
  have hcount : (Lexer.ofText text).rest.length < text.toList.length + 1 :=
    Nat.lt_succ_self _
  rw [tokenize]
  exact ⟨Lexer.tiles_of_take hcount, fun h => Lexer.take_of_tiles h hcount⟩

namespace Tiles

variable {offset : Nat} {text : List Char} {tokens : List Token}

/-- The end of the input comes last, at the end of the text, and nowhere else. -/
theorem exists_body (h : Tiles offset text tokens) : ∃ body,
    tokens = body ++ [⟨.eof, ⟨offset + text.length, offset + text.length⟩⟩] ∧
      ∀ t ∈ body, t.kind ≠ .eof := by
  induction h with
  | done => exact ⟨[], rfl, by simp⟩
  | @token offset blanks lexeme rest kind _ _ hlexeme _ ih =>
    obtain ⟨body, rfl, hbody⟩ := ih
    let first : Token := ⟨kind, offset + blanks.length, offset + blanks.length + lexeme.length⟩
    refine ⟨first :: body, ?_, List.forall_mem_cons.mpr ⟨hlexeme.kind_ne_eof, hbody⟩⟩
    simp only [List.length_append, List.cons_append, Nat.add_assoc, first]

/-- The last token is the end of the input, and no other is. -/
theorem eq_concat (h : Tiles offset text tokens) :
    ∃ body stop, tokens = body ++ [stop] ∧ stop.kind = .eof ∧ ∀ t ∈ body, t.kind ≠ .eof := by
  obtain ⟨body, rfl, hbody⟩ := h.exists_body
  exact ⟨body, _, rfl, rfl, hbody⟩

/-- Besides the end of the input there are no more tokens than characters. -/
theorem length_le (h : Tiles offset text tokens) : tokens.length ≤ text.length + 1 := by
  induction h with
  | done => simp
  | token _ hlexeme _ ih =>
    have hpos := hlexeme.length_pos
    simp only [List.length_append, List.length_cons]
    omega

end Tiles

end ScreenedExpr
