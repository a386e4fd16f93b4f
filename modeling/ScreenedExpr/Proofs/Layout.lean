import ScreenedExpr.Proofs.Screening

/-!
# Layout

The layout of a text is the blank characters between its tokens. Changing it changes neither
the verdict on the text nor its tree, as long as the same tokens are read.

* `Widened`, `Respaced` — what becomes of a gap between tokens when blank characters are
  inserted, or inserted and deleted;
* `Relaid` — a text whose gaps were changed, while the characters of every token stayed;
* `Tiles.exists_of_relaid` — where blank characters are only inserted, the tokens read are of
  the same kinds;
* `Tiles.mentions_iff_of_relaid` — in an expression a listed name is a whole word of the text
  exactly if it is one of a single token, so no gap hides or makes one.

Deleting may glue tokens together: `a b` becomes one name, and `1 .x` a number and a name.
-/

namespace ScreenedExpr

open Denylist Grammar

/-! ## Gaps -/

/-- **A gap into which blank characters were inserted.** -/
inductive Widened : List Char → List Char → Prop where
  /-- nothing was there, and nothing was inserted -/
  | nil : Widened [] []
  /-- a character that was there -/
  | keep (c : Char) {gap gap' : List Char} (h : Widened gap gap') :
      Widened (c :: gap) (c :: gap')
  /-- a character that was inserted -/
  | insert {c : Char} {gap gap' : List Char} (hc : Text.isBlank c = true)
      (h : Widened gap gap') : Widened gap (c :: gap')

/-- **A gap into which blank characters were inserted, and from which some were deleted.** -/
inductive Respaced : List Char → List Char → Prop where
  /-- nothing was there, and nothing was inserted -/
  | nil : Respaced [] []
  /-- a character that was there and stays -/
  | keep (c : Char) {gap gap' : List Char} (h : Respaced gap gap') :
      Respaced (c :: gap) (c :: gap')
  /-- a character that was inserted -/
  | insert {c : Char} {gap gap' : List Char} (hc : Text.isBlank c = true)
      (h : Respaced gap gap') : Respaced gap (c :: gap')
  /-- a character that was deleted -/
  | delete {c : Char} {gap gap' : List Char} (hc : Text.isBlank c = true)
      (h : Respaced gap gap') : Respaced (c :: gap) gap'

/-- A gap of blank characters stays one. -/
theorem Respaced.isBlank {gap gap' : List Char} (h : Respaced gap gap')
    (hgap : ∀ c ∈ gap, Text.isBlank c = true) : ∀ c ∈ gap', Text.isBlank c = true := by
  induction h with
  | nil => exact hgap
  | keep c _ ih =>
    obtain ⟨hc, hgap⟩ := List.forall_mem_cons.mp hgap
    exact List.forall_mem_cons.mpr ⟨hc, ih hgap⟩
  | insert hc _ ih => exact List.forall_mem_cons.mpr ⟨hc, ih hgap⟩
  | delete _ _ ih => exact ih (List.forall_mem_cons.mp hgap).2

namespace Widened

variable {gap gap' : List Char}

/-- Inserting is one way to change a gap. -/
theorem respaced (h : Widened gap gap') : Respaced gap gap' := by
  induction h with
  | nil => exact .nil
  | keep c _ ih => exact .keep c ih
  | insert hc _ ih => exact .insert hc ih

/-- What starts behind a gap starts behind the widened one, or a blank character does. -/
theorem head?_append (h : Widened gap gap') (hgap : ∀ c ∈ gap, Text.isBlank c = true)
    {rest rest' : List Char} (hrest : rest'.head? = rest.head?) :
    ∀ c ∈ (gap' ++ rest').head?, c ∈ (gap ++ rest).head? ∨ Text.isBlank c = true := by
  intro c hc
  cases h with
  | nil =>
    rw [List.nil_append, hrest] at hc
    exact .inl hc
  | keep d =>
    cases hc
    exact .inr (hgap _ List.mem_cons_self)
  | insert hd =>
    cases hc
    exact .inr hd

end Widened

/-! ## Texts -/

/-- **Another layout.** From an offset on, the characters in the span of each token are the
same in both texts, in order, and the gaps around them are related. -/
inductive Relaid (gap : List Char → List Char → Prop) :
    Nat → List Token → List Char → List Char → Prop where
  /-- the gap in front of the end of the input -/
  | done {offset : Nat} {stop : Token} {blanks blanks' : List Char} (hstop : stop.kind = .eof)
      (hgap : gap blanks blanks') : Relaid gap offset [stop] blanks blanks'
  /-- the gap in front of a token, and its characters -/
  | token {offset : Nat} {token : Token} {tokens : List Token}
      {blanks blanks' lexeme rest rest' : List Char}
      (hstart : token.span.start = offset + blanks.length)
      (hstop : token.span.stop = token.span.start + lexeme.length) (hgap : gap blanks blanks')
      (more : Relaid gap token.span.stop tokens rest rest') :
      Relaid gap offset (token :: tokens) (blanks ++ (lexeme ++ rest))
        (blanks' ++ (lexeme ++ rest'))

namespace Relaid

variable {gap : List Char → List Char → Prop} {offset : Nat} {tokens : List Token}
variable {text text' blanks lexeme rest : List Char}

/-- Inversion at the end of the input. -/
theorem of_eof {span : Span} (h : Relaid gap offset [⟨.eof, span⟩] text text') :
    gap text text' := by
  cases h with
  | done _ hgap => exact hgap
  | token _ _ _ more => cases more

/-- Inversion at a token whose span is known. -/
theorem of_token {kind : TokenKind} (hkind : kind ≠ .eof)
    (h : Relaid gap offset
      (⟨kind, ⟨offset + blanks.length, offset + blanks.length + lexeme.length⟩⟩ :: tokens)
      (blanks ++ (lexeme ++ rest)) text') :
    ∃ blanks' rest', text' = blanks' ++ (lexeme ++ rest') ∧ gap blanks blanks' ∧
      Relaid gap (offset + blanks.length + lexeme.length) tokens rest rest' := by
  generalize htext : blanks ++ (lexeme ++ rest) = text at h
  cases h with
  | done hstop => exact absurd hstop hkind
  | @token _ _ _ found blanks' lexeme' rest' rest'' hstart hstop hgap more =>
    -- the span fixes where the text falls into parts
    obtain ⟨rfl, hrest⟩ := List.append_inj htext (by simpa using hstart)
    obtain ⟨rfl, rfl⟩ := List.append_inj hrest (by simpa using hstop)
    exact ⟨blanks', rest'', rfl, hgap, more⟩

end Relaid

/-! ## Inserting blank characters -/

variable {offset : Nat} {text text' : List Char} {tokens : List Token}

/-- A text with a wider layout starts as before or with a blank character. -/
theorem Tiles.head?_of_relaid (h : Tiles offset text tokens)
    (hrelaid : Relaid Widened offset tokens text text') :
    ∀ c ∈ text'.head?, c ∈ text.head? ∨ Text.isBlank c = true := by
  cases h with
  | done hblanks =>
    have hrest : ([] : List Char).head? = ([] : List Char).head? := rfl
    have hhead := hrelaid.of_eof.head?_append hblanks hrest
    simpa using hhead
  | token hblanks hlexeme more =>
    obtain ⟨blanks', rest', rfl, hgap, -⟩ := hrelaid.of_token hlexeme.kind_ne_eof
    apply hgap.head?_append hblanks
    obtain ⟨c, lexeme, rfl, -⟩ := hlexeme.head_isVisible
    rfl

/-- **Inserting blank characters** between tokens, and around them, changes their spans only. -/
theorem Tiles.exists_of_relaid (h : Tiles offset text tokens)
    (hrelaid : Relaid Widened offset tokens text text') (offset' : Nat) :
    ∃ tokens', Tiles offset' text' tokens' ∧
      tokens'.map Token.kind = tokens.map Token.kind := by
  induction h generalizing text' offset' with
  | done hblanks => exact ⟨_, .done (hrelaid.of_eof.respaced.isBlank hblanks), rfl⟩
  | token hblanks hlexeme more ih =>
    obtain ⟨blanks', rest', rfl, hgap, hmore⟩ := hrelaid.of_token hlexeme.kind_ne_eof
    obtain ⟨tokens', htiles, hkinds⟩ := ih hmore _
    have hlexeme' := hlexeme.of_head? (more.head?_of_relaid hmore)
    refine ⟨_, .token (hgap.respaced.isBlank hblanks) hlexeme' htiles, ?_⟩
    rw [List.map_cons, List.map_cons, hkinds]

/-! ## Blocked names and the layout -/

/-- A word starts behind blank characters, and where one starts without them. -/
theorem wordStart_blanks_append {blanks rest : List Char}
    (hblanks : ∀ c ∈ blanks, Text.isBlank c = true) (h : WordStart rest) :
    WordStart (blanks ++ rest) := by
  cases blanks with
  | nil => exact h
  | cons c blanks => exact wordStart_cons (isWordChar_of_isBlank (hblanks c List.mem_cons_self))

/-- No word goes on into a mark. -/
theorem Lexeme.wordStart_append {lexeme rest : List Char} {kind : TokenKind}
    (h : Lexeme lexeme kind rest) (hkind : IsMark kind) (after : List Char) :
    WordStart (lexeme ++ after) := by
  cases h with
  | string | number =>
    obtain ⟨mark, hmark⟩ := hkind
    cases hmark
  | name => exact absurd hkind (not_isMark_ofName _)
  | @mark mark =>
    cases mark <;> exact wordStart_cons (by decide)

/-- In front of a mark and at the end no word goes on, whatever the layout. -/
theorem Tiles.wordStart_of_relaid (h : Tiles offset text tokens)
    (hrelaid : Relaid Respaced offset tokens text text')
    (hhead : ∀ t ∈ tokens.head?, IsMark t.kind ∨ t.kind = .eof) :
    WordStart text ∧ WordStart text' := by
  cases h with
  | done hblanks =>
    have hnil : WordStart [] := by simp [WordStart]
    have hstart := wordStart_blanks_append hblanks hnil
    have hstart' := wordStart_blanks_append (hrelaid.of_eof.isBlank hblanks) hnil
    rw [List.append_nil] at hstart hstart'
    exact ⟨hstart, hstart'⟩
  | token hblanks hlexeme =>
    obtain ⟨blanks', rest', rfl, hgap, -⟩ := hrelaid.of_token hlexeme.kind_ne_eof
    have hmark := (hhead _ rfl).resolve_right hlexeme.kind_ne_eof
    exact ⟨wordStart_blanks_append hblanks (hlexeme.wordStart_append hmark _),
      wordStart_blanks_append (hgap.isBlank hblanks) (hlexeme.wordStart_append hmark _)⟩

/-- A lexeme behind blank characters is searched apart from what follows it, if a word ends or
starts in between. -/
theorem mentions_token_iff {blanks lexeme rest : List Char}
    (hblanks : ∀ c ∈ blanks, Text.isBlank c = true) (h : WordEnd lexeme ∨ WordStart rest) :
    Mentions (blanks ++ (lexeme ++ rest)) ↔ Mentions lexeme ∨ Mentions rest := by
  have hsigns : ∀ c ∈ blanks, isWordChar c = false := by
    intro c hc
    exact isWordChar_of_isBlank (hblanks c hc)
  have hend : WordEnd blanks := by
    intro c hc
    exact hsigns c (List.mem_of_getLast? hc)
  rw [mentions_append_iff (.inl hend), mentions_append_iff h]
  exact or_iff_right (not_mentions hsigns)

/-- **The layout neither hides nor makes a listed name.** Between neighbouring tokens one of
which is a mark no word goes on, whether blank characters stand between them or not; so both
texts are searched token by token. -/
theorem Tiles.mentions_iff_of_relaid (h : Tiles offset text tokens)
    (hapart : tokens.IsChain Apart) (hrelaid : Relaid Respaced offset tokens text text') :
    Mentions text' ↔ Mentions text := by
  induction h generalizing text' with
  | @done _ blanks hblanks =>
    have hnone {gap : List Char} (hgap : ∀ c ∈ gap, Text.isBlank c = true) : ¬Mentions gap :=
      not_mentions fun c hc => isWordChar_of_isBlank (hgap c hc)
    exact iff_of_false (hnone (hrelaid.of_eof.isBlank hblanks)) (hnone hblanks)
  | @token offset blanks lexeme rest kind tokens hblanks hlexeme more ih =>
    obtain ⟨blanks', rest', rfl, hgap, hmore⟩ := hrelaid.of_token hlexeme.kind_ne_eof
    obtain ⟨hnext, hapart⟩ := List.isChain_cons.mp hapart
    have hends : WordEnd lexeme ∨ WordStart rest ∧ WordStart rest' := by
      refine (hlexeme.wordEnd_or []).imp_right ?_
      intro hmark
      exact more.wordStart_of_relaid hmore fun t ht => (hnext t ht).resolve_left hmark
    rw [mentions_token_iff hblanks (hends.imp_right And.left),
      mentions_token_iff (hgap.isBlank hblanks) (hends.imp_right And.right), ih hapart hmore]

/-! ## Screening -/

namespace Sandbox

/-- **The layout of an accepted text does not matter.** Wherever blank characters are inserted
outside its tokens, the same kinds of tokens are read. And if characters of its gaps are
changed in any way such that the same kinds are read, and the text does not get too long,
then it is accepted again, and denotes the same tree. -/
theorem screen_relaid (sandbox : Sandbox) (text : String) (tree : Expr)
    (h : sandbox.screen text = .ok tree) : ∃ tokens, tokenize text = .ok tokens ∧
      (∀ text' : String, Relaid Widened 0 tokens text.toList text'.toList →
        ∃ tokens', tokenize text' = .ok tokens' ∧
          tokens'.map Token.kind = tokens.map Token.kind) ∧
      ∀ (text' : String) (tokens' : List Token),
        Relaid Respaced 0 tokens text.toList text'.toList → tokenize text' = .ok tokens' →
        tokens'.map Token.kind = tokens.map Token.kind →
        text'.toList.length ≤ sandbox.limits.length → sandbox.screen text' = .ok tree := by
  obtain ⟨-, hblocked, hread⟩ := screen_eq_ok_iff.mp h
  obtain ⟨body, stop, n, htiles, hstop, hderives, hdepth, hheight⟩ :=
    Expr.ofText_eq_ok_iff.mp hread
  refine ⟨body ++ [stop], tokenize_eq_ok_iff.mpr htiles, ?_, ?_⟩
  · intro text' hrelaid
    obtain ⟨tokens', htiles', hkinds⟩ := htiles.exists_of_relaid hrelaid 0
    exact ⟨tokens', tokenize_eq_ok_iff.mpr htiles', hkinds⟩
  · intro text' tokens' hrelaid htokens' hkinds hlength
    refine screen_eq_ok_iff.mpr ⟨hlength, ?_, Expr.ofText_eq_ok_iff.mpr ?_⟩
    · rw [blocked?_eq_none_iff_not_mentions] at hblocked ⊢
      rwa [htiles.mentions_iff_of_relaid (apart_of_derives hderives hstop) hrelaid]
    · -- the tree depends on the kinds of the tokens only
      obtain ⟨body', stop', rfl, hstop', -⟩ := (tokenize_eq_ok_iff.mp htokens').eq_concat
      rw [List.map_append, List.map_append] at hkinds
      have hbody := (List.append_inj' hkinds rfl).1
      exact ⟨body', stop', n, tokenize_eq_ok_iff.mp htokens', hstop', hbody ▸ hderives, hdepth,
        hheight⟩

/-- The tree of `1 .x`. -/
def clearPoint : Expr := .dot (.literal (.number (.ofNat 1))) "x"

/-- A point keeps clear of a number by any blank character, here by a wide one. -/
theorem screen_clearPoint : standard.screen "1 .x" = .ok clearPoint ∧
    standard.screen "1\u2003. x" = .ok clearPoint := by
  have h : standard.screen "1 .x" = .ok clearPoint := by
    decide +kernel
  obtain ⟨tokens, htokens, -, hrespaced⟩ := screen_relaid standard _ _ h
  obtain rfl : tokens = [⟨.literal (.number (.ofNat 1)), ⟨0, 1⟩⟩, ⟨.mark .dot, ⟨2, 3⟩⟩,
      ⟨.identifier "x", ⟨3, 4⟩⟩, ⟨.eof, ⟨4, 4⟩⟩] := by
    apply Except.ok.inj (htokens.symm.trans _)
    decide +kernel
  refine ⟨h, hrespaced _ [⟨.literal (.number (.ofNat 1)), ⟨0, 1⟩⟩, ⟨.mark .dot, ⟨2, 3⟩⟩,
    ⟨.identifier "x", ⟨4, 5⟩⟩, ⟨.eof, ⟨5, 5⟩⟩] ?_ (by decide +kernel) rfl (by decide)⟩
  -- one space becomes another, and a new one stands behind the point
  have hname : Relaid Respaced 3 [⟨.identifier "x", ⟨3, 4⟩⟩, ⟨.eof, ⟨4, 4⟩⟩] ['x'] [' ', 'x'] :=
    @Relaid.token _ _ _ _ [] [' '] ['x'] [] [] rfl rfl (.insert rfl .nil) (.done rfl .nil)
  have hpoint := @Relaid.token Respaced 1 ⟨.mark .dot, ⟨2, 3⟩⟩ _ [' '] ['\u2003'] ['.'] _ _ rfl rfl
    (.delete rfl (.insert rfl .nil)) hname
  exact @Relaid.token _ 0 _ _ [] [] ['1'] _ _ rfl rfl .nil hpoint

end Sandbox

end ScreenedExpr
