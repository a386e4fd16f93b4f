import Mathlib.Data.List.Basic
import ScreenedExpr.Proofs.Lexer.Tiles

/-!
# Every token is the longest one

The spans of the tokens say where the characters of a text went: each character is blank or
belongs to exactly one token, and a token reads the same when its characters stand alone.
Where a token starts, no longer stretch of the text is a token.

* `IsToken` — a text is a single token from its first character to its last;
* `isToken_iff` — such a text is a lexeme with nothing behind it;
* `Lexeme.not_longer` — a lexeme that goes on into the text behind it is none;
* `CutInto` — what the spans of the tokens of a text satisfy;
* `tokenize_cutInto` — the tokens that a text is read as satisfy it.
-/

namespace ScreenedExpr

/-! ## Single tokens -/

/-- **A text is, as a whole, one token.** -/
def IsToken (text : String) (kind : TokenKind) : Prop :=
  tokenize text =
    .ok [⟨kind, ⟨0, text.length⟩⟩, ⟨.eof, ⟨text.length, text.length⟩⟩]

/-- Inversion at a token that is not the last: its lexeme stands behind blank characters. -/
theorem Tiles.of_cons {offset : Nat} {text : List Char} {first second : Token}
    {tokens : List Token} (h : Tiles offset text (first :: second :: tokens)) :
    ∃ blanks lexeme rest, text = blanks ++ (lexeme ++ rest) ∧ Lexeme lexeme first.kind rest ∧
      first.span = ⟨offset + blanks.length, offset + blanks.length + lexeme.length⟩ := by
  cases h with
  | token _ hlexeme _ => exact ⟨_, _, _, rfl, hlexeme, rfl⟩

/-- The texts that are single tokens are the lexemes in front of the end of the input. -/
theorem isToken_iff {text : String} {kind : TokenKind} :
    IsToken text kind ↔ Lexeme text.toList kind [] := by
  rw [IsToken, tokenize_eq_ok_iff, ← String.length_toList]
  generalize text.toList = characters
  refine ⟨?_, ?_⟩
  · intro h
    obtain ⟨blanks, lexeme, rest, rfl, hlexeme, hspan⟩ := h.of_cons
    simp only [Span.mk.injEq, List.length_append] at hspan
    obtain ⟨hstart, hstop⟩ := hspan
    -- the span leaves no room for blank characters before it or anything behind it
    obtain rfl : blanks = [] := List.length_eq_zero_iff.mp (by omega)
    obtain rfl : rest = [] := List.length_eq_zero_iff.mp (by omega)
    simpa using hlexeme
  · intro h
    have htiles : Tiles 0 ([] ++ (characters ++ [])) _ := .token nofun h (.done nofun)
    simpa using htiles

/-- **No lexeme can be continued** by characters that stand behind it in the text: what is
read there ends where the lexeme does. -/
theorem Lexeme.not_longer {lexeme more rest : List Char} {kind kind' : TokenKind}
    (h : Lexeme lexeme kind (more ++ rest)) (hmore : more ≠ []) :
    ¬Lexeme (lexeme ++ more) kind' [] := by
  intro hlonger
  obtain ⟨c, more, rfl⟩ := List.exists_cons_of_ne_nil hmore
  have hshort : Lexeme lexeme kind (c :: more) := h.of_head? fun _ hc => .inl hc
  have hscan := hlonger.scan_append
  rw [List.append_nil, hshort.scan_append] at hscan
  have hlength := congrArg Prod.snd hscan
  simp at hlength

/-! ## Spans -/

/-- The characters of a text that a span covers. -/
def Span.cut (span : Span) (text : String) : String :=
  String.ofList ((text.toList.take span.stop).drop span.start)

/-- A span covers an offset. -/
def Span.Covers (span : Span) (offset : Nat) : Prop :=
  span.start ≤ offset ∧ offset < span.stop

/-- **A token is the longest at its place in a text.** -/
structure IsLongest (text : String) (token : Token) : Prop where
  /-- it has a character at least -/
  start_lt_stop : token.span.start < token.span.stop
  /-- it lies in the text -/
  stop_le : token.span.stop ≤ text.length
  /-- its characters are that token on their own -/
  isToken : IsToken (token.span.cut text) token.kind
  /-- together with characters behind them they are none -/
  not_isToken (stop : Nat) (kind : TokenKind) (hstop : token.span.stop < stop)
    (hle : stop ≤ text.length) : ¬IsToken (Span.cut ⟨token.span.start, stop⟩ text) kind

/-- **A text is cut into tokens**, without the end of the input. -/
structure CutInto (text : String) (tokens : List Token) : Prop where
  /-- every token is the longest at its place -/
  isLongest (token : Token) (htoken : token ∈ tokens) : IsLongest text token
  /-- the tokens stand in order and apart -/
  pairwise : tokens.Pairwise fun a b => a.span.stop ≤ b.span.start
  /-- what no token covers is blank -/
  isBlank (offset : Nat) (c : Char) (hc : text.toList[offset]? = some c)
    (h : ∀ token ∈ tokens, ¬token.span.Covers offset) : Text.isBlank c = true

namespace Tiles

variable {offset : Nat} {text : List Char} {tokens : List Token}

/-- No token starts before the text does. -/
theorem le_start (h : Tiles offset text tokens) : ∀ token ∈ tokens, offset ≤ token.span.start := by
  induction h with
  | done => simp
  | token _ _ _ ih =>
    refine List.forall_mem_cons.mpr ⟨by simp, ?_⟩
    intro token htoken
    have hle := ih token htoken
    omega

/-- Tokens stand in order and apart. -/
theorem pairwise (h : Tiles offset text tokens) :
    tokens.Pairwise fun a b => a.span.stop ≤ b.span.start := by
  induction h with
  | done => exact List.pairwise_singleton _ _
  | token _ _ more ih => exact List.pairwise_cons.mpr ⟨more.le_start, ih⟩

/-- **What no token covers is blank.** -/
theorem isBlank_of_not_covers (h : Tiles offset text tokens) {i : Nat} {c : Char}
    (hc : text[i]? = some c) (hcovers : ∀ token ∈ tokens, ¬token.span.Covers (offset + i)) :
    Text.isBlank c = true := by
  induction h generalizing i with
  | done hblanks => exact hblanks c (List.mem_of_getElem? hc)
  | @token offset blanks lexeme rest _ _ hblanks _ _ ih =>
    obtain ⟨hfirst, hmore⟩ := List.forall_mem_cons.mp hcovers
    simp only [Span.Covers] at hfirst
    by_cases hlt : i < blanks.length
    · rw [List.getElem?_append_left hlt] at hc
      exact hblanks c (List.mem_of_getElem? hc)
    · -- neither blank nor covered by the first token, so behind it
      have hge : blanks.length + lexeme.length ≤ i := by omega
      rw [List.getElem?_append_right (by omega), List.getElem?_append_right (by omega)] at hc
      refine ih hc ?_
      intro token htoken
      have hoffset : offset + blanks.length + lexeme.length + (i - blanks.length - lexeme.length) =
          offset + i := by omega
      rw [hoffset]
      exact hmore token htoken

/-- **Every token stands at its lexeme**, also in a longer text. -/
theorem exists_lexeme (before : List Char) (h : Tiles before.length text tokens) {token : Token}
    (htoken : token ∈ tokens) (hkind : token.kind ≠ .eof) : ∃ front lexeme rest,
      before ++ text = front ++ (lexeme ++ rest) ∧ Lexeme lexeme token.kind rest ∧
      token.span = ⟨front.length, front.length + lexeme.length⟩ := by
  generalize hoffset : before.length = offset at h
  induction h generalizing before with
  | done =>
    rw [List.mem_singleton.mp htoken] at hkind
    exact absurd rfl hkind
  | @token _ blanks lexeme rest _ _ _ hlexeme _ ih =>
    rcases List.mem_cons.mp htoken with rfl | htoken
    · refine ⟨before ++ blanks, lexeme, rest, by simp, hlexeme, ?_⟩
      rw [List.length_append, hoffset]
    · have hmore := ih (before ++ blanks ++ lexeme) htoken
        (by rw [List.length_append, List.length_append, hoffset])
      simpa using hmore

end Tiles

/-- A lexeme in a text is the longest token at its place. -/
theorem Lexeme.isLongest {text : String} {token : Token} {front lexeme rest : List Char}
    (htext : text.toList = front ++ (lexeme ++ rest)) (h : Lexeme lexeme token.kind rest)
    (hspan : token.span = ⟨front.length, front.length + lexeme.length⟩) :
    IsLongest text token := by
  have hlength : text.length = front.length + (lexeme.length + rest.length) := by
    rw [← String.length_toList, htext, List.length_append, List.length_append]
  have hstart : token.span.start = front.length := by rw [hspan]
  have hstop : token.span.stop = front.length + lexeme.length := by rw [hspan]
  -- a longer stretch is the lexeme and the start of the rest
  have hcut (count : Nat) :
      (Span.cut ⟨token.span.start, token.span.stop + count⟩ text).toList =
        lexeme ++ rest.take count := by
    rw [Span.cut, String.toList_ofList, hstart, hstop, htext, Nat.add_assoc,
      List.take_length_add_append, List.drop_left, List.take_length_add_append]
  have hpos := h.length_pos
  refine ⟨by omega, by omega, ?_, ?_⟩
  · have hself : (token.span.cut text).toList = lexeme ++ rest.take 0 := hcut 0
    rw [isToken_iff, hself, List.take_zero, List.append_nil]
    exact h.of_head? nofun
  · intro stop kind hlt hle
    obtain ⟨count, rfl⟩ := Nat.exists_eq_add_of_lt hlt
    rw [isToken_iff, Nat.add_assoc, hcut]
    have hsplit : Lexeme lexeme token.kind (rest.take (count + 1) ++ rest.drop (count + 1)) := by
      rwa [List.take_append_drop]
    refine hsplit.not_longer ?_
    rw [← List.length_pos_iff, List.length_take]
    omega

/-- **Longest tokens.** The tokens of a text end with one for the end of the input, at the end
of the text, and with no other. The rest are, in order, the longest tokens at their places,
and between them there are only blank characters. -/
theorem tokenize_cutInto {text : String} {tokens : List Token}
    (h : tokenize text = .ok tokens) : ∃ body,
      tokens = body ++ [⟨.eof, ⟨text.length, text.length⟩⟩] ∧
        (∀ token ∈ body, token.kind ≠ .eof) ∧ CutInto text body := by
  have htiles := tokenize_eq_ok_iff.mp h
  obtain ⟨body, rfl, hbody⟩ := htiles.exists_body
  rw [Nat.zero_add, String.length_toList] at htiles ⊢
  refine ⟨body, rfl, hbody, ?_, (List.pairwise_append.mp htiles.pairwise).1, ?_⟩
  · intro token htoken
    obtain ⟨front, lexeme, rest, htext, hlexeme, hspan⟩ :=
      htiles.exists_lexeme [] (List.mem_append_left _ htoken) (hbody token htoken)
    exact hlexeme.isLongest htext hspan
  · intro offset c hc hcovers
    refine htiles.isBlank_of_not_covers hc ?_
    rw [Nat.zero_add]
    refine List.forall_mem_append.mpr ⟨hcovers, List.forall_mem_singleton.mpr ?_⟩
    -- the end of the input covers nothing
    simp only [Span.Covers]
    omega

/-- The tokens of `!a!==1.5>='=' `. -/
def crowded : List Token :=
  [⟨.mark .bang, ⟨0, 1⟩⟩, ⟨.identifier "a", ⟨1, 2⟩⟩, ⟨.mark .strictNotEqual, ⟨2, 5⟩⟩,
   ⟨.literal (.number (.ofDecimal false ⟨15, -1⟩)), ⟨5, 8⟩⟩, ⟨.mark .greaterEqual, ⟨8, 10⟩⟩,
   ⟨.literal (.string "="), ⟨10, 13⟩⟩]

/-- Where nothing stands between tokens, each of them still goes as far as it can. -/
theorem tokenize_crowded :
    tokenize "!a!==1.5>='=' " = .ok (crowded ++ [⟨.eof, ⟨14, 14⟩⟩]) ∧ ∃ body,
      crowded ++ [⟨.eof, ⟨14, 14⟩⟩] = body ++ [⟨.eof, ⟨14, 14⟩⟩] ∧
        (∀ token ∈ body, token.kind ≠ .eof) ∧ CutInto "!a!==1.5>='=' " body := by
  have h : tokenize "!a!==1.5>='=' " = .ok (crowded ++ [⟨.eof, ⟨14, 14⟩⟩]) := by
    decide +kernel
  exact ⟨h, tokenize_cutInto h⟩

end ScreenedExpr
