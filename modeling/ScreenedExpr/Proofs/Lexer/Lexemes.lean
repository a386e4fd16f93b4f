import ScreenedExpr.Token.Lexer

/-!
# How tokens are written

The characters that stand for a token, apart from any way to read them.

* `Encodes` — what may stand between two quotes for a text;
* `Lexeme` — the characters of a token, in front of a text that does not belong to it;
* `lexeme_of_scan`, `Lexeme.scan_append` — reading one token finds its lexeme, and every
  lexeme is found.

A name and a number go on as long as they can, and so does a mark; this is why a lexeme
depends on the text behind it. Which class a lexeme is of shows in its first character.
-/

namespace ScreenedExpr

/-! ## Strings -/

/-- **The characters between two quotes that stand for a text.** Every character may stand
for itself, except the quote and the backslash; a backslash starts an escape. -/
inductive Encodes (quote : Char) : List Char → List Char → Prop where
  /-- nothing stands for the empty text -/
  | nil : Encodes quote [] []
  /-- a character that stands for itself -/
  | raw {c : Char} {body text : List Char} (hquote : c ≠ quote) (hescape : c ≠ '\\')
      (rest : Encodes quote body text) : Encodes quote (c :: body) (c :: text)
  /-- an escape -/
  | escape {escaped c : Char} {body text : List Char} (hescaped : unescape? escaped = some c)
      (rest : Encodes quote body text) : Encodes quote ('\\' :: escaped :: body) (c :: text)

variable {quote : Char} {body text rest : List Char}

/-- Inversion for a string with one more character. -/
theorem StringBody.cons_eq_closed {c : Char} {n length : Nat} {tail : StringBody}
    (h : tail.cons c n = .closed text length) :
    ∃ text' length', tail = .closed text' length' ∧ text = c :: text' ∧
      length = length' + n := by
  cases tail with
  | closed text' length' => cases h; exact ⟨text', length', rfl, rfl, rfl⟩
  | invalidEscape => cases h
  | unterminated => cases h

/-- A character that neither ends the text as a backslash nor starts an escape is no backslash:
these are the two cases that come first in reading a string. -/
theorem ne_backslash_of_plain {c : Char} (hend : c = '\\' → text = [] → False)
    (hescape : ∀ escaped after, c = '\\' → text = escaped :: after → False) : c ≠ '\\' := by
  rintro rfl
  cases text with
  | nil => exact hend rfl rfl
  | cons escaped after => exact hescape escaped after rfl rfl

/-- A string that is closed ends at a quote, and encodes what was read before it. -/
theorem encodes_of_scanString {length : Nat} (h : scanString quote text = .closed body length) :
    ∃ inside after, text = inside ++ quote :: after ∧ Encodes quote inside body ∧
      length = inside.length + 1 := by
  fun_induction scanString quote text generalizing body length with
  | case1 => cases h
  | case2 => cases h
  | case3 escaped text c hc ih =>
    obtain ⟨body, length, htail, rfl, rfl⟩ := StringBody.cons_eq_closed h
    obtain ⟨inside, after, rfl, hinside, rfl⟩ := ih htail
    exact ⟨'\\' :: escaped :: inside, after, rfl, .escape hc hinside, by simp⟩
  | case4 => cases h
  | case5 text =>
    cases h
    exact ⟨[], text, rfl, .nil, rfl⟩
  | case6 c text hend hescape hquote ih =>
    have hraw := ne_backslash_of_plain hend hescape
    obtain ⟨body, length, htail, rfl, rfl⟩ := StringBody.cons_eq_closed h
    obtain ⟨inside, after, rfl, hinside, rfl⟩ := ih htail
    exact ⟨c :: inside, after, rfl, .raw hquote hraw hinside, by simp⟩

/-- What encodes a text is read as it, up to the closing quote. -/
theorem scanString_of_encodes (hquote : quote ≠ '\\') (h : Encodes quote body text)
    (after : List Char) :
    scanString quote (body ++ quote :: after) = .closed text (body.length + 1) := by
  induction h with
  | nil =>
    rw [List.nil_append, scanString.eq_4 _ _ _ (fun h _ => hquote h) (fun _ _ h _ => hquote h),
      if_pos rfl]
    rfl
  | @raw c body text hne hescape inner ih =>
    rw [List.cons_append, scanString.eq_4 _ _ _ (fun h _ => hescape h)
      (fun _ _ h _ => hescape h), if_neg hne, ih]
    rfl
  | @escape escaped c body text hescaped inner ih =>
    rw [List.cons_append, List.cons_append, scanString.eq_3, hescaped]
    dsimp only
    rw [ih]
    rfl

/-! ## First characters -/

/-- The two quotes. -/
abbrev IsQuote (c : Char) : Prop := c = '"' ∨ c = '\''

/-- A visible ASCII character. -/
def IsVisible (c : Char) : Prop := 33 ≤ c.toNat ∧ c.toNat ≤ 126

theorem IsVisible.isBlank_eq_false {c : Char} (h : IsVisible c) : Text.isBlank c = false := by
  obtain ⟨hlow, hhigh⟩ := h
  simp only [Text.isBlank, Text.blankRanges, List.any_cons, List.any_nil, Bool.or_eq_false_iff,
    Bool.and_eq_false_iff, decide_eq_false_iff_not, and_true]
  omega

theorem IsQuote.isVisible {c : Char} (h : IsQuote c) : IsVisible c := by
  rcases h with rfl | rfl <;> exact ⟨by decide, by decide⟩

/-- Every text can be written between two quotes. -/
theorem exists_encodes (hquote : IsQuote quote) (text : List Char) :
    ∃ body, Encodes quote body text := by
  induction text with
  | nil => exact ⟨[], .nil⟩
  | cons c text ih =>
    obtain ⟨body, hbody⟩ := ih
    by_cases hc : c = quote
    · subst hc
      refine ⟨'\\' :: c :: body, .escape ?_ hbody⟩
      rcases hquote with rfl | rfl <;> rfl
    by_cases hescape : c = '\\'
    · subst hescape
      exact ⟨'\\' :: '\\' :: body, .escape rfl hbody⟩
    · exact ⟨_, .raw hc hescape hbody⟩

theorem isDigit_iff {c : Char} : c.isDigit = true ↔ 48 ≤ c.toNat ∧ c.toNat ≤ 57 := by
  simp [Char.isDigit, UInt32.le_iff_toNat_le]

theorem isAlpha_iff {c : Char} : c.isAlpha = true ↔
    65 ≤ c.toNat ∧ c.toNat ≤ 90 ∨ 97 ≤ c.toNat ∧ c.toNat ≤ 122 := by
  have hupper : c.isUpper = true ↔ 65 ≤ c.toNat ∧ c.toNat ≤ 90 := decide_eq_true_iff
  have hlower : c.isLower = true ↔ 97 ≤ c.toNat ∧ c.toNat ≤ 122 := by
    change (decide ('a'.val ≤ c.val) && decide (c.val ≤ 'z'.val)) = true ↔ _
    rw [Bool.and_eq_true, decide_eq_true_eq, decide_eq_true_eq]
    exact Iff.rfl
  change (c.isUpper || c.isLower) = true ↔ _
  rw [Bool.or_eq_true, hupper, hlower]

theorem isNamePart_iff {c : Char} : isNamePart c = true ↔
    65 ≤ c.toNat ∧ c.toNat ≤ 90 ∨ 97 ≤ c.toNat ∧ c.toNat ≤ 122 ∨
      48 ≤ c.toNat ∧ c.toNat ≤ 57 ∨ c.toNat = 95 ∨ c.toNat = 36 := by
  simp [isNamePart, Char.isAlphanum, isAlpha_iff, isDigit_iff, or_assoc, ← Char.toNat_inj]

theorem isNameStart_iff {c : Char} : isNameStart c = true ↔
    65 ≤ c.toNat ∧ c.toNat ≤ 90 ∨ 97 ≤ c.toNat ∧ c.toNat ≤ 122 ∨ c.toNat = 95 ∨
      c.toNat = 36 := by
  simp [isNameStart, isAlpha_iff, or_assoc, ← Char.toNat_inj]

/-- What starts a name may also continue one. -/
theorem isNamePart_of_isNameStart {c : Char} (h : isNameStart c = true) :
    isNamePart c = true := by
  rw [isNameStart_iff] at h
  rw [isNamePart_iff]
  omega

theorem isVisible_of_isNamePart {c : Char} (h : isNamePart c = true) : IsVisible c := by
  rw [isNamePart_iff] at h
  unfold IsVisible
  omega

theorem isVisible_of_isNumberPart {c : Char} (h : isNumberPart c = true) : IsVisible c := by
  rw [isNumberPart, Bool.or_eq_true, isDigit_iff, beq_iff_eq] at h
  rcases h with h | rfl
  · unfold IsVisible
    omega
  · exact ⟨by decide, by decide⟩

/-! ## Runs -/

/-- A run of characters of a class, as long as it can be in front of a text. -/
def IsRun (p : Char → Bool) (run rest : List Char) : Prop :=
  (∀ c ∈ run, p c = true) ∧ ∀ c ∈ rest.head?, p c = false

/-- The run that a text starts with. -/
theorem isRun_takeWhile (p : Char → Bool) (text : List Char) :
    IsRun p (text.takeWhile p) (text.dropWhile p) := by
  refine ⟨?_, ?_⟩
  · intro c hc
    exact List.all_eq_true.mp List.all_takeWhile c hc
  · intro c hc
    have h := List.head?_dropWhile_not p text
    rw [Option.mem_def.mp hc] at h
    simpa using h

namespace IsRun

variable {p : Char → Bool} {run : List Char}

theorem takeWhile_append (h : IsRun p run rest) : (run ++ rest).takeWhile p = run := by
  obtain ⟨hrun, hend⟩ := h
  rw [List.takeWhile_append_of_pos hrun]
  cases rest with
  | nil => simp
  | cons c rest => simp [hend c rfl]

theorem dropWhile_append (h : IsRun p run rest) : (run ++ rest).dropWhile p = rest := by
  obtain ⟨hrun, hend⟩ := h
  rw [List.dropWhile_append_of_pos hrun]
  cases rest with
  | nil => rfl
  | cons c rest => simp [hend c rfl]

/-- A run of visible characters ends at a blank one. -/
theorem of_head? {rest' : List Char} (h : IsRun p run rest)
    (hvisible : ∀ c, p c = true → IsVisible c)
    (hhead : ∀ c ∈ rest'.head?, c ∈ rest.head? ∨ Text.isBlank c = true) : IsRun p run rest' := by
  refine ⟨h.1, ?_⟩
  intro c hc
  rcases hhead c hc with hc | hblank
  · exact h.2 c hc
  · apply Bool.eq_false_iff.mpr
    intro hpart
    rw [(hvisible c hpart).isBlank_eq_false] at hblank
    cases hblank

end IsRun

/-! ## Marks -/

/-- A mark that is found is spelled there. -/
theorem Mark.eq_of_leading? {mark : Mark} (h : leading? text = some mark) :
    ∃ rest, text = mark.symbol.toList ++ rest := by
  rw [leading?.eq_def] at h
  split at h <;> cases h <;> exact ⟨_, rfl⟩

/-- A mark starts with a visible character that starts no other kind of token. -/
theorem Mark.symbol_head (mark : Mark) : ∃ c more, mark.symbol.toList = c :: more ∧
    IsVisible c ∧ ¬IsQuote c ∧ isNameStart c = false ∧ c.isDigit = false := by
  cases mark <;>
    exact ⟨_, _, rfl, ⟨by decide, by decide⟩, by decide, by decide, by decide⟩

/-- In front of an equality sign, the exclamation mark is no mark of its own. -/
theorem Mark.leading?_ne_bang (text : List Char) : leading? ('!' :: '=' :: text) ≠ some bang := by
  intro h
  cases text with
  | nil => cases h
  | cons c text =>
    by_cases hc : c = '='
    · subst hc
      cases h
    · simp [leading?, hc] at h

/-- A mark is found in front of a text as it is in front of another, unless an equality sign
makes it a longer one. -/
theorem Mark.leading?_append {mark : Mark} {rest' : List Char}
    (h : leading? (mark.symbol.toList ++ rest) = some mark)
    (hhead : rest'.head? = some '=' → rest.head? = some '=') :
    leading? (mark.symbol.toList ++ rest') = some mark := by
  cases rest' with
  | nil =>
    rw [List.append_nil]
    exact mark.leading?_symbol
  | cons c more =>
    by_cases hc : c = '='
    · subst hc
      obtain ⟨rest, rfl⟩ := List.head?_eq_some_iff.mp (hhead rfl)
      -- here only marks are found that no equality sign makes longer
      cases mark with
      | bang => exact absurd h (leading?_ne_bang rest)
      | looseEqual | looseNotEqual | less | greater => cases h
      | _ => rfl
    · cases mark with
      | bang | looseEqual | looseNotEqual | less | greater => simp [Mark.symbol, leading?, hc]
      | _ => rfl

/-! ## Tokens -/

/-- **A name**: a character that starts one, and characters that continue it. -/
def IsName (name : String) : Prop :=
  ∃ c more, name.toList = c :: more ∧ isNameStart c = true ∧ ∀ d ∈ more, isNamePart d = true

/-- **The characters of a token**, in front of a text that does not belong to it. -/
inductive Lexeme : List Char → TokenKind → List Char → Prop where
  /-- a text between two quotes -/
  | string {quote : Char} {body text rest : List Char} (hquote : IsQuote quote)
      (hbody : Encodes quote body text) :
      Lexeme (quote :: (body ++ [quote])) (.literal (.string (String.ofList text))) rest
  /-- a name or a keyword -/
  | name {c : Char} {more rest : List Char} (hstart : isNameStart c = true)
      (hrun : IsRun isNamePart (c :: more) rest) :
      Lexeme (c :: more) (.ofName (String.ofList (c :: more))) rest
  /-- digits and points that are a numeral -/
  | number {c : Char} {more rest : List Char} {d : Decimal} (hstart : c.isDigit = true)
      (hrun : IsRun isNumberPart (c :: more) rest)
      (hread : Decimal.read? (c :: more) = some d) :
      Lexeme (c :: more) (.literal (.number (.ofDecimal false d))) rest
  /-- a mark, unless a longer one is spelled there -/
  | mark {mark : Mark} {rest : List Char}
      (hlongest : Mark.leading? (mark.symbol.toList ++ rest) = some mark) :
      Lexeme mark.symbol.toList (.mark mark) rest

namespace Lexeme

variable {lexeme : List Char} {kind : TokenKind}

/-- A token starts with a visible character. -/
theorem head_isVisible (h : Lexeme lexeme kind rest) :
    ∃ c more, lexeme = c :: more ∧ IsVisible c := by
  cases h with
  | string hquote => exact ⟨_, _, rfl, hquote.isVisible⟩
  | name hstart => exact ⟨_, _, rfl, isVisible_of_isNamePart (isNamePart_of_isNameStart hstart)⟩
  | number hstart => exact ⟨_, _, rfl, isVisible_of_isNumberPart (by simp [isNumberPart, hstart])⟩
  | mark =>
    obtain ⟨c, more, hsymbol, hvisible, -⟩ := Mark.symbol_head _
    exact ⟨c, more, hsymbol, hvisible⟩

/-- A token takes a character at least. -/
theorem length_pos (h : Lexeme lexeme kind rest) : 0 < lexeme.length := by
  obtain ⟨c, more, rfl, -⟩ := h.head_isVisible
  simp

/-- The end of the input is written with no characters. -/
theorem kind_ne_eof (h : Lexeme lexeme kind rest) : kind ≠ .eof := by
  cases h with
  | name =>
    unfold TokenKind.ofName
    grind
  | _ => simp

/-- A token that may stand for a name is a name, and spelled as it. -/
theorem eq_name {name : String} (h : Lexeme lexeme kind rest)
    (hname : kind.propertyName? = some name) :
    lexeme = name.toList ∧ IsName name ∧ IsRun isNamePart lexeme rest := by
  cases h with
  | string | number | mark => cases hname
  | name hstart hrun =>
    rw [TokenKind.propertyName?_ofName, Option.some.injEq] at hname
    have htext := congrArg String.toList hname
    rw [String.toList_ofList] at htext
    exact ⟨htext, ⟨_, _, htext.symm, hstart, fun d hd => hrun.1 d (List.mem_cons_of_mem _ hd)⟩,
      hrun⟩

/-- **What stands behind a lexeme** matters by its first character only, and a blank character
may stand behind every lexeme. -/
theorem of_head? {rest' : List Char} (h : Lexeme lexeme kind rest)
    (hhead : ∀ c ∈ rest'.head?, c ∈ rest.head? ∨ Text.isBlank c = true) :
    Lexeme lexeme kind rest' := by
  cases h with
  | string hquote hbody => exact .string hquote hbody
  | name hstart hrun =>
    exact .name hstart (hrun.of_head? (fun _ => isVisible_of_isNamePart) hhead)
  | number hstart hrun hread =>
    exact .number hstart (hrun.of_head? (fun _ => isVisible_of_isNumberPart) hhead) hread
  | mark hlongest =>
    apply Lexeme.mark
    apply Mark.leading?_append hlongest
    intro hequals
    rcases hhead '=' hequals with h | h
    · exact h
    · cases h

end Lexeme

/-- **Reading one token.** What is read is a lexeme at the start of the text. -/
theorem lexeme_of_scan {kind : TokenKind} {length : Nat} (h : scan text = (.ok kind, length)) :
    text = [] ∧ kind = .eof ∨
      ∃ lexeme rest, text = lexeme ++ rest ∧ Lexeme lexeme kind rest ∧ length = lexeme.length := by
  rw [scan.eq_def] at h
  split at h
  · cases h
    exact .inl ⟨rfl, rfl⟩
  next c text =>
  refine .inr ?_
  -- the first character decides which class is read
  split at h
  · next hquote =>
    split at h
    · next body length hbody =>
      cases h
      obtain ⟨inside, after, rfl, hinside, rfl⟩ := encodes_of_scanString hbody
      exact ⟨_, after, by simp, .string hquote hinside, by simp⟩
    · cases h
    · cases h
  split at h
  · next hstart =>
    cases h
    have hname := isNamePart_of_isNameStart hstart
    have hrun := isRun_takeWhile isNamePart (c :: text)
    refine ⟨_, (c :: text).dropWhile isNamePart, List.takeWhile_append_dropWhile.symm, ?_, rfl⟩
    rw [List.takeWhile_cons_of_pos hname] at hrun ⊢
    exact .name hstart hrun
  split at h
  · next hstart =>
    have hnumber : isNumberPart c = true := by simp [isNumberPart, hstart]
    have hrun := isRun_takeWhile isNumberPart (c :: text)
    rw [Prod.mk.injEq, scanNumber.eq_def] at h
    obtain ⟨h, rfl⟩ := h
    split at h
    · next d hread =>
      cases h
      refine ⟨_, (c :: text).dropWhile isNumberPart, List.takeWhile_append_dropWhile.symm, ?_,
        rfl⟩
      rw [List.takeWhile_cons_of_pos hnumber] at hrun hread ⊢
      exact .number hstart hrun hread
    · cases h
  · split at h
    · next mark hmark =>
      cases h
      obtain ⟨rest, hrest⟩ := Mark.eq_of_leading? hmark
      rw [hrest] at hmark ⊢
      exact ⟨_, rest, rfl, .mark hmark, rfl⟩
    · cases h

/-- **Every lexeme is read.** -/
theorem Lexeme.scan_append {lexeme : List Char} {kind : TokenKind}
    (h : Lexeme lexeme kind rest) : scan (lexeme ++ rest) = (.ok kind, lexeme.length) := by
  cases h with
  | @string quote body text _ hquote hbody =>
    have hescape : quote ≠ '\\' := by
      rintro rfl
      revert hquote
      decide
    have hscan := scanString_of_encodes hescape hbody rest
    rw [List.cons_append, List.append_assoc, List.singleton_append, scan, if_pos hquote, hscan]
    simp
  | @name c more _ hstart hrun =>
    have hquote : ¬IsQuote c := by
      rintro (rfl | rfl) <;> cases hstart
    have htake := hrun.takeWhile_append
    rw [List.cons_append] at htake ⊢
    rw [scan, if_neg hquote, if_pos hstart]
    simp only [htake]
  | @number c more _ d hstart hrun hread =>
    have hquote : ¬IsQuote c := by
      rintro (rfl | rfl) <;> cases hstart
    have hname : ¬isNameStart c = true := by
      rw [isNameStart_iff]
      rw [isDigit_iff] at hstart
      omega
    have htake := hrun.takeWhile_append
    rw [List.cons_append] at htake ⊢
    rw [scan, if_neg hquote, if_neg hname, if_pos hstart]
    simp only [htake, scanNumber, hread]
  | @mark mark _ hlongest =>
    obtain ⟨c, more, hsymbol, -, hquote, hname, hdigit⟩ := mark.symbol_head
    rw [hsymbol, List.cons_append] at hlongest ⊢
    rw [scan, if_neg hquote, if_neg (by simp [hname]), if_neg (by simp [hdigit])]
    simp only [hlongest, ← hsymbol, String.length_toList]

end ScreenedExpr
