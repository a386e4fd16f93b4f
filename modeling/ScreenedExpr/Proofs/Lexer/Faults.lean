import ScreenedExpr.Proofs.Lexer.Settling
import ScreenedExpr.Proofs.Lexer.Strings
import ScreenedExpr.Proofs.NumericText

/-!
# The first fault of a text

A text that is no sequence of tokens has a first place where none can be read. In front of it
there are lexemes, each as long as it can be in the whole text, and blank characters; at it
stands one of five faults. The error names the fault, and where it is: a string that is never
closed at its quote, a wrong escape at the escaped character.

Nothing else is an error: what stands behind the first fault has no say, and wherever lexemes
lead up to a fault, it is the one that is reported.

* `Fault` — what can be wrong at a place, and the error for it;
* `Precedes` — lexemes and blank characters lead up to a place;
* `fault_of_scan`, `scan_of_fault` — reading one token fails exactly at a fault;
* `tokenize_eq_error_iff` — whole texts.
-/

namespace ScreenedExpr

/-! ## Faults -/

/-- A token starts with this character. -/
def StartsToken (c : Char) : Prop := ∃ more kind rest, Lexeme (c :: more) kind rest

/-- What stands behind an opening quote has a closing quote, with no wrong escape before it. -/
def Closes (quote : Char) (body : List Char) : Prop :=
  ∃ inside text after, body = inside ++ quote :: after ∧ Encodes quote inside text

/-- No escape is written with this character. -/
def NoEscape (escaped : Char) : Prop := ∀ c, (escaped, c) ∉ escapes

/-- What stands behind an opening quote has a wrong escape, with no closing quote before it. The
part up to the backslash is given. -/
def Misescapes (quote : Char) (body inside : List Char) (escaped : Char) : Prop :=
  ∃ text after, body = inside ++ '\\' :: escaped :: after ∧ Encodes quote inside text ∧
    NoEscape escaped

/-- **A fault at the start of a text**, with the error for it, if the text starts there in a
longer one. -/
inductive Fault (position : Nat) : List Char → LexError → Prop where
  /-- half of a mark: these characters come in pairs -/
  | half {c : Char} {rest : List Char} (hc : c = '=' ∨ c = '&' ∨ c = '|')
      (hrest : rest.head? ≠ some c) : Fault position (c :: rest) (.unexpectedChar c position)
  /-- a character that no token starts with -/
  | foreign {c : Char} {rest : List Char} (hvisible : Text.isBlank c = false)
      (hc : ¬StartsToken c) : Fault position (c :: rest) (.unexpectedChar c position)
  /-- a string that is never closed, and has no wrong escape -/
  | unterminated {quote : Char} {body : List Char} (hquote : IsQuote quote)
      (hopen : ¬Closes quote body) (hescapes : ∀ inside c, ¬Misescapes quote body inside c) :
      Fault position (quote :: body) (.unterminatedString position)
  /-- the first wrong escape of a string that is still open -/
  | escape {quote escaped : Char} {body inside : List Char} (hquote : IsQuote quote)
      (h : Misescapes quote body inside escaped) :
      Fault position (quote :: body) (.invalidEscape escaped (position + inside.length + 2))
  /-- a run of digits and points with two points at least -/
  | number {c : Char} {more rest : List Char} (hdigit : c.isDigit = true)
      (hrun : IsRun isNumberPart (c :: more) rest) (hpoints : 2 ≤ (c :: more).count '.') :
      Fault position (c :: more ++ rest)
        (.malformedNumber (String.ofList (c :: more)) position)

/-- **What leads up to a place** in a text: lexemes, each read in front of all that follows, and
blank characters. -/
inductive Precedes : List Char → List Char → Prop where
  /-- behind the last lexeme there are blank characters -/
  | blanks {blanks rest : List Char} (hblanks : ∀ c ∈ blanks, Text.isBlank c = true) :
      Precedes blanks rest
  /-- a lexeme stands behind blank characters -/
  | lexeme {blanks lexeme before rest : List Char} {kind : TokenKind}
      (hblanks : ∀ c ∈ blanks, Text.isBlank c = true)
      (hlexeme : Lexeme lexeme kind (before ++ rest)) (more : Precedes before rest) :
      Precedes (blanks ++ (lexeme ++ before)) rest

/-! ## Strings -/

section strings

variable {quote escaped c : Char} {inside body text : List Char}

theorem noEscape_iff : NoEscape escaped ↔ unescape? escaped = none := by
  rw [Option.eq_none_iff_forall_ne_some, NoEscape]
  exact forall_congr' fun c => not_congr unescape?_eq_some_iff.symm

/-- A wrong escape is found behind what encodes a text. -/
theorem scanString_of_misescapes (h : Misescapes quote body inside escaped) :
    scanString quote body = .invalidEscape escaped (inside.length + 1) := by
  obtain ⟨text, after, rfl, hinside, hescaped⟩ := h
  rw [noEscape_iff] at hescaped
  induction hinside with
  | nil => rw [List.nil_append, scanString.eq_3, hescaped]; rfl
  | raw hne hescape _ ih =>
    rw [List.cons_append, scanString.eq_4 _ _ _ (fun h _ => hescape h)
      (fun _ _ h _ => hescape h), if_neg hne, ih]
    rfl
  | escape hc _ ih =>
    rw [List.cons_append, List.cons_append, scanString.eq_3, hc]
    dsimp only
    rw [ih]
    rfl

/-- **A string is open to its end** if it is neither closed nor wrong. -/
theorem scanString_eq_unterminated_iff (hquote : quote ≠ '\\') :
    scanString quote body = .unterminated ↔
      ¬Closes quote body ∧ ∀ inside c, ¬Misescapes quote body inside c := by
  refine ⟨?_, ?_⟩
  · intro h
    refine ⟨?_, ?_⟩
    · rintro ⟨inside, text, after, rfl, hinside⟩
      rw [scanString_of_encodes hquote hinside] at h
      cases h
    · intro inside c hwrong
      rw [scanString_of_misescapes hwrong] at h
      cases h
  · rintro ⟨hopen, hescapes⟩
    cases hscan : scanString quote body with
    | closed text length =>
      obtain ⟨inside, after, hbody, hinside, -⟩ := encodes_of_scanString hscan
      exact absurd ⟨inside, text, after, hbody, hinside⟩ hopen
    | invalidEscape escaped length =>
      obtain ⟨inside, text, after, hbody, hinside, hnone, -⟩ := encodes_of_invalidEscape hscan
      exact absurd ⟨text, after, hbody, hinside, noEscape_iff.mpr hnone⟩ (hescapes inside escaped)
    | unterminated => rfl

end strings

/-! ## Numbers -/

section numbers

variable {c : Char} {more run : List Char}

theorem count_point_of_digits (h : ∀ d ∈ run, d.isDigit = true) : run.count '.' = 0 := by
  apply List.count_eq_zero_of_not_mem
  intro hpoint
  cases h '.' hpoint

/-- In a run of digits and points, all but the points are digits. -/
theorem isDigit_of_count_point (hrun : ∀ d ∈ run, isNumberPart d = true)
    (hcount : run.count '.' = 0) : ∀ d ∈ run, d.isDigit = true := by
  intro d hd
  have hpart := hrun d hd
  rw [isNumberPart, Bool.or_eq_true, beq_iff_eq] at hpart
  rcases hpart with h | rfl
  · exact h
  · exact absurd hd (List.count_eq_zero.mp hcount)

/-- A run of digits and points that starts with a digit is a decimal if it has one point at
most. -/
theorem isDecimal_iff_count (hdigit : c.isDigit = true)
    (hrun : ∀ d ∈ c :: more, isNumberPart d = true) :
    IsDecimal (c :: more) ↔ (c :: more).count '.' ≤ 1 := by
  generalize htext : c :: more = text at hrun ⊢
  refine ⟨?_, ?_⟩
  · rintro ⟨hmantissa, hexponent⟩
    cases hexponent with
    | power he =>
      have he' := hrun _ (List.mem_append_right _ List.mem_cons_self)
      obtain rfl | rfl := he <;> cases he'
    | none =>
      rw [List.append_nil]
      cases hmantissa with
      | whole h => rw [count_point_of_digits h.2]; omega
      | point h hmore =>
        rw [List.count_append, List.count_cons_self, count_point_of_digits h.2,
          count_point_of_digits hmore]
      | fraction h => rw [List.count_cons_self, count_point_of_digits h.2]
  · intro hcount
    by_cases hpoint : '.' ∈ text
    · obtain ⟨whole, fraction, rfl⟩ := List.append_of_mem hpoint
      obtain ⟨hwhole, hmore⟩ := List.forall_mem_append.mp hrun
      rw [List.count_append, List.count_cons_self] at hcount
      have hdigits := isDigit_of_count_point hwhole (by omega)
      have hfraction := isDigit_of_count_point (List.forall_mem_cons.mp hmore).2 (by omega)
      have hne : whole ≠ [] := by
        rintro rfl
        cases htext
        cases hdigit
      have hdecimal := IsDecimal.mk (.point ⟨hne, hdigits⟩ hfraction) .none
      rwa [List.append_nil] at hdecimal
    · have hdigits := isDigit_of_count_point hrun (List.count_eq_zero_of_not_mem hpoint)
      have hdecimal := IsDecimal.mk (.whole ⟨by simp [← htext], hdigits⟩) .none
      rwa [List.append_nil] at hdecimal

/-- Such a run is no number if it has two points at least. -/
theorem scanNumber_eq_error_iff (hdigit : c.isDigit = true)
    (hrun : ∀ d ∈ c :: more, isNumberPart d = true) {e : LexError} :
    scanNumber (c :: more) = .error e ↔
      2 ≤ (c :: more).count '.' ∧ e = .malformedNumber (String.ofList (c :: more)) 0 := by
  have hdecimal := Decimal.read?_ne_none_iff.trans (isDecimal_iff_count hdigit hrun)
  rw [scanNumber]
  cases hread : Decimal.read? (c :: more) with
  | none =>
    have hpoints : ¬(c :: more).count '.' ≤ 1 := fun h => hdecimal.mpr h hread
    simp [eq_comm, show 2 ≤ (c :: more).count '.' by omega]
  | some d =>
    have hpoints : (c :: more).count '.' ≤ 1 := hdecimal.mp (by simp [hread])
    simp [show ¬2 ≤ (c :: more).count '.' by omega]

end numbers

/-! ## Marks -/

section marks

variable {c : Char} {rest : List Char}

/-- Where a mark is spelled, one is found. -/
theorem Mark.leading?_symbol_append (mark : Mark) (rest : List Char) :
    leading? (mark.symbol.toList ++ rest) ≠ none := by
  have hplain (mark : Mark) (rest : List Char) (hhead : rest.head? ≠ some '=') :
      leading? (mark.symbol.toList ++ rest) ≠ none := by
    have hsymbol : leading? (mark.symbol.toList ++ []) = some mark := by
      rw [List.append_nil, mark.leading?_symbol]
    rw [leading?_append hsymbol fun h => absurd h hhead]
    exact Option.some_ne_none _
  by_cases hhead : rest.head? = some '='
  · obtain ⟨rest, rfl⟩ := List.head?_eq_some_iff.mp hhead
    -- the equality sign makes a longer mark, or stands behind one
    cases mark with
    | bang =>
      by_cases hhead : rest.head? = some '='
      · obtain ⟨rest, rfl⟩ := List.head?_eq_some_iff.mp hhead
        exact Option.some_ne_none strictNotEqual
      · exact hplain looseNotEqual rest hhead
    | _ => exact Option.some_ne_none _
  · exact hplain mark rest hhead

/-- A mark starts with a mark of one character, or with two characters that are the same. -/
theorem Mark.symbol_single_or_pair {mark : Mark} {more : List Char}
    (h : mark.symbol.toList = c :: more) :
    (∃ single : Mark, single.symbol.toList = [c]) ∨
      (c = '=' ∨ c = '&' ∨ c = '|') ∧ ∃ pair : Mark, pair.symbol.toList = [c, c] := by
  by_cases hmore : more = []
  · exact .inl ⟨mark, hmore ▸ h⟩
  · cases mark with
    | looseEqual | strictEqual => cases h; exact .inr ⟨.inl rfl, looseEqual, rfl⟩
    | andAnd => cases h; exact .inr ⟨.inr (.inl rfl), andAnd, rfl⟩
    | orOr => cases h; exact .inr ⟨.inr (.inr rfl), orOr, rfl⟩
    | looseNotEqual | strictNotEqual => cases h; exact .inl ⟨bang, rfl⟩
    | lessEqual => cases h; exact .inl ⟨less, rfl⟩
    | greaterEqual => cases h; exact .inl ⟨greater, rfl⟩
    | _ => cases h; exact absurd rfl hmore

/-- **Half a mark.** Where a mark could start and none is found, there is one character of a
pair. -/
theorem Mark.half_of_leading?_eq_none {mark : Mark} {more : List Char}
    (h : leading? (c :: rest) = none) (hmark : mark.symbol.toList = c :: more) :
    (c = '=' ∨ c = '&' ∨ c = '|') ∧ rest.head? ≠ some c := by
  obtain ⟨single, hsingle⟩ | ⟨hc, pair, hpair⟩ := symbol_single_or_pair hmark
  · have hfound := single.leading?_symbol_append rest
    rw [hsingle] at hfound
    exact absurd h hfound
  · refine ⟨hc, ?_⟩
    intro hhead
    obtain ⟨rest, rfl⟩ := List.head?_eq_some_iff.mp hhead
    have hfound := pair.leading?_symbol_append rest
    rw [hpair] at hfound
    exact hfound h

/-- No mark is found at half a mark. -/
theorem Mark.leading?_eq_none_of_half (hc : c = '=' ∨ c = '&' ∨ c = '|')
    (hrest : rest.head? ≠ some c) : leading? (c :: rest) = none := by
  cases rest with
  | nil => rcases hc with rfl | rfl | rfl <;> rfl
  | cons d rest =>
    have hd : d ≠ c := fun h => hrest (congrArg some h)
    rcases hc with rfl | rfl | rfl <;> simp [leading?, hd]

end marks

/-! ## One token -/

section scanning

variable {c quote : Char} {position length : Nat} {text rest body : List Char} {e : LexError}

theorem IsQuote.ne_backslash (h : IsQuote quote) : quote ≠ '\\' := by
  rintro rfl
  revert h
  decide

/-- What starts a token, but no string, name or number, starts a mark. -/
theorem StartsToken.exists_mark (h : StartsToken c) (hquote : ¬IsQuote c)
    (hname : ¬isNameStart c = true) (hdigit : ¬c.isDigit = true) :
    ∃ (mark : Mark) (more : List Char), mark.symbol.toList = c :: more := by
  obtain ⟨more, kind, rest, h⟩ := h
  generalize htext : c :: more = lexeme at h
  cases h with
  | string h => cases htext; exact absurd h hquote
  | name h => cases htext; exact absurd h hname
  | number h => cases htext; exact absurd h hdigit
  | @mark mark => exact ⟨mark, more, htext.symm⟩

/-- A character of any class starts a token of that class. -/
theorem startsToken_of_class (h : IsQuote c ∨ isNameStart c = true ∨ c.isDigit = true ∨
    ∃ (mark : Mark) (more : List Char), mark.symbol.toList = c :: more) : StartsToken c := by
  obtain hquote | hname | hdigit | ⟨mark, more, hsymbol⟩ := h
  · exact ⟨_, _, [], .string hquote .nil⟩
  · have hpart : ∀ d ∈ [c], isNamePart d = true :=
      List.forall_mem_singleton.mpr (isNamePart_of_isNameStart hname)
    exact ⟨_, _, [], .name hname ⟨hpart, nofun⟩⟩
  · have hpart : ∀ d ∈ [c], isNumberPart d = true :=
      List.forall_mem_singleton.mpr (by simp [isNumberPart, hdigit])
    have hdecimal := (isDecimal_iff_count hdigit hpart).mpr List.count_le_length
    obtain ⟨d, hread⟩ := Option.ne_none_iff_exists'.mp (Decimal.read?_ne_none_iff.mpr hdecimal)
    exact ⟨_, _, [], .number hdigit ⟨hpart, nofun⟩ hread⟩
  · have hlexeme : Lexeme mark.symbol.toList (.mark mark) [] := by
      apply Lexeme.mark
      rw [List.append_nil, mark.leading?_symbol]
    exact ⟨more, _, [], hsymbol ▸ hlexeme⟩

/-- **Reading one token** fails only at a fault. -/
theorem fault_of_scan (hvisible : ∀ c ∈ text.head?, Text.isBlank c = false)
    (h : scan text = (.error e, length)) (position : Nat) :
    Fault position text (e.shift position) := by
  rw [scan.eq_def] at h
  split at h
  · cases h
  next c text =>
  split at h
  · next hquote =>
    split at h
    · cases h
    · next hscan =>
      cases h
      obtain ⟨inside, text, after, hbody, hinside, hnone, rfl⟩ := encodes_of_invalidEscape hscan
      exact .escape hquote ⟨text, after, hbody, hinside, noEscape_iff.mpr hnone⟩
    · next hscan =>
      cases h
      rw [scanString_eq_unterminated_iff (IsQuote.ne_backslash hquote)] at hscan
      obtain ⟨hopen, hescapes⟩ := hscan
      exact .unterminated hquote hopen hescapes
  next hquote =>
  split at h
  · cases h
  next hname =>
  split at h
  · next hdigit =>
    have hnumber : isNumberPart c = true := by simp [isNumberPart, hdigit]
    have hrun := isRun_takeWhile isNumberPart (c :: text)
    have htext : (c :: text).takeWhile isNumberPart ++ (c :: text).dropWhile isNumberPart =
      c :: text := List.takeWhile_append_dropWhile
    rw [List.takeWhile_cons_of_pos hnumber] at h hrun htext
    rw [Prod.mk.injEq, scanNumber_eq_error_iff hdigit hrun.1] at h
    obtain ⟨⟨hpoints, rfl⟩, -⟩ := h
    rw [← htext]
    exact .number hdigit hrun hpoints
  · next hdigit =>
    split at h
    · cases h
    · next hmark =>
      cases h
      by_cases hstarts : StartsToken c
      · obtain ⟨mark, more, hsymbol⟩ := hstarts.exists_mark hquote hname hdigit
        obtain ⟨hc, hrest⟩ := Mark.half_of_leading?_eq_none hmark hsymbol
        exact .half hc hrest
      · exact .foreign (hvisible c rfl) hstarts

/-- **At a fault no token is read.** -/
theorem scan_of_fault (h : Fault position text e) :
    ∃ e', (scan text).1 = .error e' ∧ e = e'.shift position := by
  cases h with
  | @half c rest hc hrest =>
    have hmark := Mark.leading?_eq_none_of_half hc hrest
    have hscan : scan (c :: rest) = (.error (.unexpectedChar c 0), 0) := by
      rw [scan, if_neg, if_neg, if_neg, hmark] <;> rcases hc with rfl | rfl | rfl <;> decide
    exact ⟨_, congrArg Prod.fst hscan, rfl⟩
  | @foreign c rest _ hc =>
    have hquote : ¬IsQuote c := fun h => hc (startsToken_of_class (.inl h))
    have hname : ¬isNameStart c = true := fun h => hc (startsToken_of_class (.inr (.inl h)))
    have hdigit : ¬c.isDigit = true := fun h =>
      hc (startsToken_of_class (.inr (.inr (.inl h))))
    have hmark : Mark.leading? (c :: rest) = none := by
      by_contra hfound
      obtain ⟨mark, hmark⟩ := Option.ne_none_iff_exists'.mp hfound
      obtain ⟨after, hafter⟩ := Mark.eq_of_leading? hmark
      obtain ⟨d, more, hsymbol, -⟩ := mark.symbol_head
      rw [hsymbol] at hafter
      cases hafter
      exact hc (startsToken_of_class (.inr (.inr (.inr ⟨mark, more, hsymbol⟩))))
    rw [scan, if_neg hquote, if_neg hname, if_neg hdigit, hmark]
    exact ⟨_, rfl, rfl⟩
  | unterminated hquote hopen hescapes =>
    have hscan := (scanString_eq_unterminated_iff hquote.ne_backslash).mpr ⟨hopen, hescapes⟩
    rw [scan, if_pos hquote, hscan]
    exact ⟨_, rfl, rfl⟩
  | escape hquote h =>
    rw [scan, if_pos hquote, scanString_of_misescapes h]
    exact ⟨_, rfl, rfl⟩
  | @number c more rest hdigit hrun hpoints =>
    have hquote : ¬IsQuote c := by
      rintro (rfl | rfl) <;> cases hdigit
    have hname : ¬isNameStart c = true := by
      rw [isNameStart_iff]
      rw [isDigit_iff] at hdigit
      omega
    have hnumber := (scanNumber_eq_error_iff hdigit hrun.1).mpr ⟨hpoints, rfl⟩
    have htake := hrun.takeWhile_append
    rw [List.cons_append] at htake ⊢
    rw [scan, if_neg hquote, if_neg hname, if_pos hdigit]
    simp only [htake, hnumber]
    exact ⟨_, rfl, rfl⟩

/-- No fault starts with a blank character. -/
theorem Fault.isBlank_eq_false (h : Fault position text e) :
    ∀ c ∈ text.head?, Text.isBlank c = false := by
  cases h with
  | half hc =>
    rintro c ⟨⟩
    rcases hc with rfl | rfl | rfl <;> decide
  | foreign hvisible =>
    rintro c ⟨⟩
    exact hvisible
  | unterminated hquote | escape hquote =>
    rintro c ⟨⟩
    exact hquote.isVisible.isBlank_eq_false
  | number hdigit =>
    rintro c ⟨⟩
    exact (isVisible_of_isNumberPart (by simp [isNumberPart, hdigit])).isBlank_eq_false

end scanning

/-- What leads up to a place is tokens on its own. -/
theorem Precedes.exists_tiles {before text : List Char} (h : Precedes before text)
    (offset : Nat) : ∃ tokens, Tiles offset before tokens := by
  induction h generalizing offset with
  | blanks hblanks => exact ⟨_, .done hblanks⟩
  | lexeme hblanks hlexeme _ ih =>
    obtain ⟨tokens, htiles⟩ := ih _
    -- the last lexeme loses what is read behind it, which may only end it
    refine ⟨_, .token hblanks (hlexeme.of_head? ?_) htiles⟩
    intro c hc
    rw [List.head?_append, Option.mem_def.mp hc]
    exact .inl rfl

namespace Lexer

variable {lexer : Lexer} {count position : Nat} {before blanks text : List Char} {e : LexError}

/-! ## One call -/

/-- **A call fails** only at a fault behind blank characters. -/
theorem fault_of_next (h : lexer.next.1 = .error e) : ∃ blanks text,
    lexer.rest = blanks ++ text ∧ (∀ c ∈ blanks, Text.isBlank c = true) ∧
      Fault (lexer.position + blanks.length) text e := by
  have hrun := isRun_takeWhile Text.isBlank lexer.rest
  refine ⟨_, _, List.takeWhile_append_dropWhile.symm, hrun.1, ?_⟩
  rw [next] at h
  cases hscan : scan lexer.skipBlanks.rest with
  | mk result length =>
    rw [hscan] at h
    cases result with
    | ok => cases h
    | error =>
      cases h
      exact fault_of_scan hrun.2 hscan _

/-- **At a fault behind blank characters a call fails.** -/
theorem next_of_fault (hblanks : ∀ c ∈ blanks, Text.isBlank c = true)
    (h : Fault (position + blanks.length) text e) :
    (next ⟨blanks ++ text, position⟩).1 = .error e := by
  have hrun : IsRun Text.isBlank blanks text := ⟨hblanks, h.isBlank_eq_false⟩
  obtain ⟨e', hscan, rfl⟩ := scan_of_fault h
  obtain ⟨result, hpair⟩ : ∃ length, scan text = (.error e', length) := ⟨_, Prod.ext hscan rfl⟩
  simp only [next, skipBlanks, hrun.takeWhile_append, hrun.dropWhile_append, hpair]

/-! ## A text from start to end -/

/-- **Collecting tokens fails** only at a fault that lexemes lead up to. -/
theorem fault_of_take (h : lexer.take count = .error e) : ∃ before text,
    lexer.rest = before ++ text ∧ Precedes before text ∧
      Fault (lexer.position + before.length) text e := by
  induction count generalizing lexer with
  | zero => cases h
  | succ count ih =>
    by_cases hgoesOn : GoesOn lexer.next.1
    · obtain ⟨token, htoken, hkind⟩ := hgoesOn
      rw [take_of_goesOn htoken hkind] at h
      obtain ⟨-, rfl⟩ | ⟨blanks, lexeme, hrest, hblanks, hlexeme, -, hposition⟩ :=
        next_eq_ok (Prod.ext htoken rfl)
      · exact absurd rfl hkind
      cases hmore : lexer.next.2.take count with
      | ok => rw [hmore] at h; cases h
      | error =>
        rw [hmore] at h
        cases h
        obtain ⟨before, text, htext, hprecedes, hfault⟩ := ih hmore
        rw [htext] at hrest hlexeme
        refine ⟨blanks ++ (lexeme ++ before), text, by simp [hrest],
          .lexeme hblanks hlexeme hprecedes, ?_⟩
        rw [hposition] at hfault
        simpa [Nat.add_assoc] using hfault
    · rw [take_of_not_goesOn hgoesOn] at h
      cases hnext : lexer.next.1 with
      | ok => rw [hnext] at h; cases h
      | error =>
        rw [hnext] at h
        cases h
        obtain ⟨blanks, text, hrest, hblanks, hfault⟩ := fault_of_next hnext
        exact ⟨blanks, text, hrest, .blanks hblanks, hfault⟩

/-- **At a fault that lexemes lead up to, collecting tokens fails.** -/
theorem take_of_fault (h : Precedes before text) (hfault : Fault (position + before.length) text e)
    (hcount : (before ++ text).length < count) :
    take count ⟨before ++ text, position⟩ = .error e := by
  obtain ⟨count, rfl⟩ : ∃ n, count = n + 1 := ⟨count - 1, by omega⟩
  induction h generalizing position count with
  | @blanks blanks text hblanks =>
    have hnext := next_of_fault hblanks hfault
    have hstops : ¬GoesOn (next ⟨blanks ++ text, position⟩).1 := by
      rintro ⟨token, htoken, -⟩
      rw [hnext] at htoken
      cases htoken
    rw [take_of_not_goesOn hstops, hnext]
    rfl
  | @lexeme blanks lexeme before text kind hblanks hlexeme _ ih =>
    have hpos := hlexeme.length_pos
    simp only [List.length_append, ← Nat.add_assoc] at hcount hfault
    obtain ⟨count, rfl⟩ : ∃ n, count = n + 1 := ⟨count - 1, by omega⟩
    have hmore := ih hfault count (by rw [List.length_append]; omega)
    rw [List.append_assoc, List.append_assoc, take, next_of_lexeme hblanks hlexeme]
    dsimp only
    rw [if_neg hlexeme.kind_ne_eof, hmore]
    rfl

end Lexer

/-- **The error of a text.** A text is no sequence of tokens exactly if there is a fault in it
that lexemes and blank characters lead up to, and the error is the one of this fault. The text in
front of it is a sequence of tokens. -/
theorem tokenize_eq_error_iff {text : String} {e : LexError} :
    tokenize text = .error e ↔ ∃ before faulty, text.toList = before ++ faulty ∧
      (∃ tokens, tokenize (String.ofList before) = .ok tokens) ∧ Precedes before faulty ∧
      Fault before.length faulty e := by
  refine ⟨?_, ?_⟩
  · intro h
    obtain ⟨before, faulty, htext, hprecedes, hfault⟩ := Lexer.fault_of_take h
    obtain ⟨tokens, htiles⟩ := hprecedes.exists_tiles 0
    refine ⟨before, faulty, htext, ⟨tokens, ?_⟩, hprecedes, ?_⟩
    · rwa [tokenize_eq_ok_iff, String.toList_ofList]
    · rwa [Lexer.ofText, Nat.zero_add] at hfault
  · rintro ⟨before, faulty, htext, -, hprecedes, hfault⟩
    rw [tokenize, Lexer.ofText, htext]
    apply Lexer.take_of_fault hprecedes
    · rwa [Nat.zero_add]
    · exact Nat.lt_succ_self _

-- The string stands open at a wrong escape, and the lone `=` behind it has no say.
example : tokenize "a && 'b\\x =" = .error (.invalidEscape 'x' 8) := by decide +kernel

end ScreenedExpr
