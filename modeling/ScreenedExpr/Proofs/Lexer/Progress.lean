import ScreenedExpr.Proofs.Lexer.Tiles

/-!
# A lexer that is driven on

A lexer can be asked for a token again and again, past its errors, and may then go on in the
middle of what it could not read. Wherever that is, what it has left is an end of the text,
from its position on.

* `scan_length_le` — reading one token takes no more characters than there are;
* `Lexer.IsWithin` — a lexer stands in a text;
* `Lexer.driven` — the lexer of a text after some calls, `Lexer.isWithin_driven` says that it
  stands in the text.
-/

namespace ScreenedExpr

variable {quote : Char} {text : List Char}

/-- Inversion for a string with an invalid escape behind one more character. -/
theorem StringBody.cons_eq_invalidEscape {c escaped : Char} {n length : Nat} {tail : StringBody}
    (h : tail.cons c n = .invalidEscape escaped length) :
    ∃ length', tail = .invalidEscape escaped length' ∧ length = length' + n := by
  cases tail with
  | closed => cases h
  | invalidEscape _ length' => cases h; exact ⟨length', rfl, rfl⟩
  | unterminated => cases h

/-- **An invalid escape** ends what encodes a text. The backslash is taken, the character
behind it is not. -/
theorem encodes_of_invalidEscape {escaped : Char} {length : Nat}
    (h : scanString quote text = .invalidEscape escaped length) :
    ∃ inside body after, text = inside ++ '\\' :: escaped :: after ∧ Encodes quote inside body ∧
      unescape? escaped = none ∧ length = inside.length + 1 := by
  fun_induction scanString quote text generalizing length with
  | case1 => cases h
  | case2 => cases h
  | case3 letter text c hc ih =>
    obtain ⟨length, htail, rfl⟩ := StringBody.cons_eq_invalidEscape h
    obtain ⟨inside, body, after, rfl, hinside, hnone, rfl⟩ := ih htail
    exact ⟨'\\' :: letter :: inside, c :: body, after, rfl, .escape hc hinside, hnone, by simp⟩
  | case4 _ text hnone =>
    cases h
    exact ⟨[], [], text, rfl, .nil, hnone, rfl⟩
  | case5 => cases h
  | case6 c text hend hescape hquote ih =>
    have hraw := ne_backslash_of_plain hend hescape
    obtain ⟨length, htail, rfl⟩ := StringBody.cons_eq_invalidEscape h
    obtain ⟨inside, body, after, rfl, hinside, hnone, rfl⟩ := ih htail
    exact ⟨c :: inside, c :: body, after, rfl, .raw hquote hraw hinside, hnone, by simp⟩

/-- **Reading one token** takes no more characters than there are, also where it fails. -/
theorem scan_length_le (text : List Char) : (scan text).2 ≤ text.length := by
  cases hscan : scan text with
  | mk result length =>
  cases result with
  | ok kind =>
    obtain ⟨rfl, -⟩ | ⟨lexeme, rest, rfl, -, rfl⟩ := lexeme_of_scan hscan
    · cases hscan
      exact Nat.le_refl 0
    · simp
  | error e =>
    rw [scan.eq_def] at hscan
    split at hscan
    · cases hscan
    next c text =>
    split at hscan
    · split at hscan
      · cases hscan
      · next hinvalid =>
        cases hscan
        obtain ⟨inside, -, after, rfl, -, -, rfl⟩ := encodes_of_invalidEscape hinvalid
        simp only [List.length_cons, List.length_append]
        omega
      · cases hscan
        exact Nat.le_refl _
    split at hscan
    · cases hscan
    split at hscan
    · rw [Prod.mk.injEq] at hscan
      obtain ⟨-, rfl⟩ := hscan
      exact (List.takeWhile_prefix isNumberPart).length_le
    · split at hscan
      · cases hscan
      · cases hscan
        exact Nat.zero_le _

namespace Lexer

variable {lexer : Lexer}

/-- **A lexer stands in a text**: what it has not read is an end of the text, and its position
is the number of characters before that. -/
def IsWithin (lexer : Lexer) (text : List Char) : Prop :=
  ∃ before, text = before ++ lexer.rest ∧ lexer.position = before.length

theorem isWithin_ofText (text : String) : (ofText text).IsWithin text.toList :=
  ⟨[], rfl, rfl⟩

theorem IsWithin.advance {length : Nat} (h : lexer.IsWithin text)
    (hlength : length ≤ lexer.rest.length) : (lexer.advance length).IsWithin text := by
  obtain ⟨before, rfl, hposition⟩ := h
  refine ⟨before ++ lexer.rest.take length, ?_, ?_⟩
  · simp [Lexer.advance]
  · rw [List.length_append, List.length_take_of_le hlength, ← hposition, Lexer.advance]

theorem IsWithin.skipBlanks (h : lexer.IsWithin text) : lexer.skipBlanks.IsWithin text := by
  obtain ⟨before, rfl, hposition⟩ := h
  refine ⟨before ++ lexer.rest.takeWhile Text.isBlank, ?_, ?_⟩
  · rw [List.append_assoc, Lexer.skipBlanks, List.takeWhile_append_dropWhile]
  · rw [List.length_append, ← hposition, Lexer.skipBlanks]

/-- Where a lexer stands after a call, whatever that returned. -/
theorem next_snd (lexer : Lexer) :
    lexer.next.2 = lexer.skipBlanks.advance (scan lexer.skipBlanks.rest).2 := by
  rw [next]
  cases scan lexer.skipBlanks.rest with
  | mk result length => cases result <;> rfl

/-- **One call** leaves a lexer in its text. -/
theorem IsWithin.next (h : lexer.IsWithin text) : lexer.next.2.IsWithin text := by
  rw [next_snd]
  exact h.skipBlanks.advance (scan_length_le _)

/-- **The lexer of a text after some calls**, whatever these returned. -/
def driven (text : String) : Nat → Lexer
  | 0 => ofText text
  | count + 1 => (driven text count).next.2

/-- However often it is called, a lexer stands in its text. -/
theorem isWithin_driven (text : String) (count : Nat) :
    (driven text count).IsWithin text.toList := by
  induction count with
  | zero => exact isWithin_ofText text
  | succ count ih => exact ih.next

end Lexer

end ScreenedExpr
