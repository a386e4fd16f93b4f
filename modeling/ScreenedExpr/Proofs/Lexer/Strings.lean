import ScreenedExpr.Proofs.Lexer.Progress
import ScreenedExpr.Proofs.Screening

/-!
# Strings are what is written between the quotes

A string is written one character after the other, each of them as itself or as an escape, so
most strings can be written in many ways. All of them are read as that string, whatever stands
behind the closing quote, and nothing else is read as a string.

* `Spells` — how one character is written, by the list of `escapes`;
* `IsSpelling` — how a string is written, `encodes_iff_isSpelling` relates it to `Encodes`;
* `Lexer.string_spelling` — spelling and reading.
-/

namespace ScreenedExpr

variable {quote : Char} {body text : List Char}

/-- The escapes: what is written behind the backslash, and the character that this is. -/
def escapes : List (Char × Char) :=
  [('n', '\n'), ('t', '\t'), ('r', '\r'), ('"', '"'), ('\'', '\''), ('\\', '\\')]

/-- What stands for a character behind a backslash is in the list, and nothing else. -/
theorem unescape?_eq_some_iff {letter c : Char} :
    unescape? letter = some c ↔ (letter, c) ∈ escapes := by
  refine ⟨?_, ?_⟩
  · intro h
    rw [unescape?.eq_def] at h
    split at h <;> cases h <;> decide
  · intro h
    simp only [escapes, List.mem_cons, List.not_mem_nil, or_false, Prod.mk.injEq] at h
    rcases h with ⟨rfl, rfl⟩ | ⟨rfl, rfl⟩ | ⟨rfl, rfl⟩ | ⟨rfl, rfl⟩ | ⟨rfl, rfl⟩ | ⟨rfl, rfl⟩ <;>
      rfl

/-- **One character between two quotes**, as it may be written. -/
inductive Spells (quote : Char) : Char → List Char → Prop where
  /-- as itself, if it neither closes the string nor starts an escape -/
  | raw {c : Char} (hquote : c ≠ quote) (hescape : c ≠ '\\') : Spells quote c [c]
  /-- as an escape, if it has one -/
  | escape {letter c : Char} (hescape : (letter, c) ∈ escapes) : Spells quote c ['\\', letter]

/-- **A string between two quotes**, as it may be written: its characters in order. -/
def IsSpelling (quote : Char) (body : List Char) (s : String) : Prop :=
  ∃ spellings, List.Forall₂ (Spells quote) s.toList spellings ∧ body = spellings.flatten

/-- What encodes a text is its characters spelled one by one. -/
theorem encodes_iff_flatten : Encodes quote body text ↔
    ∃ spellings, List.Forall₂ (Spells quote) text spellings ∧ body = spellings.flatten := by
  refine ⟨?_, ?_⟩
  · intro h
    induction h with
    | nil => exact ⟨[], .nil, rfl⟩
    | raw hquote hescape _ ih =>
      obtain ⟨spellings, hspellings, rfl⟩ := ih
      exact ⟨_, .cons (.raw hquote hescape) hspellings, rfl⟩
    | escape hescaped _ ih =>
      obtain ⟨spellings, hspellings, rfl⟩ := ih
      exact ⟨_, .cons (.escape (unescape?_eq_some_iff.mp hescaped)) hspellings, rfl⟩
  · rintro ⟨spellings, h, rfl⟩
    induction h with
    | nil => exact .nil
    | cons hfirst _ ih =>
      cases hfirst with
      | raw hquote hescape => exact .raw hquote hescape ih
      | escape hescape => exact .escape (unescape?_eq_some_iff.mpr hescape) ih

theorem encodes_iff_isSpelling {s : String} :
    Encodes quote body s.toList ↔ IsSpelling quote body s :=
  encodes_iff_flatten

namespace Lexer

/-- **A spelled string is read**, up to its closing quote and no further. -/
theorem next_of_isSpelling {s : String} (hquote : IsQuote quote) (h : IsSpelling quote body s)
    (rest : List Char) (position : Nat) :
    next ⟨quote :: (body ++ quote :: rest), position⟩ =
      (.ok ⟨.literal (.string s), ⟨position, position + (body.length + 2)⟩⟩,
        ⟨rest, position + (body.length + 2)⟩) := by
  have hlexeme : Lexeme (quote :: (body ++ [quote])) (.literal (.string s)) rest := by
    rw [← String.ofList_toList (s := s)]
    exact .string hquote (encodes_iff_isSpelling.mpr h)
  have hnext : next ⟨[] ++ (quote :: (body ++ [quote]) ++ rest), position⟩ = _ :=
    next_of_lexeme nofun hlexeme
  simpa using hnext

/-- **A string that a lexer reads** in a text is spelled there, and fills its span. -/
theorem quoted_of_next {lexer : Lexer} {s : String} {span : Span} (hwithin : lexer.IsWithin text)
    (h : lexer.next.1 = .ok ⟨.literal (.string s), span⟩) :
    ∃ quote body, Quoted text span quote body ∧ IsSpelling quote body s := by
  obtain ⟨before, rfl, hposition⟩ := hwithin
  obtain ⟨-, htoken⟩ | ⟨blanks, lexeme, hrest, -, hlexeme, hspan, hafter⟩ :=
    next_eq_ok (Prod.ext h rfl)
  · cases htoken
  · obtain ⟨quote, body, hquote, rfl, hbody⟩ := hlexeme.eq_quoted rfl
    refine ⟨quote, body, ⟨hquote, before ++ blanks, lexer.next.2.rest, ?_, ?_⟩,
      encodes_iff_isSpelling.mp hbody⟩
    · rw [hrest]
      simp
    · obtain rfl : span = _ := hspan
      rw [hafter, hposition]
      simp

/-- **Strings.** Between either quote a string is written in some way; and however it is
written, it is read as that string, up to the closing quote, whatever stands behind. A lexer
that is driven through a text, past its errors too, reads a string only where it is written,
and gives it that span. -/
theorem string_spelling (s : String) :
    (∀ quote, IsQuote quote →
      (∃ body, IsSpelling quote body s) ∧
      ∀ body, IsSpelling quote body s → ∀ rest position,
        next ⟨quote :: (body ++ quote :: rest), position⟩ =
          (.ok ⟨.literal (.string s), ⟨position, position + (body.length + 2)⟩⟩,
            ⟨rest, position + (body.length + 2)⟩)) ∧
    ∀ text count span,
      (driven text count).next.1 = .ok ⟨.literal (.string s), span⟩ →
        ∃ quote body, Quoted text.toList span quote body ∧ IsSpelling quote body s := by
  refine ⟨?_, ?_⟩
  · intro quote hquote
    obtain ⟨body, hbody⟩ := exists_encodes hquote s.toList
    refine ⟨⟨body, encodes_iff_isSpelling.mp hbody⟩, ?_⟩
    intro body hbody rest position
    exact next_of_isSpelling hquote hbody rest position
  · intro text count span h
    exact quoted_of_next (isWithin_driven text count) h

/-- A quote and a backslash, one character behind the other, between two quotes of that kind:
two escapes, where the second backslash does not keep the string open. Behind the invalid escape
of `"\x'a'` a lexer finds the name `x`, and then the string. -/
theorem string_spelling_at_edges :
    (IsQuote '\'' ∧ IsSpelling '\'' ['\\', '\'', '\\', '\\'] "'\\" ∧
      next ⟨['\'', '\\', '\'', '\\', '\\', '\'', '\''], 7⟩ =
        (.ok ⟨.literal (.string "'\\"), ⟨7, 13⟩⟩, ⟨['\''], 13⟩)) ∧
    (driven "\"\\x'a'" 2).next.1 = .ok ⟨.literal (.string "a"), ⟨3, 6⟩⟩ ∧
    ∃ quote body, Quoted "\"\\x'a'".toList ⟨3, 6⟩ quote body ∧ IsSpelling quote body "a" := by
  have hquote : IsQuote '\'' := .inr rfl
  have hspelling : IsSpelling '\'' ['\\', '\'', '\\', '\\'] "'\\" :=
    ⟨[['\\', '\''], ['\\', '\\']],
      .cons (.escape (by decide)) (.cons (.escape (by decide)) .nil), rfl⟩
  have hnext : (driven "\"\\x'a'" 2).next.1 = .ok ⟨.literal (.string "a"), ⟨3, 6⟩⟩ := by
    decide +kernel
  exact ⟨⟨hquote, hspelling, ((string_spelling "'\\").1 '\'' hquote).2 _ hspelling ['\''] 7⟩,
    hnext, (string_spelling "a").2 _ 2 _ hnext⟩

end Lexer

end ScreenedExpr
