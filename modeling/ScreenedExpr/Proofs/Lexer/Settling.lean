import Mathlib.Data.Nat.Find
import ScreenedExpr.Proofs.Lexer.Progress

/-!
# A lexer settles

Asked again and again, past its errors too, a lexer goes through its text from front to back,
and in the end it always gives the same answer: that the input is at its end, or that it stands
at a character which it cannot read and does not take. Every other answer took a character, so
the number of calls before that is at most the length of the text.

This is also why the tokens of a text can be collected with the length of the text as a bound:
the loop that knows no bound, and goes on until the end of the input or an error, makes the
same calls.

* `scan_length_eq_zero_iff` — when reading one token takes no character;
* `Lexer.IsFinal` — the answers that are given forever;
* `Lexer.Settles` — what is known of all calls on the lexer of a text, `Lexer.settles` shows it.
-/

namespace ScreenedExpr

/-- **No character is taken** at the end of the text and at a character that is not read. -/
theorem scan_length_eq_zero_iff {text : List Char} :
    (scan text).2 = 0 ↔ (scan text).1 = .ok .eof ∨
      ∃ c position, (scan text).1 = .error (.unexpectedChar c position) := by
  cases hscan : scan text with
  | mk result length =>
  cases result with
  | ok kind =>
    obtain ⟨rfl, rfl⟩ | ⟨lexeme, rest, rfl, hlexeme, rfl⟩ := lexeme_of_scan hscan
    · cases hscan
      simp
    · have hpos := hlexeme.length_pos
      have hkind := hlexeme.kind_ne_eof
      simp [hkind, Nat.pos_iff_ne_zero.mp hpos]
  | error e =>
    rw [scan.eq_def] at hscan
    split at hscan
    · cases hscan
    next c text =>
    split at hscan
    · -- an error in a string comes behind the opening quote
      split at hscan <;> cases hscan <;> simp
    split at hscan
    · cases hscan
    split at hscan
    · next hdigit =>
      have hnumber : isNumberPart c = true := by simp [isNumberPart, hdigit]
      rw [List.takeWhile_cons_of_pos hnumber, Prod.mk.injEq, scanNumber.eq_def] at hscan
      obtain ⟨herror, rfl⟩ := hscan
      split at herror
      · cases herror
      · cases herror
        simp
    · split at hscan <;> cases hscan
      simp

namespace Lexer

variable {lexer : Lexer}

/-! ## One call -/

/-- **An answer that is given forever**: the end of the input, or a character that no token
starts with. -/
def IsFinal : Except LexError Token → Prop
  | .ok token => token.kind = .eof
  | .error (.unexpectedChar _ _) => True
  | .error _ => False

/-- The final answers are those for which no character is taken. -/
theorem isFinal_next_iff (lexer : Lexer) :
    IsFinal lexer.next.1 ↔ (scan lexer.skipBlanks.rest).2 = 0 := by
  rw [scan_length_eq_zero_iff, next]
  cases scan lexer.skipBlanks.rest with
  | mk result length =>
  cases result with
  | ok kind => simp [IsFinal]
  | error e => cases e <;> simp [IsFinal, LexError.shift]

/-- Blank characters are skipped once. -/
theorem skipBlanks_skipBlanks (lexer : Lexer) :
    lexer.skipBlanks.skipBlanks = lexer.skipBlanks := by
  have hrun := isRun_takeWhile Text.isBlank lexer.rest
  have hself : IsRun Text.isBlank [] (lexer.rest.dropWhile Text.isBlank) := ⟨nofun, hrun.2⟩
  have htake := hself.takeWhile_append
  have hdrop := hself.dropWhile_append
  rw [List.nil_append] at htake hdrop
  simp only [skipBlanks, htake, hdrop, List.length_nil, Nat.add_zero]

/-- **A final answer is repeated**, and the lexer stays where it is. -/
theorem next_of_isFinal (h : IsFinal lexer.next.1) : lexer.next.2.next = lexer.next := by
  have hlength := (isFinal_next_iff lexer).mp h
  have hafter : lexer.next.2 = lexer.skipBlanks := by
    rw [next_snd, hlength]
    rfl
  rw [hafter, next, skipBlanks_skipBlanks]
  rfl

/-- A call does not go back. -/
theorem position_le_next (lexer : Lexer) : lexer.position ≤ lexer.next.2.position := by
  rw [next_snd]
  exact Nat.le_trans (Nat.le_add_right _ _) (Nat.le_add_right _ _)

/-- **Every other answer moves the lexer forward**, from behind the blank characters. -/
theorem skipBlanks_lt_next (h : ¬IsFinal lexer.next.1) :
    lexer.skipBlanks.position < lexer.next.2.position := by
  rw [isFinal_next_iff] at h
  rw [next_snd]
  exact Nat.lt_add_of_pos_right (Nat.pos_of_ne_zero h)

/-- A token fills what was read behind the blank characters. -/
theorem span_of_next {token : Token} (h : lexer.next.1 = .ok token) :
    token.span = ⟨lexer.skipBlanks.position, lexer.next.2.position⟩ := by
  rw [next_snd]
  rw [next] at h
  cases hscan : scan lexer.skipBlanks.rest with
  | mk result length =>
    rw [hscan] at h
    cases result <;> cases h
    rfl

/-! ## All calls -/

/-- The position never goes back from one call to a later one. -/
theorem position_le_driven (text : String) {first later : Nat} (h : first ≤ later) :
    (driven text first).position ≤ (driven text later).position := by
  induction h with
  | refl => exact Nat.le_refl _
  | step _ ih => exact Nat.le_trans ih (position_le_next _)

/-- From a final answer on, nothing changes. -/
theorem next_driven_of_isFinal {text : String} {first later : Nat} (hle : first ≤ later)
    (h : IsFinal (driven text first).next.1) :
    (driven text later).next = (driven text first).next := by
  induction hle with
  | refl => rfl
  | @step later _ ih =>
    rw [← ih] at h ⊢
    exact next_of_isFinal h

/-- As long as no answer is final, a call takes a character at least. -/
theorem le_position_driven {text : String} {count : Nat}
    (h : ∀ call < count, ¬IsFinal (driven text call).next.1) :
    count ≤ (driven text count).position := by
  induction count with
  | zero => exact Nat.zero_le _
  | succ count ih =>
    have hcount := ih fun call hcall => h call (Nat.lt_succ_of_lt hcall)
    have hle : (driven text count).position ≤ (driven text count).skipBlanks.position :=
      Nat.le_add_right _ _
    have hlt := skipBlanks_lt_next (h count (Nat.lt_succ_self count))
    change count + 1 ≤ (driven text count).next.2.position
    omega

/-- A lexer stays in its text. -/
theorem position_le_length (text : String) (count : Nat) :
    (driven text count).position ≤ text.length := by
  obtain ⟨before, htext, hposition⟩ := isWithin_driven text count
  rw [← String.length_toList, htext, hposition, List.length_append]
  exact Nat.le_add_right _ _

/-- **After as many calls as there are characters, the answers are final.** -/
theorem isFinal_driven {text : String} {call : Nat} (h : text.length ≤ call) :
    IsFinal (driven text call).next.1 := by
  by_contra hcall
  -- otherwise each call up to this one would have taken a character
  have hcount : call + 1 ≤ (driven text (call + 1)).position := by
    apply le_position_driven
    intro earlier hearlier hfinal
    rw [next_driven_of_isFinal (Nat.le_of_lt_succ hearlier) hfinal] at hcall
    exact hcall hfinal
  have hle := position_le_length text (call + 1)
  omega

/-! ## The tokens of a text -/

/-- The loop that collects tokens goes on. -/
def GoesOn (answer : Except LexError Token) : Prop :=
  ∃ token, answer = .ok token ∧ token.kind ≠ .eof

/-- The loop goes on at no final answer. -/
theorem not_goesOn_of_isFinal {answer : Except LexError Token} (h : IsFinal answer) :
    ¬GoesOn answer := by
  rintro ⟨token, rfl, hkind⟩
  exact hkind h

/-- Where the loop goes on, the token comes first. -/
theorem take_of_goesOn {token : Token} (htoken : lexer.next.1 = .ok token)
    (hkind : token.kind ≠ .eof) (count : Nat) :
    lexer.take (count + 1) = (lexer.next.2.take count).map (token :: ·) := by
  have hnext : lexer.next = (.ok token, lexer.next.2) := Prod.ext htoken rfl
  rw [take, hnext]
  dsimp only
  rw [if_neg hkind]

/-- Where the loop does not go on, the answer is all there is. -/
theorem take_of_not_goesOn (h : ¬GoesOn lexer.next.1) (count : Nat) :
    lexer.take (count + 1) = lexer.next.1.map ([·]) := by
  rw [take]
  split
  · next e after hnext => rw [hnext]; rfl
  · next token after hnext =>
    rw [hnext] at h ⊢
    have hkind : token.kind = .eof := by
      by_contra hkind
      exact h ⟨token, rfl, hkind⟩
    rw [if_pos hkind]
    rfl

/-- **Collecting tokens** asks once more than the loop goes on, under any greater bound. -/
theorem take_driven {text : String} {first more count : Nat} (hcount : more < count)
    (hgoesOn : ∀ call, first ≤ call → call < first + more → GoesOn (driven text call).next.1)
    (hstops : ¬GoesOn (driven text (first + more)).next.1) :
    (driven text first).take count =
      (List.range' first (more + 1)).mapM fun call => (driven text call).next.1 := by
  obtain ⟨count, rfl⟩ : ∃ n, count = n + 1 := ⟨count - 1, by omega⟩
  induction more generalizing first count with
  | zero =>
    rw [Nat.add_zero] at hstops
    rw [take_of_not_goesOn hstops, List.range'_one, List.mapM_cons, List.mapM_nil]
    cases (driven text first).next.1 <;> rfl
  | succ more ih =>
    obtain ⟨token, htoken, hkind⟩ := hgoesOn first (Nat.le_refl _) (by omega)
    obtain ⟨count, rfl⟩ : ∃ n, count = n + 1 := ⟨count - 1, by omega⟩
    have hmore : (driven text (first + 1)).take (count + 1) =
        (List.range' (first + 1) (more + 1)).mapM fun call => (driven text call).next.1 :=
      ih (fun call hle hlt => hgoesOn call (by omega) (by omega))
        (by rwa [Nat.add_right_comm]) count (by omega)
    rw [take_of_goesOn htoken hkind, List.range'_succ, List.mapM_cons, htoken, ← hmore]
    change Except.map _ ((driven text (first + 1)).take (count + 1)) = _
    cases (driven text (first + 1)).take (count + 1) <;> rfl

/-- Among the first answers there is one at which the loop does not go on. -/
theorem exists_last (text : String) : ∃ last ≤ text.length,
    (∀ call < last, GoesOn (driven text call).next.1) ∧ ¬GoesOn (driven text last).next.1 := by
  classical
  have hfinal := not_goesOn_of_isFinal (isFinal_driven (Nat.le_refl text.length))
  have hstops : ∃ call, ¬GoesOn (driven text call).next.1 := ⟨text.length, hfinal⟩
  refine ⟨Nat.find hstops, Nat.find_min' hstops hfinal, ?_, Nat.find_spec hstops⟩
  intro call hcall
  exact not_not.mp (Nat.find_min hstops hcall)

/-! ## Settling -/

/-- **A lexer settles**: what is known of any number of calls on the lexer of a text. Calls are
counted from zero. -/
structure Settles (text : String) : Prop where
  /-- the position never goes back -/
  position_le (call : Nat) : (driven text call).position ≤ (driven text (call + 1)).position
  /-- the position stays in the text -/
  position_le_length (call : Nat) : (driven text call).position ≤ text.length
  /-- an answer that is not final moves the position forward -/
  position_lt (call : Nat) (h : ¬IsFinal (driven text call).next.1) :
    (driven text call).position < (driven text (call + 1)).position
  /-- every token has a character of its own, up to the end of the input -/
  start_lt_stop (call : Nat) (token : Token) (h : (driven text call).next.1 = .ok token)
    (hkind : token.kind ≠ .eof) : token.span.start < token.span.stop
  /-- the spans of tokens stand apart, in the order of the calls -/
  stop_le_start (first later : Nat) (hlt : first < later) (a b : Token)
    (ha : (driven text first).next.1 = .ok a) (hb : (driven text later).next.1 = .ok b) :
    a.span.stop ≤ b.span.start
  /-- a final answer is given forever -/
  answer_eq (first later : Nat) (hle : first ≤ later) (h : IsFinal (driven text first).next.1) :
    (driven text later).next.1 = (driven text first).next.1
  /-- with one call more than the text has characters, the final answer is there -/
  settled (call : Nat) (h : text.length ≤ call) : IsFinal (driven text call).next.1 ∧
    (driven text call).next.1 = (driven text text.length).next.1
  /-- the tokens of the text are the answers up to the end of the input or the first error, and
  these are no more than that many -/
  tokenize_eq : ∃ last ≤ text.length, (∀ call < last, GoesOn (driven text call).next.1) ∧
    ¬GoesOn (driven text last).next.1 ∧
    tokenize text = (List.range' 0 (last + 1)).mapM fun call => (driven text call).next.1

/-- **Every lexer settles.** -/
theorem settles (text : String) : Settles text where
  position_le call := position_le_next _
  position_le_length := position_le_length text
  position_lt call h := Nat.lt_of_le_of_lt (Nat.le_add_right _ _) (skipBlanks_lt_next h)
  start_lt_stop call token h hkind := by
    rw [span_of_next h]
    apply skipBlanks_lt_next
    rw [h]
    exact hkind
  stop_le_start first later hlt a b ha hb := by
    rw [span_of_next ha, span_of_next hb]
    exact Nat.le_trans (position_le_driven text hlt) (Nat.le_add_right _ _)
  answer_eq first later hle h := congrArg Prod.fst (next_driven_of_isFinal hle h)
  settled call h := ⟨isFinal_driven h,
    congrArg Prod.fst (next_driven_of_isFinal h (isFinal_driven (Nat.le_refl _)))⟩
  tokenize_eq := by
    obtain ⟨last, hlast, hgoesOn, hstops⟩ := exists_last text
    refine ⟨last, hlast, hgoesOn, hstops, ?_⟩
    have hcount : last < text.toList.length + 1 := by
      rw [String.length_toList]
      omega
    have htake : (driven text 0).take (text.toList.length + 1) =
        (List.range' 0 (last + 1)).mapM fun call => (driven text call).next.1 :=
      take_driven hcount (fun call _ hcall => hgoesOn call (by omega)) (by rwa [Nat.zero_add])
    exact htake

end Lexer

end ScreenedExpr
