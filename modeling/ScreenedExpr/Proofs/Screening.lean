import ScreenedExpr.Proofs.Denylist
import ScreenedExpr.Proofs.Source
import ScreenedExpr.Sandbox

/-!
# What screening keeps out

Screening looks at characters, and knows nothing of tokens. That no listed name gets into a
tree nevertheless rests on three facts:

* in an expression no two literals or names follow each other without a mark between them,
  so every name and every string stands behind a character that ends a word (`Tiles.stands`);
* a name goes on as long as it can, so a word ends behind it as well;
* the only escapes that hide the end of a word are those written with a letter, and they
  stand for a line break or a tab (`Encodes.wordEnd_or`).
-/

namespace ScreenedExpr

open Denylist Grammar

/-! ## Where tokens stand -/

/-- A blank character ends a word. -/
theorem isWordChar_of_isBlank {c : Char} (h : Text.isBlank c = true) : isWordChar c = false := by
  by_contra hword
  have hname : isNamePart c = true := by
    simp only [isWordChar, isNamePart, Bool.or_eq_true] at hword ⊢
    grind
  have hvisible : IsVisible c := by
    rw [isNamePart_iff] at hname
    unfold IsVisible
    omega
  rw [hvisible.isBlank_eq_false] at h
  cases h

/-- A mark ends a word. -/
theorem Mark.wordEnd_symbol (mark : Mark) (before : List Char) :
    WordEnd (before ++ mark.symbol.toList) := by
  obtain ⟨start, c, hsymbol, hc⟩ : ∃ start c, mark.symbol.toList = start ++ [c] ∧
      isWordChar c = false := by
    cases mark <;> first | exact ⟨[], _, rfl, by decide⟩ | exact ⟨[_], _, rfl, by decide⟩ |
      exact ⟨[_, _], _, rfl, by decide⟩
  rw [hsymbol, ← List.append_assoc]
  exact wordEnd_concat hc

/-- Blank characters keep the end of a word, and any of them makes one. -/
theorem wordEnd_append_blanks {before blanks : List Char}
    (hblanks : ∀ c ∈ blanks, Text.isBlank c = true) (h : blanks = [] → WordEnd before) :
    WordEnd (before ++ blanks) := by
  obtain rfl | ⟨blanks, c, rfl⟩ := List.eq_nil_or_concat blanks
  · simpa using h rfl
  · rw [List.concat_eq_append, ← List.append_assoc]
    exact wordEnd_concat (isWordChar_of_isBlank (hblanks c (by simp)))

/-- No name is spelled as a mark. -/
theorem not_isMark_ofName (name : String) : ¬IsMark (.ofName name) := by
  rintro ⟨mark, h⟩
  unfold TokenKind.ofName at h
  grind

/-- A mark ends a word. -/
theorem Lexeme.wordEnd_or {lexeme rest : List Char} {kind : TokenKind}
    (h : Lexeme lexeme kind rest) (before : List Char) :
    WordEnd (before ++ lexeme) ∨ ¬IsMark kind := by
  cases h with
  | string | number => exact .inr (by simp [IsMark])
  | name => exact .inr (not_isMark_ofName _)
  | mark => exact .inl (Mark.wordEnd_symbol _ _)

/-- Two neighbouring tokens, one of which is a mark or the second of which is the end. -/
def Apart (a b : Token) : Prop := IsMark a.kind ∨ IsMark b.kind ∨ b.kind = .eof

/-- The tokens of an expression are apart. -/
theorem apart_of_derives {n : Nat} {body : List Token} {stop : Token} {e : Expr}
    (h : Derives .expression n (body.map Token.kind) e) (hstop : stop.kind = .eof) :
    (body ++ [stop]).IsChain Apart := by
  have hchain := (List.isChain_map _).mp h.isChain_mark
  refine List.isChain_append.mpr ⟨hchain.imp fun a b => ?_, List.isChain_singleton _, ?_⟩
  · rintro (ha | hb)
    · exact .inl ha
    · exact .inr (.inl hb)
  · intro a _ b hb
    cases hb
    exact .inr (.inr hstop)

/-- A token stands in a text: its lexeme fills its span, and behind what stands before it a
word starts, unless the token is a mark. -/
structure Stands (text : List Char) (token : Token) (before lexeme after : List Char) :
    Prop where
  /-- the text falls into three parts -/
  text_eq : text = before ++ (lexeme ++ after)
  /-- the middle one is the lexeme -/
  spelled : Lexeme lexeme token.kind after
  /-- the span says where it is -/
  span : token.span = ⟨before.length, before.length + lexeme.length⟩
  /-- no word goes on over its start -/
  wordEnd : IsMark token.kind ∨ WordEnd before

/-- **Every token of an expression stands in the text.** What was passed before the text
ends a word, or else a mark or the end of the input follows. -/
theorem Tiles.stands {text : List Char} {tokens : List Token} (before : List Char)
    (h : Tiles before.length text tokens) (hapart : tokens.IsChain Apart)
    (hbefore : WordEnd before ∨ ∀ t ∈ tokens.head?, IsMark t.kind ∨ t.kind = .eof)
    {token : Token} (htoken : token ∈ tokens) (hkind : token.kind ≠ .eof) :
    ∃ front lexeme after, Stands (before ++ text) token front lexeme after := by
  generalize hoffset : before.length = offset at h
  induction h generalizing before with
  | done =>
    rw [List.mem_singleton.mp htoken] at hkind
    exact absurd rfl hkind
  | @token offset blanks lexeme rest kind tokens hblanks hlexeme more ih =>
    -- either this is the token, or it stands further on
    rcases List.mem_cons.mp htoken with rfl | htoken
    · refine ⟨before ++ blanks, lexeme, rest, by simp, hlexeme, by simp [hoffset], ?_⟩
      rcases hbefore with hbefore | hhead
      · exact .inr (wordEnd_append_blanks hblanks fun _ => hbefore)
      · exact .inl ((hhead _ rfl).resolve_right hkind)
    · have hmore : WordEnd (before ++ blanks ++ lexeme) ∨
          ∀ t ∈ tokens.head?, IsMark t.kind ∨ t.kind = .eof := by
        refine (hlexeme.wordEnd_or (before ++ blanks)).imp_right ?_
        intro hmark t ht
        exact ((List.isChain_cons.mp hapart).1 t ht).resolve_left hmark
      obtain ⟨front, lexeme', after, hstands⟩ :=
        ih (before ++ blanks ++ lexeme) (List.isChain_cons.mp hapart).2 hmore htoken
          (by rw [List.length_append, List.length_append, hoffset])
      -- the same place, seen from the whole text
      refine ⟨front, lexeme', after, ?_, hstands.spelled, hstands.span, hstands.wordEnd⟩
      simpa using hstands.text_eq

/-- **Where the tokens of an expression are.** All of them but the end of the input stand in
its text. -/
theorem stands_of_ofText {limits : Limits} {text : String} {tree : Expr}
    (h : Expr.ofText limits text = .ok tree) : ∃ body stop n,
      tokenize text = .ok (body ++ [stop]) ∧ stop.kind = .eof ∧
      Derives .expression n (body.map Token.kind) tree ∧
      ∀ token ∈ body, ∃ before lexeme after, Stands text.toList token before lexeme after := by
  obtain ⟨body, stop, n, htiles, hstop, hderives, -, -⟩ := Expr.ofText_eq_ok_iff.mp h
  refine ⟨body, stop, n, tokenize_eq_ok_iff.mpr htiles, hstop, hderives, ?_⟩
  intro token htoken
  have hstart : WordEnd [] := by simp [WordEnd]
  have hkind := hderives.kind_ne_eof _ (List.mem_map_of_mem htoken)
  exact Tiles.stands [] htiles (apart_of_derives hderives hstop) (.inl hstart)
    (List.mem_append_left _ htoken) hkind

/-! ## Names -/

/-- A character that is no part of a name ends a word. -/
theorem isWordChar_of_not_isNamePart {c : Char} (h : isNamePart c = false) :
    isWordChar c = false := by
  simp only [isNamePart, Bool.or_eq_false_iff] at h
  simp only [isWordChar, Bool.or_eq_false_iff]
  exact h.1

/-- The pieces of a text that is split at a character lie between its ends and that
character. -/
theorem exists_append_of_mem_splitOn {a : Char} {text piece : List Char}
    (h : piece ∈ text.splitOn a) : ∃ before after, text = before ++ (piece ++ after) ∧
      (before = [] ∨ ∃ front, before = front ++ [a]) ∧
      (after = [] ∨ ∃ back, after = a :: back) := by
  induction hlength : text.length using Nat.strong_induction_on generalizing text with
  | h n ih =>
    by_cases ha : a ∈ text
    · obtain ⟨first, more, rfl, hfirst⟩ := List.eq_append_cons_of_mem ha
      rw [List.splitOn_append_cons_self_of_not_mem hfirst, List.mem_cons] at h
      rcases h with rfl | h
      · exact ⟨[], a :: more, rfl, .inl rfl, .inr ⟨more, rfl⟩⟩
      · have hlt : more.length < n := by
          rw [← hlength, List.length_append, List.length_cons]
          omega
        obtain ⟨before, after, rfl, hbefore, hafter⟩ := ih _ hlt h rfl
        refine ⟨first ++ a :: before, after, by simp, .inr ?_, hafter⟩
        rcases hbefore with rfl | ⟨front, rfl⟩
        · exact ⟨first, rfl⟩
        · exact ⟨first ++ a :: front, by simp⟩
    · rw [List.splitOn_eq_singleton ha, List.mem_singleton] at h
      exact ⟨[], [], by simp [h], .inl rfl, .inl rfl⟩

/-- **A name that stands in an accepted text** has no listed name between its `$` signs. -/
theorem Stands.not_mem_names {text : String} {token : Token} {before lexeme after : List Char}
    (h : Stands text.toList token before lexeme after) (hblocked : blocked? text = none)
    {name : String} (hname : token.kind.propertyName? = some name) {piece : List Char}
    (hpiece : piece ∈ name.toList.splitOn '$') : String.ofList piece ∉ Denylist.names := by
  intro hlisted
  obtain ⟨rfl, -, -, hend⟩ := h.spelled.eq_name hname
  obtain ⟨front, back, hsplit, hfront, hback⟩ := exists_append_of_mem_splitOn hpiece
  have hbefore : WordEnd before := by
    refine h.wordEnd.resolve_left ?_
    rintro ⟨mark, hmark⟩
    rw [hmark] at hname
    cases hname
  have htext : text.toList =
      before ++ front ++ ((String.ofList piece).toList ++ (back ++ after)) := by
    rw [h.text_eq, hsplit, String.toList_ofList]
    simp
  refine blocked?_eq_none_iff.mp hblocked _ _ _ hlisted htext ?_ ?_
  · rcases hfront with rfl | ⟨front, rfl⟩
    · simpa using hbefore
    · rw [← List.append_assoc]
      exact wordEnd_concat (by decide)
  · rcases hback with rfl | ⟨back, rfl⟩
    · exact fun c hc => isWordChar_of_not_isNamePart (hend c hc)
    · exact wordStart_cons (by decide)

/-- A listed name is a piece of itself. -/
theorem not_mem_names_of_splitOn {name : String}
    (h : ∀ piece ∈ name.toList.splitOn '$', String.ofList piece ∉ Denylist.names) :
    name ∉ Denylist.names := by
  intro hlisted
  have hdollar : '$' ∉ name.toList := by
    intro hmem
    have hword := (isWordChar_of_mem_names hlisted).2 _ hmem
    revert hword
    decide
  refine h name.toList ?_ (by rwa [String.ofList_toList])
  rw [List.splitOn_eq_singleton hdollar]
  exact List.mem_singleton_self _

/-! ## Strings -/

/-- The escapes that are written with a letter, and what they stand for. -/
def letterEscapes : List (Char × Char) := [('n', '\n'), ('t', '\t'), ('r', '\r')]

/-- No escape stands for a character of a word. -/
theorem isWordChar_of_unescape? {escaped c : Char} (h : unescape? escaped = some c) :
    isWordChar c = false := by
  rw [unescape?.eq_def] at h
  split at h <;> cases h <;> decide

/-- An escape is written with a letter, or with a character that ends a word. -/
theorem mem_letterEscapes_or {escaped c : Char} (h : unescape? escaped = some c) :
    (escaped, c) ∈ letterEscapes ∨ isWordChar escaped = false := by
  rw [unescape?.eq_def] at h
  split at h <;> cases h <;> decide

namespace Encodes

variable {quote : Char} {body text before after : List Char}

/-- What encodes two texts in a row falls into what encodes each of them. -/
theorem of_append (h : Encodes quote body (before ++ after)) : ∃ front back,
    body = front ++ back ∧ Encodes quote front before ∧ Encodes quote back after := by
  induction before generalizing body with
  | nil => exact ⟨[], body, rfl, .nil, h⟩
  | cons c before ih =>
    cases h with
    | raw hquote hescape rest =>
      obtain ⟨front, back, rfl, hfront, hback⟩ := ih rest
      exact ⟨c :: front, back, rfl, .raw hquote hescape hfront, hback⟩
    | escape hescaped rest =>
      obtain ⟨front, back, rfl, hfront, hback⟩ := ih rest
      exact ⟨_, back, rfl, .escape hescaped hfront, hback⟩

/-- Characters of words are written as themselves. -/
theorem eq_of_isWordChar (h : Encodes quote body text)
    (hword : ∀ c ∈ text, isWordChar c = true) : body = text := by
  induction h with
  | nil => rfl
  | raw _ _ _ ih => rw [ih fun c hc => hword c (List.mem_cons_of_mem _ hc)]
  | escape hescaped =>
    have hc := hword _ List.mem_cons_self
    rw [isWordChar_of_unescape? hescaped] at hc
    cases hc

/-- A word that ends in front of a text also ends in front of what encodes it. -/
theorem wordStart (h : Encodes quote body text) (hquote : isWordChar quote = false)
    (htext : WordStart text) (after : List Char) : WordStart (body ++ quote :: after) := by
  cases h with
  | nil => exact wordStart_cons hquote
  | raw => exact wordStart_cons (htext _ rfl)
  | escape => exact wordStart_cons (by decide)

/-- **What hides the end of a word.** A word that starts behind a text also starts behind
what encodes it, unless that ends with an escape written with a letter. -/
theorem wordEnd_or (h : Encodes quote body text) (htext : WordEnd text) (hbefore : WordEnd before) :
    WordEnd (before ++ body) ∨ ∃ front c escaped written, text = front ++ [c] ∧
      (escaped, c) ∈ letterEscapes ∧ body = written ++ ['\\', escaped] ∧
      Encodes quote written front := by
  obtain rfl | ⟨front, c, rfl⟩ := List.eq_nil_or_concat text
  · cases h
    exact .inl (by simpa using hbefore)
  · rw [List.concat_eq_append] at h htext ⊢
    obtain ⟨written, last, rfl, hfront, hlast⟩ := h.of_append
    cases hlast with
    | raw _ _ hnil =>
      cases hnil
      rw [← List.append_assoc]
      exact .inl (wordEnd_concat (htext c (by simp)))
    | escape hescaped hnil =>
      cases hnil
      rcases mem_letterEscapes_or hescaped with hletter | hsign
      · exact .inr ⟨front, c, _, written, rfl, hletter, rfl, hfront⟩
      · rw [List.append_cons, ← List.append_assoc]
        exact .inl (wordEnd_concat hsign)

end Encodes

/-- A text between two quotes that fills a span. -/
def Quoted (text : List Char) (span : Span) (quote : Char) (body : List Char) : Prop :=
  IsQuote quote ∧ ∃ before after, text = before ++ quote :: (body ++ quote :: after) ∧
    span = ⟨before.length, before.length + (body.length + 2)⟩

/-- A string is spelled between two quotes. -/
theorem Lexeme.eq_quoted {lexeme rest : List Char} {kind : TokenKind} {s : String}
    (h : Lexeme lexeme kind rest) (hs : kind.string? = some s) : ∃ quote body,
      IsQuote quote ∧ lexeme = quote :: (body ++ [quote]) ∧ Encodes quote body s.toList := by
  cases h with
  | string hquote hbody =>
    cases hs
    exact ⟨_, _, hquote, rfl, by rwa [String.toList_ofList]⟩
  | number | mark => cases hs
  | name =>
    rw [TokenKind.string?_ofName] at hs
    cases hs

/-- Wherever a listed name is a whole word of a text, what encodes the text has an escape
written with a letter in front of the name, which stands for the character there. -/
def EscapesNames (quote : Char) (body text : List Char) : Prop :=
  ∀ front word back, word ∈ Denylist.names → text = front ++ (word.toList ++ back) →
    WordEnd front → WordStart back →
    ∃ front' c escaped written rest, front = front' ++ [c] ∧ (escaped, c) ∈ letterEscapes ∧
      body = written ++ '\\' :: escaped :: (word.toList ++ rest) ∧
      Encodes quote written front' ∧ Encodes quote rest back

/-- Nothing stands in front of a whole text. -/
theorem EscapesNames.not_mem_names {quote : Char} {body : List Char} {s : String}
    (h : EscapesNames quote body s.toList) : s ∉ Denylist.names := by
  intro hlisted
  have hsplit : s.toList = [] ++ (s.toList ++ []) := by simp
  obtain ⟨front, c, _, _, _, hnil, -⟩ :=
    h [] s [] hlisted hsplit (by simp [WordEnd]) (by simp [WordStart])
  simp at hnil

/-- **A string that stands in an accepted text** hides every listed name in it behind an
escape written with a letter. -/
theorem Stands.exists_escape {text : String} {token : Token} {before lexeme after : List Char}
    (h : Stands text.toList token before lexeme after) (hblocked : blocked? text = none)
    {s : String} (hs : token.kind.string? = some s) :
    ∃ quote body, Quoted text.toList token.span quote body ∧ Encodes quote body s.toList ∧
      EscapesNames quote body s.toList := by
  obtain ⟨quote, body, hquote, rfl, hbody⟩ := h.spelled.eq_quoted hs
  have htext := h.text_eq
  rw [List.cons_append, List.append_assoc, List.singleton_append] at htext
  refine ⟨quote, body, ⟨hquote, before, after, htext, ?_⟩, hbody, ?_⟩
  · rw [h.span]
    simp
  intro front word back hword hsplit hfront hback
  have hquote : isWordChar quote = false := by
    rcases hquote with rfl | rfl <;> decide
  rw [hsplit] at hbody
  obtain ⟨first, _, rfl, hfirst, hmore⟩ := hbody.of_append
  obtain ⟨middle, last, rfl, hmiddle, hlast⟩ := hmore.of_append
  -- the name is written as itself, so it would be found in the text
  obtain rfl := hmiddle.eq_of_isWordChar (isWordChar_of_mem_names hword).2
  have hopen : WordEnd (before ++ [quote]) := wordEnd_concat hquote
  obtain hend | ⟨front', c, escaped, written, rfl, hletter, rfl, hwritten⟩ :=
    hfirst.wordEnd_or hfront hopen
  · refine absurd (hlast.wordStart hquote hback after) ?_
    refine blocked?_eq_none_iff.mp hblocked _ _ _ hword ?_ hend
    rw [htext]
    simp
  · exact ⟨front', c, escaped, written, last, rfl, hletter, by simp, hwritten, hlast⟩

/-! ## Screening -/

namespace Sandbox

/-- **What is accepted** is not too long, breaks no rule, and is an expression. An expression
is never blank. -/
theorem screen_eq_ok_iff {sandbox : Sandbox} {text : String} {tree : Expr} :
    sandbox.screen text = .ok tree ↔ text.toList.length ≤ sandbox.limits.length ∧
      blocked? text = none ∧ Expr.ofText sandbox.limits text = .ok tree := by
  rw [screen, check]
  refine ⟨?_, ?_⟩
  · intro h
    cases htextual : sandbox.textual? text with
    | some reason => rw [htextual] at h; cases h
    | none =>
      rw [htextual] at h
      rw [textual?] at htextual
      split at htextual
      · cases htextual
      split at htextual
      · cases htextual
      next hlength =>
      refine ⟨Nat.le_of_not_lt hlength, Option.map_eq_none_iff.mp htextual, ?_⟩
      cases hread : Expr.ofText sandbox.limits text with
      | error => rw [hread] at h; cases h
      | ok => rw [hread] at h; cases h; rfl
  · rintro ⟨hlength, hblocked, hread⟩
    have htextual : sandbox.textual? text = none := by
      rw [textual?, if_neg (Expr.not_blank_of_ofText hread), if_neg (Nat.not_lt.mpr hlength),
        hblocked, Option.map_none]
    rw [htextual]
    dsimp only
    rw [hread]
    rfl

/-- What is accepted breaks no rule, and is an expression. -/
theorem screen_eq_ok {sandbox : Sandbox} {text : String} {tree : Expr}
    (h : sandbox.screen text = .ok tree) :
    blocked? text = none ∧ Expr.ofText sandbox.limits text = .ok tree :=
  (screen_eq_ok_iff.mp h).2

/-- **No blocked name survives screening.** In the tree of an accepted text no name has a
listed name between its `$` signs, and no name and no string is a listed one. The strings of
the tree are those between quotes in the text, and where one contains a listed name as a
whole word, a line break or a tab stands before it that was written as an escape. -/
theorem screen_blocks (sandbox : Sandbox) (text : String) (tree : Expr)
    (h : sandbox.screen text = .ok tree) :
    (∀ name ∈ tree.names, ∀ piece ∈ name.toList.splitOn '$',
      String.ofList piece ∉ Denylist.names) ∧
    (∀ s ∈ tree.names ++ tree.strings, s ∉ Denylist.names) ∧
    ∃ tokens, tokenize text = .ok tokens ∧
      tree.strings = tokens.filterMap (fun token => token.kind.string?) ∧
      ∀ token ∈ tokens, ∀ s, token.kind.string? = some s →
        ∃ quote body, Quoted text.toList token.span quote body ∧ Encodes quote body s.toList ∧
          EscapesNames quote body s.toList := by
  obtain ⟨hblocked, hread⟩ := screen_eq_ok h
  obtain ⟨body, stop, n, htokens, hstop, hderives, hstands⟩ := stands_of_ofText hread
  have hnames : ∀ name ∈ tree.names, ∀ piece ∈ name.toList.splitOn '$',
      String.ofList piece ∉ Denylist.names := by
    intro name hname piece hpiece
    obtain ⟨kind, hkind, hproperty⟩ := hderives.propertyName?_of_mem_names name hname
    obtain ⟨token, htoken, rfl⟩ := List.mem_map.mp hkind
    obtain ⟨before, lexeme, after, hstand⟩ := hstands token htoken
    exact hstand.not_mem_names hblocked hproperty hpiece
  have hstrings : ∀ token ∈ body ++ [stop], ∀ s, token.kind.string? = some s →
      ∃ quote body, Quoted text.toList token.span quote body ∧ Encodes quote body s.toList ∧
        EscapesNames quote body s.toList := by
    intro token htoken s hs
    rcases List.mem_append.mp htoken with htoken | htoken
    · obtain ⟨before, lexeme, after, hstand⟩ := hstands token htoken
      exact hstand.exists_escape hblocked hs
    · rw [List.mem_singleton.mp htoken, hstop] at hs
      cases hs
  have hkinds : tree.strings = (body ++ [stop]).filterMap fun token => token.kind.string? := by
    rw [hderives.strings_eq, List.filterMap_map, List.filterMap_append]
    simp [hstop]
  refine ⟨hnames, ?_, body ++ [stop], htokens, hkinds, hstrings⟩
  intro s hs
  rcases List.mem_append.mp hs with hname | hstring
  · exact not_mem_names_of_splitOn (hnames s hname)
  · rw [hkinds] at hstring
    obtain ⟨token, htoken, hs⟩ := List.mem_filterMap.mp hstring
    obtain ⟨quote, body, -, -, hescapes⟩ := hstrings token htoken s hs
    exact hescapes.not_mem_names

/-- The tree of `evaluate$["\neval"].$eval_`. -/
def nearMiss : Expr :=
  .dot (.member (.identifier "evaluate$") (.literal (.string "\neval")) true) "$eval_"

/-- Names that go on over a listed one are accepted, and so is a listed name behind an escaped
line break. -/
theorem screen_nearMiss : standard.screen "evaluate$[\"\\neval\"].$eval_" = .ok nearMiss ∧
    (∀ name ∈ nearMiss.names, ∀ piece ∈ name.toList.splitOn '$',
      String.ofList piece ∉ Denylist.names) ∧
    ∀ s ∈ nearMiss.names ++ nearMiss.strings, s ∉ Denylist.names := by
  have h : standard.screen "evaluate$[\"\\neval\"].$eval_" = .ok nearMiss := by
    decide +kernel
  obtain ⟨hnames, hlisted, -⟩ := screen_blocks standard _ nearMiss h
  exact ⟨h, hnames, hlisted⟩

end Sandbox

end ScreenedExpr
