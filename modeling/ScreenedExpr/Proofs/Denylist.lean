import ScreenedExpr.Denylist.Rules

/-!
# What the denylist blocks

A pattern denotes the stretches of a text that it matches, and what a pattern matches may
depend on the ends of the text around the stretch.

* `Pattern.Matches` — the denotation, one clause for each constructor;
* `Pattern.occursIn_iff` — a pattern occurs in a text exactly if it matches some stretch;
* `Rule.isBrokenBy_iff` — a rule is broken exactly by a listed name that stands in the text
  as a whole word;
* `blocked?_eq_none_iff` — no rule is broken exactly if no listed name does;
* `hasWord_append_iff`, `mentions_append_iff` — where a word ends or starts between two parts
  of a text, the parts may be searched one by one;
* `blocked?_append` — and if the first part mentions nothing, the second decides.
-/

namespace ScreenedExpr.Denylist

/-! ## Patterns -/

namespace Pattern

/-- **The pattern matches a stretch of a text**, given what stands before and after it. -/
def Matches : Pattern → List Char → List Char → List Char → Prop
  | start, before, stretch, _ => before = [] ∧ stretch = []
  | stop, _, stretch, after => after = [] ∧ stretch = []
  | char accepts, _, stretch, _ => ∃ c, stretch = [c] ∧ accepts c = true
  | literal text, _, stretch, _ => stretch = text
  | seq first second, before, stretch, after => ∃ part part', stretch = part ++ part' ∧
      first.Matches before part (part' ++ after) ∧ second.Matches (before ++ part) part' after
  | alt first second, before, stretch, after =>
    first.Matches before stretch after ∨ second.Matches before stretch after

/-- One of several texts matches those texts. -/
theorem matches_oneOf_iff {texts : List String} {before stretch after : List Char} :
    (oneOf texts).Matches before stretch after ↔ ∃ text ∈ texts, stretch = text.toList := by
  induction texts with
  | nil => simp [oneOf, Matches]
  | cons text texts ih =>
    change stretch = text.toList ∨ (oneOf texts).Matches before stretch after ↔ _
    rw [ih]
    simp only [List.mem_cons, exists_eq_or_imp]

variable {before rest : List Char}

/-- Two texts make the empty text only if both are empty. -/
theorem isEmpty_append (first second : List Char) :
    (first ++ second).isEmpty = (first.isEmpty && second.isEmpty) := by
  cases first <;> rfl

/-- **Where a match can end.** From a place in the text, exactly behind the stretches that
the pattern matches there. -/
theorem mem_run_iff {pattern : Pattern} {there : Place} :
    there ∈ pattern.run ⟨before.isEmpty, rest⟩ ↔ ∃ stretch after, rest = stretch ++ after ∧
      pattern.Matches before stretch after ∧ there = ⟨(before ++ stretch).isEmpty, after⟩ := by
  induction pattern generalizing before rest there with
  | start =>
    simp only [run, Matches, List.isEmpty_iff]
    refine ⟨?_, ?_⟩
    · intro h
      split at h
      · next hbefore =>
        obtain rfl := List.mem_singleton.mp h
        exact ⟨[], rest, rfl, ⟨hbefore, rfl⟩, by simp⟩
      · cases h
    · rintro ⟨_, after, rfl, ⟨rfl, rfl⟩, rfl⟩
      simp
  | stop =>
    simp only [run, Matches]
    refine ⟨?_, ?_⟩
    · intro h
      split at h
      · next hrest =>
        obtain rfl := List.mem_singleton.mp h
        exact ⟨[], rest, rfl, ⟨hrest, rfl⟩, by simp⟩
      · cases h
    · rintro ⟨_, _, rfl, ⟨rfl, rfl⟩, rfl⟩
      simp
  | char accepts =>
    simp only [run, Matches]
    refine ⟨?_, ?_⟩
    · intro h
      cases rest with
      | nil => cases h
      | cons c rest =>
        dsimp only at h
        split at h
        · next hc =>
          obtain rfl := List.mem_singleton.mp h
          exact ⟨[c], rest, rfl, ⟨c, rfl, hc⟩, by simp⟩
        · cases h
    · rintro ⟨_, after, rfl, ⟨c, rfl, hc⟩, rfl⟩
      simp [hc]
  | literal text =>
    simp only [run, Matches]
    refine ⟨?_, ?_⟩
    · intro h
      split at h
      · next hprefix =>
        obtain ⟨after, rfl⟩ := List.isPrefixOf_iff_prefix.mp hprefix
        refine ⟨text, after, rfl, rfl, ?_⟩
        simpa [isEmpty_append] using h
      · cases h
    · rintro ⟨_, after, rfl, rfl, rfl⟩
      simp [isEmpty_append]
  | seq first second ihFirst ihSecond =>
    simp only [run, Matches, List.mem_flatMap]
    refine ⟨?_, ?_⟩
    · rintro ⟨between, hbetween, hthere⟩
      obtain ⟨part, _, rfl, hfirst, rfl⟩ := ihFirst.mp hbetween
      obtain ⟨part', after, rfl, hsecond, rfl⟩ := ihSecond.mp hthere
      exact ⟨part ++ part', after, by simp, ⟨part, part', rfl, hfirst, hsecond⟩, by simp⟩
    · rintro ⟨_, after, rfl, ⟨part, part', rfl, hfirst, hsecond⟩, rfl⟩
      refine ⟨⟨(before ++ part).isEmpty, part' ++ after⟩, ?_, ?_⟩
      · exact ihFirst.mpr ⟨part, part' ++ after, by simp, hfirst, rfl⟩
      · exact ihSecond.mpr ⟨part', after, rfl, hsecond, by simp⟩
  | alt first second ihFirst ihSecond =>
    simp only [run, Matches, List.mem_append, ihFirst, ihSecond]
    refine ⟨?_, ?_⟩
    · rintro (⟨stretch, after, hrest, hmatch, hthere⟩ | ⟨stretch, after, hrest, hmatch, hthere⟩)
      · exact ⟨stretch, after, hrest, .inl hmatch, hthere⟩
      · exact ⟨stretch, after, hrest, .inr hmatch, hthere⟩
    · rintro ⟨stretch, after, hrest, hmatch | hmatch, hthere⟩
      · exact .inl ⟨stretch, after, hrest, hmatch, hthere⟩
      · exact .inr ⟨stretch, after, hrest, hmatch, hthere⟩

/-- A match starts at a place exactly if the pattern matches a stretch that starts there. -/
theorem matchesAt_iff {pattern : Pattern} : pattern.matchesAt ⟨before.isEmpty, rest⟩ = true ↔
    ∃ stretch after, rest = stretch ++ after ∧ pattern.Matches before stretch after := by
  rw [matchesAt, Bool.not_eq_true', List.isEmpty_eq_false_iff_exists_mem]
  refine ⟨?_, ?_⟩
  · rintro ⟨there, hthere⟩
    obtain ⟨stretch, after, hrest, hmatch, -⟩ := mem_run_iff.mp hthere
    exact ⟨stretch, after, hrest, hmatch⟩
  · rintro ⟨stretch, after, hrest, hmatch⟩
    exact ⟨_, mem_run_iff.mpr ⟨stretch, after, hrest, hmatch, rfl⟩⟩

/-- A match starts at a place or later exactly if the pattern matches a stretch that does. -/
theorem occursFrom_iff (pattern : Pattern) (before rest : List Char) :
    pattern.occursFrom before.isEmpty rest = true ↔
      ∃ skipped stretch after, rest = skipped ++ (stretch ++ after) ∧
        pattern.Matches (before ++ skipped) stretch after := by
  induction rest generalizing before with
  | nil =>
    rw [occursFrom, matchesAt_iff]
    refine ⟨?_, ?_⟩
    · rintro ⟨stretch, after, hrest, hmatch⟩
      exact ⟨[], stretch, after, hrest, by simpa using hmatch⟩
    · rintro ⟨skipped, stretch, after, hrest, hmatch⟩
      obtain ⟨rfl, hskipped⟩ := List.append_eq_nil_iff.mp hrest.symm
      exact ⟨stretch, after, hskipped.symm, by simpa using hmatch⟩
  | cons c rest ih =>
    have hbefore : (before ++ [c]).isEmpty = false := by simp
    have ih := ih (before ++ [c])
    rw [hbefore] at ih
    rw [occursFrom, Bool.or_eq_true, matchesAt_iff, ih]
    refine ⟨?_, ?_⟩
    · rintro (⟨stretch, after, hrest, hmatch⟩ | ⟨skipped, stretch, after, rfl, hmatch⟩)
      · exact ⟨[], stretch, after, hrest, by simpa using hmatch⟩
      · exact ⟨c :: skipped, stretch, after, rfl, by simpa using hmatch⟩
    · rintro ⟨skipped, stretch, after, hrest, hmatch⟩
      cases skipped with
      | nil => exact .inl ⟨stretch, after, hrest, by simpa using hmatch⟩
      | cons d skipped =>
        obtain ⟨rfl, rfl⟩ := List.cons.inj hrest
        exact .inr ⟨skipped, stretch, after, rfl, by simpa using hmatch⟩

/-- **Search.** A pattern occurs in a text exactly if it matches some stretch of it. -/
theorem occursIn_iff {pattern : Pattern} {text : String} : pattern.occursIn text = true ↔
    ∃ before stretch after, text.toList = before ++ (stretch ++ after) ∧
      pattern.Matches before stretch after := by
  have h := occursFrom_iff pattern [] text.toList
  simpa [occursIn] using h

end Pattern

/-! ## Words -/

/-- No word goes on over the end of this text. -/
def WordEnd (before : List Char) : Prop := ∀ c ∈ before.getLast?, isWordChar c = false

/-- No word goes on over the start of this text. -/
def WordStart (after : List Char) : Prop := ∀ c ∈ after.head?, isWordChar c = false

theorem wordEnd_concat {before : List Char} {c : Char} (h : isWordChar c = false) :
    WordEnd (before ++ [c]) := by
  simp [WordEnd, h]

theorem wordStart_cons {after : List Char} {c : Char} (h : isWordChar c = false) :
    WordStart (c :: after) := by
  simp [WordStart, h]

/-- **A rule is broken** exactly by a listed name that stands in the text as a whole word. -/
theorem Rule.isBrokenBy_iff {rule : Rule} {text : String} : rule.isBrokenBy text = true ↔
    ∃ before name after, name ∈ rule.names ∧ text.toList = before ++ (name.toList ++ after) ∧
      WordEnd before ∧ WordStart after := by
  rw [isBrokenBy, Pattern.occursIn_iff]
  simp only [pattern, Pattern.Matches, Pattern.matches_oneOf_iff]
  refine ⟨?_, ?_⟩
  · rintro ⟨before, _, after, htext, first, _, rfl, hfirst, _, last, rfl, ⟨name, hname, rfl⟩,
      hlast⟩
    refine ⟨before ++ first, name, last ++ after, hname, by simp [htext], ?_, ?_⟩
    · obtain ⟨rfl, rfl⟩ | ⟨c, rfl, hc⟩ := hfirst
      · simp [WordEnd]
      · exact wordEnd_concat (by simpa using hc)
    · obtain ⟨c, rfl, hc⟩ | ⟨rfl, rfl⟩ := hlast
      · exact wordStart_cons (by simpa using hc)
      · simp [WordStart]
  · rintro ⟨before, name, after, hname, htext, hbefore, hafter⟩
    -- a boundary is an end of the text or a character of its own
    obtain ⟨before, first, rfl, hfirst⟩ : ∃ before' first, before = before' ++ first ∧
        (before' = [] ∧ first = [] ∨ ∃ c, first = [c] ∧ isWordChar c = false) := by
      obtain rfl | ⟨before, c, rfl⟩ := List.eq_nil_or_concat before
      · exact ⟨[], [], rfl, .inl ⟨rfl, rfl⟩⟩
      · exact ⟨before, [c], by simp, .inr ⟨c, rfl, hbefore c (by simp)⟩⟩
    obtain ⟨last, after, rfl, hlast⟩ : ∃ last after', after = last ++ after' ∧
        ((∃ c, last = [c] ∧ isWordChar c = false) ∨ after' = [] ∧ last = []) := by
      cases after with
      | nil => exact ⟨[], [], rfl, .inr ⟨rfl, rfl⟩⟩
      | cons c after => exact ⟨[c], after, rfl, .inl ⟨c, rfl, hafter c rfl⟩⟩
    refine ⟨before, first ++ (name.toList ++ last), after, by simp [htext], first,
      name.toList ++ last, rfl, ?_, name.toList, last, rfl, ⟨name, hname, rfl⟩, ?_⟩
    · simpa using hfirst
    · simpa using hlast

/-! ## The list -/

/-- The blocked names. -/
def names : List String := rules.flatMap Rule.names

/-- **Nothing is blocked** exactly if no listed name stands in the text as a whole word. -/
theorem blocked?_eq_none_iff {text : String} : blocked? text = none ↔
    ∀ before name after, name ∈ names → text.toList = before ++ (name.toList ++ after) →
      WordEnd before → ¬WordStart after := by
  rw [blocked?, Option.map_eq_none_iff, List.find?_eq_none]
  refine ⟨?_, ?_⟩
  · intro h before name after hname htext hbefore hafter
    obtain ⟨rule, hrule, hname⟩ := List.mem_flatMap.mp hname
    exact h rule hrule
      (Rule.isBrokenBy_iff.mpr ⟨before, name, after, hname, htext, hbefore, hafter⟩)
  · intro h rule hrule hbroken
    obtain ⟨before, name, after, hname, htext, hbefore, hafter⟩ := Rule.isBrokenBy_iff.mp hbroken
    exact h before name after (List.mem_flatMap.mpr ⟨rule, hrule, hname⟩) htext hbefore hafter

/-- The blocked names are words. -/
theorem isWordChar_of_mem_names {name : String} (h : name ∈ names) :
    name.toList ≠ [] ∧ ∀ c ∈ name.toList, isWordChar c = true := by
  have hall : names.all (fun name =>
      !name.toList.isEmpty && name.toList.all isWordChar) = true := by
    decide +kernel
  have hname := List.all_eq_true.mp hall name h
  rw [Bool.and_eq_true, Bool.not_eq_true', List.all_eq_true] at hname
  exact ⟨List.isEmpty_eq_false_iff.mp hname.1, hname.2⟩

/-! ## Parts of a text -/

/-- A name stands in the text as a whole word. -/
def HasWord (text : List Char) (name : String) : Prop :=
  ∃ before after, text = before ++ (name.toList ++ after) ∧ WordEnd before ∧ WordStart after

/-- A text without characters of words has no word. -/
theorem not_hasWord {text : List Char} {name : String} (hne : name.toList ≠ [])
    (hname : ∀ c ∈ name.toList, isWordChar c = true) (h : ∀ c ∈ text, isWordChar c = false) :
    ¬HasWord text name := by
  rintro ⟨before, after, rfl, -, -⟩
  obtain ⟨c, hc⟩ := List.exists_mem_of_ne_nil _ hne
  have hfalse := h c (by simp [hc])
  rw [hname c hc] at hfalse
  cases hfalse

section parts

variable {first second : List Char}

/-- Whether a word goes on over the start of a text shows in what it starts with. -/
theorem wordStart_append_iff (h : first ≠ []) : WordStart (first ++ second) ↔ WordStart first := by
  obtain ⟨c, more, rfl⟩ := List.exists_cons_of_ne_nil h
  rfl

/-- Whether a word goes on over the end of a text shows in what it ends with. -/
theorem wordEnd_append_iff (h : second ≠ []) : WordEnd (first ++ second) ↔ WordEnd second := by
  obtain ⟨front, c, rfl⟩ := (List.eq_nil_or_concat second).resolve_left h
  simp [WordEnd, ← List.append_assoc]

/-- A word goes on over a place inside of it. -/
theorem not_wordStart (hne : first ≠ []) (hword : ∀ c ∈ first, isWordChar c = true) :
    ¬WordStart (first ++ second) := by
  rw [wordStart_append_iff hne]
  intro h
  have hhead := List.head?_eq_some_head hne
  have hfalse := h _ hhead
  rw [hword _ (List.head_mem hne)] at hfalse
  cases hfalse

theorem not_wordEnd (hne : second ≠ []) (hword : ∀ c ∈ second, isWordChar c = true) :
    ¬WordEnd (first ++ second) := by
  rw [wordEnd_append_iff hne]
  intro h
  have hlast := List.getLast?_eq_some_getLast hne
  have hfalse := h _ hlast
  rw [hword _ (List.getLast_mem hne)] at hfalse
  cases hfalse

variable {name : String}

/-- A word of a text in two parts lies in one of them, if a word ends or starts in between. -/
theorem hasWord_or (hname : ∀ c ∈ name.toList, isWordChar c = true)
    (h : WordEnd first ∨ WordStart second) (hword : HasWord (first ++ second) name) :
    HasWord first name ∨ HasWord second name := by
  obtain ⟨before, after, htext, hbefore, hafter⟩ := hword
  obtain ⟨middle, rfl, rfl⟩ | ⟨middle, rfl, hmiddle⟩ := List.append_eq_append_iff.mp htext
  · -- the name starts in the second part
    refine .inr ⟨middle, after, rfl, ?_, hafter⟩
    by_cases hnil : middle = []
    · simp [hnil, WordEnd]
    · exact (wordEnd_append_iff hnil).mp hbefore
  obtain ⟨middle', rfl, rfl⟩ | ⟨middle', hsplit, rfl⟩ := List.append_eq_append_iff.mp hmiddle
  · -- the name ends in the first part
    refine .inl ⟨before, middle', rfl, hbefore, ?_⟩
    by_cases hnil : middle' = []
    · simp [hnil, WordStart]
    · exact (wordStart_append_iff hnil).mp hafter
  · -- the name lies across, unless one side of it is empty
    by_cases hnil : middle = []
    · subst hnil
      exact .inr ⟨[], after, by rw [hsplit]; rfl, by simp [WordEnd], hafter⟩
    by_cases hnil' : middle' = []
    · subst hnil'
      exact .inl ⟨before, [], by simp [hsplit], hbefore, by simp [WordStart]⟩
    rw [hsplit, List.forall_mem_append] at hname
    rcases h with h | h
    · exact absurd h (not_wordEnd hnil hname.1)
    · exact absurd h (not_wordStart hnil' hname.2)

theorem HasWord.append_right (hne : name.toList ≠ [])
    (hname : ∀ c ∈ name.toList, isWordChar c = true) (hword : HasWord first name)
    (h : WordEnd first ∨ WordStart second) : HasWord (first ++ second) name := by
  obtain ⟨before, after, rfl, hbefore, hafter⟩ := hword
  refine ⟨before, after ++ second, by simp, hbefore, ?_⟩
  by_cases hnil : after = []
  · subst hnil
    rw [List.append_nil] at h
    exact h.resolve_left (not_wordEnd hne hname)
  · exact (wordStart_append_iff hnil).mpr hafter

theorem HasWord.append_left (hne : name.toList ≠ [])
    (hname : ∀ c ∈ name.toList, isWordChar c = true) (hword : HasWord second name)
    (h : WordEnd first ∨ WordStart second) : HasWord (first ++ second) name := by
  obtain ⟨before, after, rfl, hbefore, hafter⟩ := hword
  refine ⟨first ++ before, after, by simp, ?_, hafter⟩
  by_cases hnil : before = []
  · subst hnil
    rw [List.nil_append] at h
    rw [List.append_nil]
    exact h.resolve_right (not_wordStart hne hname)
  · exact (wordEnd_append_iff hnil).mpr hbefore

/-- **A text in two parts**, between which a word ends or starts, has the words that they
have. -/
theorem hasWord_append_iff (hne : name.toList ≠ [])
    (hname : ∀ c ∈ name.toList, isWordChar c = true) (h : WordEnd first ∨ WordStart second) :
    HasWord (first ++ second) name ↔ HasWord first name ∨ HasWord second name := by
  refine ⟨hasWord_or hname h, ?_⟩
  rintro (hfirst | hsecond)
  · exact hfirst.append_right hne hname h
  · exact hsecond.append_left hne hname h

end parts

/-! ## Listed names in parts of a text -/

/-- A listed name stands in the text as a whole word. -/
def Mentions (text : List Char) : Prop :=
  ∃ before name after, name ∈ names ∧ text = before ++ (name.toList ++ after) ∧
    WordEnd before ∧ WordStart after

theorem mentions_iff {text : List Char} : Mentions text ↔ ∃ name ∈ names, HasWord text name := by
  refine ⟨?_, ?_⟩
  · rintro ⟨before, name, after, hname, hword⟩
    exact ⟨name, hname, before, after, hword⟩
  · rintro ⟨name, hname, before, after, hword⟩
    exact ⟨before, name, after, hname, hword⟩

theorem blocked?_eq_none_iff_not_mentions {text : String} :
    blocked? text = none ↔ ¬Mentions text.toList := by
  rw [blocked?_eq_none_iff]
  refine ⟨?_, ?_⟩
  · rintro h ⟨before, name, after, hname, htext, hbefore, hafter⟩
    exact h before name after hname htext hbefore hafter
  · intro h before name after hname htext hbefore hafter
    exact h ⟨before, name, after, hname, htext, hbefore, hafter⟩

/-- A text without characters of words mentions nothing. -/
theorem not_mentions {text : List Char} (h : ∀ c ∈ text, isWordChar c = false) :
    ¬Mentions text := by
  rw [mentions_iff]
  rintro ⟨name, hname, hword⟩
  obtain ⟨hne, hchars⟩ := isWordChar_of_mem_names hname
  exact not_hasWord hne hchars h hword

/-- **A text in two parts**, between which a word ends or starts, mentions what they mention. -/
theorem mentions_append_iff {first second : List Char} (h : WordEnd first ∨ WordStart second) :
    Mentions (first ++ second) ↔ Mentions first ∨ Mentions second := by
  simp only [mentions_iff, ← exists_or, ← and_or_left]
  refine exists_congr fun name => and_congr_right fun hname => ?_
  obtain ⟨hne, hchars⟩ := isWordChar_of_mem_names hname
  exact hasWord_append_iff hne hchars h

/-- A rule is broken exactly by a word among its names. -/
theorem Rule.isBrokenBy_iff_hasWord {rule : Rule} {text : String} :
    rule.isBrokenBy text = true ↔ ∃ name ∈ rule.names, HasWord text.toList name := by
  rw [isBrokenBy_iff]
  refine ⟨?_, ?_⟩
  · rintro ⟨before, name, after, hname, hword⟩
    exact ⟨name, hname, before, after, hword⟩
  · rintro ⟨name, hname, before, after, hword⟩
    exact ⟨before, name, after, hname, hword⟩

/-- **Behind a text that mentions nothing**, and from which a word end or start parts it, a
text is blocked for the same reason as on its own. -/
theorem blocked?_append {first second : String} (hfirst : blocked? first = none)
    (h : WordEnd first.toList ∨ WordStart second.toList) :
    blocked? (first ++ second) = blocked? second := by
  have hclear : ¬∃ name ∈ names, HasWord first.toList name := by
    rwa [blocked?_eq_none_iff_not_mentions, mentions_iff] at hfirst
  have hrule : ∀ rule ∈ rules, rule.isBrokenBy (first ++ second) = rule.isBrokenBy second := by
    intro rule hrule
    rw [Bool.eq_iff_iff, Rule.isBrokenBy_iff_hasWord, Rule.isBrokenBy_iff_hasWord,
      String.toList_append]
    refine exists_congr fun name => and_congr_right fun hname => ?_
    have hlisted : name ∈ names := List.mem_flatMap.mpr ⟨rule, hrule, hname⟩
    obtain ⟨hne, hchars⟩ := isWordChar_of_mem_names hlisted
    rw [hasWord_append_iff hne hchars h, or_iff_right]
    exact fun hword => hclear ⟨name, hlisted, hword⟩
  rw [blocked?, blocked?, ← List.head?_filter, ← List.head?_filter, List.filter_congr hrule]

end ScreenedExpr.Denylist
