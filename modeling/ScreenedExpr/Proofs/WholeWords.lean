import ScreenedExpr.Proofs.Denylist

/-!
# The denylist as a list of words

The rules are patterns that take the characters around a name into their matches. What they
come to is simpler: a text falls into maximal runs of letters, digits and underscores, and a
rule is broken exactly if one of these runs is among its names. So names that start or end
another name, names that follow each other closely and names beside a `$` need no care.

* `IsWordRun` — the maximal runs of a text;
* `isWordRun_iff_hasWord` — a listed name is such a run exactly if it stands there as a whole
  word, the words of the patterns;
* `blocked?_eq_some_iff` — the first rule that is broken gives the category;
* `blocked?_wholeWords` — rules, the category and the clear texts, all told by the runs.
-/

namespace ScreenedExpr.Denylist

variable {text : String} {rule : Rule}

/-- **A maximal run** of word characters of a text. -/
structure IsWordRun (text run : List Char) : Prop where
  /-- it is not empty -/
  ne_nil : run ≠ []
  /-- it has word characters only -/
  isWordChar_of_mem (c : Char) (hc : c ∈ run) : isWordChar c = true
  /-- and on neither side does the text go on with one -/
  maximal : ∃ before after, text = before ++ (run ++ after) ∧ WordEnd before ∧ WordStart after

/-- A listed name is a maximal run where it is a whole word. -/
theorem isWordRun_iff_hasWord {text : List Char} {name : String} (h : name ∈ names) :
    IsWordRun text name.toList ↔ HasWord text name := by
  obtain ⟨hne, hchars⟩ := isWordChar_of_mem_names h
  exact ⟨fun hrun => hrun.maximal, fun hword => ⟨hne, hchars, hword⟩⟩

/-- A maximal run of the text is one of the rule's names. -/
def Rule.Names (rule : Rule) (text : String) : Prop :=
  ∃ run, IsWordRun text.toList run ∧ ∃ name ∈ rule.names, run = name.toList

/-- **A rule of the list is broken** exactly by the texts of which a run is among its names. -/
theorem Rule.isBrokenBy_iff_names (hrule : rule ∈ rules) :
    rule.isBrokenBy text = true ↔ rule.Names text := by
  rw [isBrokenBy_iff_hasWord]
  have hlisted (name : String) (hname : name ∈ rule.names) : name ∈ Denylist.names :=
    List.mem_flatMap.mpr ⟨rule, hrule, hname⟩
  refine ⟨?_, ?_⟩
  · rintro ⟨name, hname, hword⟩
    exact ⟨name.toList, (isWordRun_iff_hasWord (hlisted name hname)).mpr hword, name, hname, rfl⟩
  · rintro ⟨_, hrun, name, hname, rfl⟩
    exact ⟨name, hname, (isWordRun_iff_hasWord (hlisted name hname)).mp hrun⟩

/-- The rule that gives the category is broken, and no rule before it is. -/
theorem blocked?_eq_some_iff {category : Category} : blocked? text = some category ↔
    ∃ earlier rule later, rules = earlier ++ rule :: later ∧ rule.category = category ∧
      rule.isBrokenBy text = true ∧ ∀ other ∈ earlier, other.isBrokenBy text = false := by
  rw [blocked?, Option.map_eq_some_iff]
  simp only [List.find?_eq_some_iff_append, Bool.not_eq_true']
  refine ⟨?_, ?_⟩
  · rintro ⟨rule, ⟨hbroken, earlier, later, hrules, hearlier⟩, hcategory⟩
    exact ⟨earlier, rule, later, hrules, hcategory, hbroken, hearlier⟩
  · rintro ⟨earlier, rule, later, hrules, hcategory, hbroken, hearlier⟩
    exact ⟨rule, ⟨hbroken, earlier, later, hrules, hearlier⟩, hcategory⟩

/-- **Whole words decide.** A rule is broken exactly if a maximal run of the text is one of its
names; the category is that of the first rule with such a run, in the order of the list; and a
text is clear exactly if none of its runs is listed at all. -/
theorem blocked?_wholeWords (text : String) :
    (∀ rule ∈ rules, rule.isBrokenBy text = true ↔ rule.Names text) ∧
      (∀ category, blocked? text = some category ↔
        ∃ earlier rule later, rules = earlier ++ rule :: later ∧ rule.category = category ∧
          rule.Names text ∧ ∀ other ∈ earlier, ¬other.Names text) ∧
      (blocked? text = none ↔
        ∀ run, IsWordRun text.toList run → ∀ name ∈ names, run ≠ name.toList) := by
  refine ⟨fun rule hrule => Rule.isBrokenBy_iff_names hrule, ?_, ?_⟩
  · intro category
    rw [blocked?_eq_some_iff]
    -- where the list falls into parts, the rules of the parts are rules of the list
    refine exists_congr fun earlier => exists_congr fun rule => exists_congr fun later =>
      and_congr_right fun hrules => and_congr_right fun _ => ?_
    have hmem (other : Rule) (hother : other ∈ earlier ++ rule :: later) :
        other.isBrokenBy text = true ↔ other.Names text :=
      Rule.isBrokenBy_iff_names (hrules ▸ hother)
    refine and_congr (hmem rule (by simp)) (forall₂_congr fun other hother => ?_)
    rw [← Bool.not_eq_true, hmem other (List.mem_append_left _ hother)]
  · rw [blocked?_eq_none_iff_not_mentions, mentions_iff]
    refine ⟨?_, ?_⟩
    · rintro hclear _ hrun name hname rfl
      exact hclear ⟨name, hname, (isWordRun_iff_hasWord hname).mp hrun⟩
    · rintro h ⟨name, hname, hword⟩
      exact h _ ((isWordRun_iff_hasWord hname).mpr hword) name hname rfl

/-- Neither a name within a longer word nor one beside another decides, but one beside a `$`
does. -/
example : blocked? "evaluate.importScript" = none ∧
    blocked? "globalThis_ + self import" = some .moduleLoading ∧
    blocked? "constructor.$eval" = some .codeExecution := by
  decide +kernel

end ScreenedExpr.Denylist
