/-!
# Code units of 16 bits

Texts are measured, indexed and ordered by their 16-bit code units: a character below
`0x10000` is one unit, any other is a pair of surrogate units. A unit taken out of a text
on its own is shown as a text again, half of a surrogate pair as the replacement
character.

* `units` — the code units of a text;
* `ofUnit` — the text of a single unit;
* `units_append` — units are taken character by character, so they concatenate;
* `units_inj` — different texts have different units.
-/

namespace ScreenedExpr.Text

/-- The code units of one character: itself, or its high and low surrogate. -/
def charUnits (c : Char) : List Nat :=
  if c.toNat < 0x10000 then [c.toNat]
  else [0xD800 + (c.toNat - 0x10000) / 0x400, 0xDC00 + (c.toNat - 0x10000) % 0x400]

/-- The code units of a text, in order. -/
def units (text : String) : List Nat := text.toList.flatMap charUnits

/-- The text of one unit; a surrogate has no character of its own and becomes `U+FFFD`. -/
def ofUnit (unit : Nat) : String :=
  if 0xD800 ≤ unit ∧ unit ≤ 0xDFFF then String.singleton '\uFFFD'
  else String.singleton (Char.ofNat unit)

@[simp] theorem units_append (s t : String) : units (s ++ t) = units s ++ units t := by
  simp [units]

/-- No character is without units. -/
theorem charUnits_ne_nil (c : Char) : charUnits c ≠ [] := by
  unfold charUnits
  split <;> exact List.cons_ne_nil _ _

/-! ## Telling texts apart -/

/-- No character is a surrogate. -/
theorem toNat_range (c : Char) :
    c.toNat < 0xD800 ∨ 0xDFFF < c.toNat ∧ c.toNat < 0x110000 := c.valid

/-- The units that a text starts with tell its first character: the two units of a pair are
surrogates, and together they are the code point. -/
theorem charUnits_append_inj {c d : Char} {us vs : List Nat}
    (h : charUnits c ++ us = charUnits d ++ vs) : c = d ∧ us = vs := by
  have hc := toNat_range c
  have hd := toNat_range d
  unfold charUnits at h
  rw [← Char.toNat_inj]
  split at h <;> split at h <;>
    simp only [List.cons_append, List.nil_append, List.cons.injEq] at h
  · exact h
  · omega
  · omega
  · obtain ⟨hhigh, hlow, hrest⟩ := h
    exact ⟨by omega, hrest⟩

/-- **Texts are known by their units.** -/
theorem units_inj {s t : String} : units s = units t ↔ s = t := by
  refine ⟨fun h => ?_, congrArg units⟩
  unfold units at h
  rw [← String.toList_inj]
  generalize s.toList = cs at h
  generalize t.toList = ds at h
  induction cs generalizing ds with
  | nil =>
    cases ds with
    | nil => rfl
    | cons d ds => exact absurd (List.append_eq_nil_iff.mp h.symm).1 (charUnits_ne_nil d)
  | cons c cs ih =>
    cases ds with
    | nil => exact absurd (List.append_eq_nil_iff.mp h).1 (charUnits_ne_nil c)
    | cons d ds =>
      rw [List.flatMap_cons, List.flatMap_cons] at h
      obtain ⟨rfl, hrest⟩ := charUnits_append_inj h
      rw [ih ds hrest]

end ScreenedExpr.Text
