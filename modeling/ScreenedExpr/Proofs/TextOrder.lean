import ScreenedExpr.Value.Comparison

/-!
# The order of texts, character by character

Texts are ordered by their code units, but are written in characters. At the first place where
two texts differ, the characters there decide, and by their code points, with one exception:
the units of a supplementary character, one at or above `U+10000`, are surrogates, and these
precede the characters from `U+E000` to `U+FFFF`.

* `compareChars` — the order of two characters in a text;
* `compare_charUnits` — it is the order of their units, whatever comes after them;
* `ByCharacter` — the order of two texts by their characters;
* `Value.compare?_string` — it is the order of two strings.
-/

namespace ScreenedExpr

namespace Text

/-- A character that is written as a pair of surrogate units. -/
def IsSupplementary (c : Char) : Prop := 0x10000 ≤ c.toNat

/-- A character of one unit that is greater than all surrogates. -/
def IsAboveSurrogates (c : Char) : Prop := 0xE000 ≤ c.toNat ∧ c.toNat ≤ 0xFFFF

instance (c : Char) : Decidable (IsSupplementary c) := inferInstanceAs (Decidable (_ ≤ _))

instance (c : Char) : Decidable (IsAboveSurrogates c) := inferInstanceAs (Decidable (_ ∧ _))

/-- The order of two characters in a text: that of their code points, but a supplementary
character precedes the ones above the surrogates. -/
def compareChars (x y : Char) : Ordering :=
  if IsSupplementary x ∧ IsAboveSurrogates y then .lt
  else if IsAboveSurrogates x ∧ IsSupplementary y then .gt
  else compare x.toNat y.toNat

/-- **The order of two texts by their characters.** -/
inductive ByCharacter : List Char → List Char → Ordering → Prop where
  /-- a text is where it is -/
  | same (s : List Char) : ByCharacter s s .eq
  /-- a text precedes those that go on after it -/
  | shorter (s : List Char) (c : Char) (more : List Char) :
      ByCharacter s (s ++ c :: more) .lt
  /-- and is preceded by those that stop before its end -/
  | longer (s : List Char) (c : Char) (more : List Char) :
      ByCharacter (s ++ c :: more) s .gt
  /-- else the first characters that differ decide -/
  | differ (common : List Char) {x y : Char} (h : x ≠ y) (more more' : List Char) :
      ByCharacter (common ++ x :: more) (common ++ y :: more') (compareChars x y)

/-- Two texts are the same, or one goes on after the other, or there is a first difference. -/
theorem exists_byCharacter (s t : List Char) : ∃ o, ByCharacter s t o := by
  induction s generalizing t with
  | nil =>
    cases t with
    | nil => exact ⟨_, .same []⟩
    | cons d t => exact ⟨_, .shorter [] d t⟩
  | cons c s ih =>
    cases t with
    | nil => exact ⟨_, .longer [] c s⟩
    | cons d t =>
      by_cases h : c = d
      · subst h
        obtain ⟨o, ho⟩ := ih t
        cases ho with
        | same => exact ⟨_, .same _⟩
        | shorter _ d more => exact ⟨_, .shorter (c :: s) d more⟩
        | longer _ d more => exact ⟨_, .longer (c :: t) d more⟩
        | differ common h more more' => exact ⟨_, .differ (c :: common) h more more'⟩
      · exact ⟨_, .differ [] h s t⟩

/-! ## From characters to units -/

/-- A common beginning does not matter. -/
theorem compare_append_left (common us vs : List Nat) :
    compare (common ++ us) (common ++ vs) = compare us vs := by
  induction common with
  | nil => rfl
  | cons u common ih =>
    rw [List.cons_append, List.cons_append, List.compare_cons_cons, Std.ReflOrd.compare_self, ih]
    rfl

/-- The first unit decides if it differs. -/
theorem compare_cons_of_ne {u v : Nat} (h : u ≠ v) (us vs : List Nat) :
    compare (u :: us) (v :: vs) = compare u v := by
  rw [List.compare_cons_cons]
  cases ho : compare u v with
  | eq => exact absurd (Nat.compare_eq_eq.mp ho) h
  | lt | gt => rfl

/-- Numbers in the same order compare alike. -/
theorem compare_nat_congr {m n m' n' : Nat} (hlt : m < n ↔ m' < n') (hgt : n < m ↔ n' < m') :
    compare m n = compare m' n' := by
  cases ho : compare m' n' with
  | lt => exact Nat.compare_eq_lt.mpr (hlt.mpr (Nat.compare_eq_lt.mp ho))
  | gt => exact Nat.compare_eq_gt.mpr (hgt.mpr (Nat.compare_eq_gt.mp ho))
  | eq =>
    have := Nat.compare_eq_eq.mp ho
    exact Nat.compare_eq_eq.mpr (by omega)

/-- **Two characters are ordered as their units are**, whatever comes after them. -/
theorem compare_charUnits {x y : Char} (h : x ≠ y) (us vs : List Nat) :
    compare (charUnits x ++ us) (charUnits y ++ vs) = compareChars x y := by
  have hne : x.toNat ≠ y.toNat := fun heq => h (Char.toNat_inj.mp heq)
  have hx := toNat_range x
  have hy := toNat_range y
  unfold charUnits compareChars IsSupplementary IsAboveSurrogates
  by_cases hx' : x.toNat < 0x10000
  · rw [if_pos hx']
    by_cases hy' : y.toNat < 0x10000
    · -- one unit each
      rw [if_pos hy', if_neg (by omega), if_neg (by omega)]
      exact compare_cons_of_ne hne us vs
    · -- a unit against the high surrogate of a pair
      rw [if_neg hy', if_neg (by omega)]
      refine (compare_cons_of_ne (by omega) _ _).trans ?_
      split
      · exact Nat.compare_eq_gt.mpr (by omega)
      · exact compare_nat_congr (by omega) (by omega)
  · rw [if_neg hx']
    by_cases hy' : y.toNat < 0x10000
    · rw [if_pos hy']
      refine (compare_cons_of_ne (by omega) _ _).trans ?_
      split
      · exact Nat.compare_eq_lt.mpr (by omega)
      · rw [if_neg (by omega)]
        exact compare_nat_congr (by omega) (by omega)
    · -- two pairs: the high surrogates decide, and the low ones if these are the same
      rw [if_neg hy', if_neg (by omega), if_neg (by omega)]
      by_cases hhigh : (x.toNat - 0x10000) / 0x400 = (y.toNat - 0x10000) / 0x400
      · rw [hhigh]
        refine (compare_append_left [_] (_ :: us) (_ :: vs)).trans ?_
        rw [compare_cons_of_ne (by omega)]
        exact compare_nat_congr (by omega) (by omega)
      · refine (compare_cons_of_ne (by omega) _ _).trans ?_
        exact compare_nat_congr (by omega) (by omega)

/-- **The order by characters is the order by units.** -/
theorem ByCharacter.compare_eq {s t : List Char} {o : Ordering} (h : ByCharacter s t o) :
    compare (s.flatMap charUnits) (t.flatMap charUnits) = o := by
  have hcons (c : Char) (more : List Char) :
      ∃ u us, (c :: more).flatMap charUnits = u :: us := by
    refine List.exists_cons_of_ne_nil ?_
    rw [List.flatMap_cons]
    exact List.append_ne_nil_of_left_ne_nil (charUnits_ne_nil c) _
  cases h with
  | same => exact Std.ReflOrd.compare_self
  | shorter _ c more =>
    obtain ⟨u, us, hunits⟩ := hcons c more
    have h := compare_append_left (s.flatMap charUnits) [] (u :: us)
    rw [List.append_nil] at h
    rw [List.flatMap_append, hunits, h, List.compare_nil_cons]
  | longer _ c more =>
    obtain ⟨u, us, hunits⟩ := hcons c more
    have h := compare_append_left (t.flatMap charUnits) (u :: us) []
    rw [List.append_nil] at h
    rw [List.flatMap_append, hunits, h, List.compare_cons_nil]
  | differ common hne more more' =>
    rw [List.flatMap_append, List.flatMap_append, compare_append_left, List.flatMap_cons,
      List.flatMap_cons, compare_charUnits hne]

end Text

namespace Value

/-- **Strings are ordered by their characters.** They share a place only if they are the same; a
string precedes those that go on after it; and otherwise the first characters that differ decide,
by their code points, unless one is supplementary and the other above the surrogates. -/
theorem compare?_string (s t : String) :
    ((string s).compare? (string t) = some .eq ↔ s = t) ∧
      ∀ o, (string s).compare? (string t) = some o ↔ Text.ByCharacter s.toList t.toList o := by
  rw [compare?_of_isTextual rfl rfl, toText_string, toText_string]
  refine ⟨?_, ?_⟩
  · rw [Option.some.injEq, Std.compare_eq_iff_eq, Text.units_inj]
  · intro o
    refine ⟨?_, fun h => congrArg some h.compare_eq⟩
    intro h
    obtain ⟨o', ho'⟩ := Text.exists_byCharacter s.toList t.toList
    obtain rfl : o' = o := ho'.compare_eq.symm.trans (Option.some.inj h)
    exact ho'

/-- The last characters of one unit come after all others, and two that share a high surrogate
are told apart by the low one. -/
example : (string "a\uFFFDb").compare? (string "a😀") = some .gt ∧
    (string "😀b").compare? (string "😁a") = some .lt := by
  decide +kernel

end Value

end ScreenedExpr
