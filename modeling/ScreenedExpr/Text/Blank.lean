/-!
# Blank characters

The characters that separate tokens and that are trimmed from the ends of a text:
exactly those with the Unicode property `White_Space`. The property has 25 members in
ten ranges; the ASCII ones are the tab, the three line breaks, the form feed and the
space.

* `isBlank` — membership in the table;
* `trim` — a text without the blank characters at its two ends.
-/

namespace ScreenedExpr.Text

/-- The code points with the property `White_Space`, as inclusive ranges in order. -/
def blankRanges : List (Nat × Nat) :=
  [(0x0009, 0x000D), (0x0020, 0x0020), (0x0085, 0x0085), (0x00A0, 0x00A0),
   (0x1680, 0x1680), (0x2000, 0x200A), (0x2028, 0x2029), (0x202F, 0x202F),
   (0x205F, 0x205F), (0x3000, 0x3000)]

/-- A character is blank when its code point lies in one of the ranges. -/
def isBlank (c : Char) : Bool :=
  blankRanges.any fun range => range.1 ≤ c.toNat && c.toNat ≤ range.2

/-- The text without the blank characters at its two ends. -/
def trim (text : List Char) : List Char :=
  ((text.dropWhile isBlank).reverse.dropWhile isBlank).reverse

end ScreenedExpr.Text
