/-!
# Characters that leave no mark of their own

A diagnostic has to show every character of a name, also those that a reader cannot see on the
page: controls, formatting marks, blanks other than the space, private and unassignable code
points, and the marks that combine with the character before them.

The standard debug form also gives by its code point whatever the character tables leave unassigned
and every mark that extends a grapheme, in all scripts. The list here is a part of that. It has all
controls, blanks, formatting marks, private code points and those that never are characters, and of
the combining marks those of no particular script with a few others. Left out are the other marks
of single scripts (U+0591 is the first) and the unassigned code points between assigned ones (U+0378
is the first), which differ from one version of the tables to the next. They are shown as they are.

* `invisibleRanges` lists them as intervals of code points.
* `isInvisible` tests a character against the list.
* `isInvisible_of_lt_space` says that the list misses no control character below the space.
-/

namespace StraightLine.Text

/-! ## The table -/

/-- Closed intervals of code points, in increasing order, by class: controls and blanks, formatting
marks, combining marks and variation selectors, private use, and code points that are no characters.
-/
def invisibleRanges : List (Nat × Nat) :=
  [(0x0000, 0x001F), (0x007F, 0x00A0), (0x00AD, 0x00AD), (0x0300, 0x036F), (0x0483, 0x0489),
   (0x0600, 0x0605), (0x061C, 0x061C), (0x06DD, 0x06DD), (0x070F, 0x070F), (0x0890, 0x0891),
   (0x08E2, 0x08E2), (0x1680, 0x1680), (0x180B, 0x180F), (0x1AB0, 0x1ACE), (0x1DC0, 0x1DFF),
   (0x2000, 0x200F), (0x2028, 0x202F), (0x205F, 0x206F), (0x20D0, 0x20F0), (0x3000, 0x3000),
   (0x302A, 0x302F), (0x3099, 0x309A), (0xE000, 0xF8FF), (0xFDD0, 0xFDEF), (0xFE00, 0xFE0F),
   (0xFE20, 0xFE2F), (0xFEFF, 0xFEFF), (0xFFF9, 0xFFFB), (0xFFFE, 0xFFFF), (0x110BD, 0x110BD),
   (0x110CD, 0x110CD), (0x13430, 0x1343F), (0x1BCA0, 0x1BCA3), (0x1D173, 0x1D17A),
   (0x1FFFE, 0x1FFFF), (0x2FFFE, 0x2FFFF), (0x3FFFE, 0x10FFFF)]

/-- Whether a character lies in one of the intervals. -/
def isInvisible (c : Char) : Bool :=
  invisibleRanges.any fun (first, last) => first ≤ c.toNat && c.toNat ≤ last

/-! ## What the table holds -/

theorem isInvisible_of_lt_space {c : Char} (h : c.toNat < 32) : isInvisible c = true := by
  simp only [isInvisible, List.any_eq_true]
  exact ⟨(0x0000, 0x001F), by simp [invisibleRanges], by simp; omega⟩

end StraightLine.Text
