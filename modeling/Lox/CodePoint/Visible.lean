import Lox.CodePoint.Mark
import Lox.CodePoint.Unassigned

/-!
# Visible characters

A character is visible if it shows as itself wherever it stands. Those that do not are the control
and layout characters, the blanks but for the common one, the letters that only fill room, the marks
that are shown on another character, and the code points without a common meaning.

Main statement: `isVisible_of_ascii` (the characters from the blank to the tilde are visible).
-/

namespace Lox

namespace CodePoints

/-- The control characters. -/
def control : CodePoints where
  ranges :=
    [(0x0, 0x1f), (0x7f, 0x9f)]

/-- The blanks and the marks for the ends of lines and paragraphs, without the common blank. -/
def separator : CodePoints where
  ranges :=
    [(0xa0, 0xa0), (0x1680, 0x1680), (0x2000, 0x200a), (0x2028, 0x2029), (0x202f, 0x202f),
      (0x205f, 0x205f), (0x3000, 0x3000)]

/-- The characters that only change how others are laid out. -/
def format : CodePoints where
  ranges :=
    [(0xad, 0xad), (0x600, 0x605), (0x61c, 0x61c), (0x6dd, 0x6dd), (0x70f, 0x70f), (0x890, 0x891),
      (0x8e2, 0x8e2), (0x180e, 0x180e), (0x200b, 0x200f), (0x202a, 0x202e), (0x2060, 0x2064),
      (0x2066, 0x206f), (0xfeff, 0xfeff), (0xfff9, 0xfffb), (0x110bd, 0x110bd), (0x110cd, 0x110cd),
      (0x13430, 0x1343f), (0x1bca0, 0x1bca3), (0x1d173, 0x1d17a), (0xe0001, 0xe0001),
      (0xe0020, 0xe007f)]

/-- The code points that have no common meaning. -/
def privateUse : CodePoints where
  ranges :=
    [(0xe000, 0xf8ff), (0xf0000, 0xffffd), (0x100000, 0x10fffd)]

/-- The letters that are shown as nothing. -/
def filler : CodePoints where
  ranges :=
    [(0x115f, 0x1160), (0x3164, 0x3164), (0xffa0, 0xffa0)]

/-- The sets of the characters that are not visible. -/
def invisible : List CodePoints :=
  [control, separator, format, privateUse, filler, mark, unassigned]

end CodePoints

/-- Does the character show as itself wherever it stands? -/
def isVisible (c : Char) : Bool :=
  CodePoints.invisible.all fun s => !s.contains c

/-- The characters from the blank to the tilde are visible. -/
theorem isVisible_of_ascii {c : Char} (h₁ : 0x20 ≤ c.toNat) (h₂ : c.toNat < 0x7f) :
    isVisible c = true := by
  refine List.all_eq_true.mpr fun s hs => ?_
  rcases List.mem_cons.mp hs with rfl | hs
  · -- the control characters are before the blank and behind the tilde
    simp only [CodePoints.contains, CodePoints.control, List.any_cons, List.any_nil, Bool.or_false,
      Bool.not_eq_true', Bool.or_eq_false_iff, Bool.and_eq_false_iff, decide_eq_false_iff_not]
    omega
  · -- all other sets start behind the tilde
    have behind : ∀ s ∈ CodePoints.invisible.tail, ∀ r ∈ s.ranges.head?, 0x7f ≤ r.1 := by
      decide
    rw [CodePoints.contains_eq_false_of_lt fun r hr => Nat.lt_of_lt_of_le h₂ (behind s hs r hr)]
    rfl

end Lox
