import VectorHeap.Text.Combining
import VectorHeap.Text.Unassigned

/-! Characters that are not shown as themselves in quoted text: those without a glyph, those that
would merge with the character before them, and code points without a character. -/
namespace VectorHeap.Text

/-- Ranges of controls, separators other than the space, format characters, private use, and the
letters that only fill a place. -/
def blank : List (Nat × Nat) :=
  [(0x0, 0x1F), (0x7F, 0xA0), (0xAD, 0xAD), (0x600, 0x605), (0x61C, 0x61C), (0x6DD, 0x6DD),
   (0x70F, 0x70F), (0x890, 0x891), (0x8E2, 0x8E2), (0x115F, 0x1160), (0x1680, 0x1680),
   (0x180E, 0x180E), (0x2000, 0x200B), (0x200D, 0x200F), (0x2028, 0x202F), (0x205F, 0x2064),
   (0x2066, 0x206F), (0x3000, 0x3000), (0x3164, 0x3164), (0xE000, 0xF8FF), (0xFEFF, 0xFEFF),
   (0xFFA0, 0xFFA0), (0xFFF9, 0xFFFB), (0x110BD, 0x110BD), (0x110CD, 0x110CD), (0x13430, 0x1343F),
   (0x1BCA0, 0x1BCA3), (0x1D173, 0x1D17A), (0xE0001, 0xE0001), (0xF0000, 0xFFFFD),
   (0x100000, 0x10FFFD)]

def inRanges (ranges : List (Nat × Nat)) (n : Nat) : Bool :=
  ranges.any (fun r => r.1 ≤ n && n ≤ r.2)

/-- Printable ASCII is decided without the tables. -/
def isVisible (c : Char) : Bool :=
  if 0x20 ≤ c.toNat ∧ c.toNat < 0x7F then true
  else !(inRanges blank c.toNat || inRanges combining c.toNat || inRanges unassigned c.toNat)

end VectorHeap.Text
