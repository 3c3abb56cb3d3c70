import WeightedTransducer.Text.Combining
import WeightedTransducer.Text.Unassigned

/-!
# Characters that show nothing of their own

Controls, format characters, separators other than the space, private characters, unassigned code
points, marks that attach to the character before them, and characters that are ignored in display,
such as the Hangul fillers.  `isUnprintable` asks whether a character is one of these.
-/

namespace WeightedTransducer.Text

/-- The ranges of controls, format characters, separators and private characters, in ascending
order; the space is left out. -/
def invisibleRanges : List (Nat × Nat) :=
  [(0x0, 0x1f), (0x7f, 0xa0), (0xad, 0xad), (0x600, 0x605), (0x61c, 0x61c), (0x6dd, 0x6dd),
    (0x70f, 0x70f), (0x890, 0x891), (0x8e2, 0x8e2), (0x1680, 0x1680), (0x180e, 0x180e),
    (0x2000, 0x200f), (0x2028, 0x202f), (0x205f, 0x2064), (0x2066, 0x206f), (0x3000, 0x3000),
    (0xe000, 0xf8ff), (0xfeff, 0xfeff), (0xfff9, 0xfffb), (0x110bd, 0x110bd), (0x110cd, 0x110cd),
    (0x13430, 0x1343f), (0x1bca0, 0x1bca3), (0x1d173, 0x1d17a), (0xe0001, 0xe0001),
    (0xe0020, 0xe007f), (0xf0000, 0xffffd), (0x100000, 0x10fffd)]

/-- The ranges of characters that are ignored in display, the property
Default_Ignorable_Code_Point, in ascending order. -/
def ignorableRanges : List (Nat × Nat) :=
  [(0xad, 0xad), (0x34f, 0x34f), (0x61c, 0x61c), (0x115f, 0x1160), (0x17b4, 0x17b5),
    (0x180b, 0x180f), (0x200b, 0x200f), (0x202a, 0x202e), (0x2060, 0x206f), (0x3164, 0x3164),
    (0xfe00, 0xfe0f), (0xfeff, 0xfeff), (0xffa0, 0xffa0), (0xfff0, 0xfff8), (0x1bca0, 0x1bca3),
    (0x1d173, 0x1d17a), (0xe0000, 0xe0fff)]

/-- Whether a code point lies in one of the ranges. -/
def inRanges (ranges : List (Nat × Nat)) (code : Nat) : Bool :=
  ranges.any fun (first, last) => first ≤ code && code ≤ last

/-- Whether a character shows nothing of its own. -/
def isUnprintable (c : Char) : Bool :=
  if ' ' ≤ c && c ≤ '~' then false
  else
    [invisibleRanges, ignorableRanges, combiningRanges, unassignedRanges].any fun ranges =>
      inRanges ranges c.toNat

end WeightedTransducer.Text
