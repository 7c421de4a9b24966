/-
**Characters without a visible form.**

The characters with the property Default_Ignorable_Code_Point: fillers, joiners, variation
selectors and the like, of which nothing is shown.

Main definitions:

* `Text.ignorableRanges` — the first and the last code point of each range, in ascending order;
* `Text.isIgnorable` — whether a character has the property.
-/

set_option relaxedAutoImplicit false
set_option autoImplicit false

namespace Vantage.Text

/-- The ranges of code points without a visible form. -/
def ignorableRanges : Array (Nat × Nat) := #[
    (0xad, 0xad), (0x34f, 0x34f), (0x61c, 0x61c), (0x115f, 0x1160), (0x17b4, 0x17b5),
    (0x180b, 0x180f), (0x200b, 0x200f), (0x202a, 0x202e), (0x2060, 0x206f), (0x3164, 0x3164),
    (0xfe00, 0xfe0f), (0xfeff, 0xfeff), (0xffa0, 0xffa0), (0xfff0, 0xfff8), (0x1bca0, 0x1bca3),
    (0x1d173, 0x1d17a), (0xe0000, 0xe0fff)]

/-- Whether a character has no visible form. -/
def isIgnorable (c : Char) : Bool :=
  ignorableRanges.any fun (first, last) => first ≤ c.toNat && c.toNat ≤ last

end Vantage.Text
