import Salvage.Text.Ranges

/-! # Blanks

A blank is a character with the Unicode property White_Space. Blanks are what a
pattern skips between words and what trimming removes at both ends of a text.
-/

namespace Salvage.Text

/-- The 25 code points of White_Space. -/
def blankRanges : List (Nat × Nat) :=
  [(0x09, 0x0D), (0x20, 0x20), (0x85, 0x85), (0xA0, 0xA0), (0x1680, 0x1680),
   (0x2000, 0x200A), (0x2028, 0x2029), (0x202F, 0x202F), (0x205F, 0x205F), (0x3000, 0x3000)]

def isBlank (c : Char) : Bool := inRanges blankRanges c

def skipBlanks (s : List Char) : List Char := s.dropWhile isBlank

/-- Removes the blanks at both ends. -/
def trim (s : List Char) : List Char :=
  skipBlanks (s.reverse.dropWhile isBlank).reverse

theorem skipBlanks_length_le (s : List Char) : (skipBlanks s).length ≤ s.length :=
  (List.dropWhile_sublist isBlank).length_le

end Salvage.Text
