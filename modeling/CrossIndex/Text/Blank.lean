import CrossIndex.Text.Ranges

/-!
Blank characters: the code points of the property White_Space, and the trimming of texts by them.
-/

namespace CrossIndex.Text

/-- The ranges of White_Space. -/
def blankRanges : List (Nat × Nat) := [
  (0x9, 0xD), (0x20, 0x20), (0x85, 0x85), (0xA0, 0xA0), (0x1680, 0x1680), (0x2000, 0x200A),
  (0x2028, 0x2029), (0x202F, 0x202F), (0x205F, 0x205F), (0x3000, 0x3000)
]

/-- A blank is a character of White_Space. -/
def isBlank (c : Char) : Bool := inRanges blankRanges c.toNat

/-- Drops the characters at the end that satisfy the test. -/
def dropEndWhile (p : Char → Bool) (text : List Char) : List Char :=
  (text.reverse.dropWhile p).reverse

def trim (text : List Char) : List Char :=
  dropEndWhile isBlank (text.dropWhile isBlank)

end CrossIndex.Text
