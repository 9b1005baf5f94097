/-!
Columns of a line. A column counts characters; a byte offset counts the bytes of the UTF-8 form, and
a unit column the code units of the UTF-16 form.
-/

namespace CrossIndex.Text

/-- The number of bytes of a list of characters in UTF-8. -/
def byteLength : List Char → Nat
  | [] => 0
  | c :: rest => c.utf8Size + byteLength rest

/-- The number of characters that end at or before a byte offset. -/
def charsBefore : List Char → Nat → Nat
  | [], _ => 0
  | c :: rest, offset =>
    if c.utf8Size ≤ offset then charsBefore rest (offset - c.utf8Size) + 1 else 0

/-- The column of a byte offset. An offset inside a character counts as its start, and one past the
end as the end. -/
def charColumn (line : String) (offset : Nat) : Nat :=
  charsBefore line.toList offset

/-- The byte offset of a column. A column past the end counts as the end. -/
def byteOffset (line : String) (column : Nat) : Nat :=
  byteLength (line.toList.take column)

/-- The number of UTF-16 code units of a character: two beyond the basic plane. -/
def unitSize (c : Char) : Nat :=
  if c.toNat < 0x10000 then 1 else 2

/-- The number of UTF-16 code units of a list of characters. -/
def unitLength : List Char → Nat
  | [] => 0
  | c :: rest => unitSize c + unitLength rest

/-- The number of characters to pass until at least the given number of units is passed. -/
def charsToUnits : List Char → Nat → Nat
  | [], _ => 0
  | c :: rest, units => if units = 0 then 0 else charsToUnits rest (units - unitSize c) + 1

/-- The column of a unit column. A unit column inside a character counts as its end. -/
def columnOfUnits (line : String) (units : Nat) : Nat :=
  charsToUnits line.toList units

/-- The unit column of a column. A column past the end counts as the end. -/
def unitsOfColumn (line : String) (column : Nat) : Nat :=
  unitLength (line.toList.take column)

end CrossIndex.Text
