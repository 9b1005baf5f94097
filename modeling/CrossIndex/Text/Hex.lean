/-!
Hexadecimal digits, and the characters whose code points they give.
-/

namespace CrossIndex.Text

/-- The value of a hexadecimal digit. -/
def hexValue? (c : Char) : Option Nat :=
  if c.isDigit then some (c.toNat - 48)
  else if 'a' ≤ c ∧ c ≤ 'f' then some (c.toNat - 87)
  else if 'A' ≤ c ∧ c ≤ 'F' then some (c.toNat - 55)
  else none

/-- The value of a list of hexadecimal digits. -/
def hexNumber? (digits : List Char) : Option Nat := do
  let values ← digits.mapM hexValue?
  return values.foldl (fun number value => number * 16 + value) 0

/-- The character of a code point in hexadecimal digits. Surrogates are no characters. -/
def charOfHex? (digits : List Char) : Option Char := do
  let code ← hexNumber? digits
  if code.isValidChar then some (.ofNat code) else none

end CrossIndex.Text
