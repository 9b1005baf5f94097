/-!
Decimals as they are written: digits around a point, and a power of ten.
-/

namespace CrossIndex.Text

/-- The value of a list of decimal digits. -/
def digitsValue (digits : List Char) : Nat :=
  digits.foldl (fun value digit => value * 10 + (digit.toNat - 48)) 0

/-- A decimal without its sign. -/
structure Decimal where
  whole : List Char
  fraction : List Char
  exponent : Int
  deriving DecidableEq, Repr

/-- The least number that rounds to no finite double: `2 ^ 1024` less half of the last unit of the
largest double. -/
def doubleLimit : Nat := Nat.pow 2 1024 - Nat.pow 2 970

/-- The decimal is too large for a double. -/
def Decimal.overflows (d : Decimal) : Bool :=
  let digits := digitsValue (d.whole ++ d.fraction)
  let scale := d.exponent - d.fraction.length
  if digits = 0 then false
  else if scale ≥ 0 then scale > 400 || digits * Nat.pow 10 scale.toNat ≥ doubleLimit
  else if d.whole.length + d.exponent < 300 then false
  else digits ≥ doubleLimit * Nat.pow 10 (-scale).toNat

end CrossIndex.Text
