import CrossIndex.Text.Decimal

/-!
JSON values. A number is kept as its parts, since what a reader accepts depends on how the number is
written.
-/

namespace CrossIndex

/-- A number as it is written: its sign, its digits before the point, and the digits after the point
and the exponent where there are any. -/
structure JsonNumber where
  negative : Bool
  whole : List Char
  fraction? : Option (List Char)
  exponent? : Option (Bool × List Char)
  deriving DecidableEq, Repr, Inhabited

/-- A JSON value. The members of an object keep their order. -/
inductive Json where
  | null
  | bool (value : Bool)
  | number (value : JsonNumber)
  | string (value : String)
  | array (items : List Json)
  | object (members : List (String × Json))
  deriving Inhabited

namespace JsonNumber

def ofNat (n : Nat) : JsonNumber := ⟨false, Nat.toDigits 10 n, none, none⟩

/-- The natural number that is written as a whole number without a sign. -/
def toNat? (n : JsonNumber) : Option Nat :=
  match n with
  | ⟨false, whole, none, none⟩ => some (Text.digitsValue whole)
  | _ => none

/-- The exponent of a number, zero when none is written. -/
def exponent (n : JsonNumber) : Int :=
  match n.exponent? with
  | none => 0
  | some (true, digits) => - (Text.digitsValue digits : Int)
  | some (false, digits) => Text.digitsValue digits

/-- The number is too large for a double. -/
def overflows (n : JsonNumber) : Bool :=
  Text.Decimal.overflows ⟨n.whole, n.fraction?.getD [], n.exponent⟩

end JsonNumber

end CrossIndex
