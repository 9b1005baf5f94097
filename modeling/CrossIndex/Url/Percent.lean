import CrossIndex.Text.Hex
import CrossIndex.Text.Utf8

/-!
Percent-encoding: a byte is written as a percent sign and two hexadecimal digits.
-/

namespace CrossIndex.Percent

def hexDigit (n : Nat) : Char := Char.ofNat (if n < 10 then 48 + n else 55 + n)

/-- A byte behind a percent sign. -/
def encodeByte (byte : UInt8) : List Char :=
  ['%', hexDigit (byte.toNat / 16), hexDigit (byte.toNat % 16)]

/-- A character, which is kept as it is or encoded byte by byte. -/
def encodeChar (keeps : Char → Bool) (c : Char) : List Char :=
  if keeps c then [c] else (String.utf8EncodeChar c).flatMap encodeByte

/-- A text with all characters encoded but those that are kept. -/
def encode (keeps : Char → Bool) (text : List Char) : List Char :=
  text.flatMap (encodeChar keeps)

/-- The bytes of a text. A percent sign without two digits after it stands for itself. -/
def decode : List Char → List UInt8
  | '%' :: a :: b :: rest =>
    match Text.hexNumber? [a, b] with
    | some value => .ofNat value :: decode rest
    | none => String.utf8EncodeChar '%' ++ decode (a :: b :: rest)
  | c :: rest => String.utf8EncodeChar c ++ decode rest
  | [] => []

/-- A printed ASCII character that is none of the given ones. Blanks and control characters are not
printed. -/
def isPlain (others : String) (c : Char) : Bool :=
  0x20 < c.toNat && c.toNat < 0x7F && !others.toList.contains c

end CrossIndex.Percent
