import CrossIndex.Path.Basic
import CrossIndex.Text.Utf8

/-!
How the names of files are written. A name is a list of bytes, which need be no text in UTF-8. A tree
keeps its names as texts, when all of them are, or byte by byte: then each character of a name stands for
the byte of its number. Slashes and dots are single bytes, so that paths are read alike in both ways.
-/

namespace CrossIndex

/-- A way to write names. -/
inductive Naming where
  /-- A name is the text that its bytes are in UTF-8. -/
  | texts
  /-- A name has a character for each of its bytes. -/
  | bytes
  deriving DecidableEq, Repr

namespace Naming

def byte? (c : Char) : Option UInt8 :=
  if c.toNat < UInt8.size then some (.ofNat c.toNat) else none

/-- The bytes of a name that is written byte by byte. -/
def bytes? (name : String) : Option (List UInt8) :=
  name.toList.mapM byte?

/-- The name of bytes, written byte by byte. -/
def ofBytes (bytes : List UInt8) : String :=
  .ofList (bytes.map fun byte => .ofNat byte.toNat)

/-- The name that is a text. -/
def ofText : Naming → (text : String) → String
  | texts, text => text
  | bytes, text => ofBytes (Text.encodeUtf8 text)

/-- The text that a name is, if its bytes are one. -/
def text? : Naming → (name : String) → Option String
  | texts, name => some name
  | bytes, name => (bytes? name).bind fun bytes => String.fromUTF8? bytes.toByteArray

/-- The name as it is shown: bytes that are no text are replaced. -/
def shown : Naming → (name : String) → String
  | texts, name => name
  | bytes, name => ((bytes? name).map Text.decodeUtf8Lossy).getD name

/-- The path that is meant by a path as it is shown. It is another one when a name on it is no text. -/
def asShown (naming : Naming) (path : Path) : Path :=
  ⟨path.segments.map fun segment => naming.ofText (naming.shown segment)⟩

end Naming

end CrossIndex
