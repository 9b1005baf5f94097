import CrossIndex.Fact
import CrossIndex.FileTree
import CrossIndex.Text.Column
import CrossIndex.Text.Lines
import CrossIndex.Url.Reader

/-!
Open documents, and columns as clients count them. The text of an open document goes before the
file; a column counts characters, or the units of UTF-16.
-/

namespace CrossIndex

/-- The texts of the open documents. -/
structure Documents where
  texts : List (Url × String)
  deriving Repr, Inhabited

namespace Documents

def empty : Documents := ⟨[]⟩

def get? (documents : Documents) (url : Url) : Option String :=
  (documents.texts.find? (·.1 = url)).map Prod.snd

def close (documents : Documents) (url : Url) : Documents :=
  ⟨documents.texts.filter (·.1 ≠ url)⟩

def store (documents : Documents) (url : Url) (text : String) : Documents :=
  ⟨(url, text) :: (documents.close url).texts⟩

/-- The text behind a URL: that of the open document, or else of the file. -/
def text? (documents : Documents) (tree : FileTree) (url : Url) (path : Path) : Option String :=
  (documents.get? url).or (tree.readText? path)

/-- The text behind a path: that of the document open under the URL of the path, or else of the
file. -/
def textOfPath? (documents : Documents) (tree : FileTree) (path : Path) : Option String :=
  ((Url.ofPath? path).bind documents.get?).or (tree.readText? path)

end Documents

/-- How a client counts columns. -/
inductive Encoding where
  | utf16
  | utf32
  deriving DecidableEq, Repr

namespace Encoding

def name : Encoding → String
  | utf16 => "utf-16"
  | utf32 => "utf-32"

/-- The encoding for a client that can take the given ones: by characters if it can. -/
def choose (names : List String) : Encoding :=
  if names.contains utf32.name then utf32 else utf16

/-- The position of a client by characters. On a line that is not there it stays as it is. -/
def decode (encoding : Encoding) (lines : List String) (p : Position) : Position :=
  match encoding with
  | utf32 => p
  | utf16 => { p with column := (lines[p.line]?.map (Text.columnOfUnits · p.column)).getD p.column }

def encode (encoding : Encoding) (lines : List String) (p : Position) : Position :=
  match encoding with
  | utf32 => p
  | utf16 => { p with column := (lines[p.line]?.map (Text.unitsOfColumn · p.column)).getD p.column }

/-- The location for a client, by the text at its path. Where there is no text it stays as it is. -/
def encodeLocation (encoding : Encoding) (text? : Option String) (l : Location) : Location :=
  match text? with
  | none => l
  | some text =>
    let encode := encoding.encode (Text.lines text)
    { l with range := ⟨encode l.range.start, encode l.range.stop⟩ }

/-- Encodes locations one after the other. The text at a path is looked up once, and is kept for all
later locations at that path. -/
def encodeInOrder (encoding : Encoding) (documents : Documents) (tree : FileTree)
    (texts : SortedTable Path (Option String)) : List Location → List Location
  | [] => []
  | l :: rest =>
    let text? := (texts.get? l.path).getD (documents.textOfPath? tree l.path)
    encoding.encodeLocation text? l ::
      encodeInOrder encoding documents tree (texts.insert l.path text?) rest

/-- Locations for a client. By characters they stay as they are. -/
def encodeLocations (encoding : Encoding) (documents : Documents) (tree : FileTree)
    (locations : List Location) : List Location :=
  match encoding with
  | utf32 => locations
  | utf16 => utf16.encodeInOrder documents tree .empty locations

end Encoding

end CrossIndex
