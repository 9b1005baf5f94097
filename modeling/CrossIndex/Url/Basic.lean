import CrossIndex.Path.Basic
import CrossIndex.Url.Percent

/-!
URLs of files. Two URLs are the same when they are written the same, so that one file can have
several URLs: the encoding of a character that needs none makes a difference.
-/

namespace CrossIndex

/-- A URL with the scheme `file`. Its path has at least one segment; the segments are encoded. -/
structure FileUrl where
  host : String
  segments : List String
  query? : Option String
  fragment? : Option String
  deriving DecidableEq, Repr, Inhabited

/-- A URL. Those of other schemes denote no files and are kept as they are written. -/
inductive Url where
  | file (url : FileUrl)
  | other (text : String)
  deriving DecidableEq, Repr, Inhabited

namespace FileUrl

def toString (url : FileUrl) : String :=
  "file://" ++ url.host ++ "/" ++ "/".intercalate url.segments
    ++ ((url.query?.map ("?" ++ ·)).getD "") ++ ((url.fragment?.map ("#" ++ ·)).getD "")

/-- The bytes of the path that a URL denotes. -/
def pathBytes (url : FileUrl) : List UInt8 :=
  url.segments.flatMap fun segment => Text.encodeUtf8 "/" ++ Percent.decode segment.toList

/-- The text ends like the letter of a drive, of which the colon needs a slash after it. -/
def endsWithDrive (text : List Char) : Bool :=
  match text.reverse with
  | mark :: letter :: _ => (mark == ':' || mark == '|') && letter.isAlpha
  | _ => false

/-- The path that a URL denotes. On another host there is none. -/
def toPath? (url : FileUrl) : Option Path :=
  if url.host = "" then
    let text := Text.decodeUtf8Lossy url.pathBytes
    some (.ofString (if endsWithDrive text.toList then text ++ "/" else text))
  else none

/-- A character that stands as it is in a segment written for a path. -/
def keepsInPath : Char → Bool := Percent.isPlain "\x22#<>?\x60\x7b\x7d%\\/"

/-- The URL of an absolute path. -/
def ofPath? (path : Path) : Option FileUrl :=
  if path.isAbsolute then
    let segments := path.components.tail.map fun component =>
      String.ofList (Percent.encode keepsInPath component.text.toList)
    some ⟨"", if segments = [] then [""] else segments, none, none⟩
  else none

end FileUrl

namespace Url

def toString : Url → String
  | file url => url.toString
  | other text => text

def toPath? : Url → Option Path
  | file url => url.toPath?
  | other _ => none

def ofPath? (path : Path) : Option Url := (FileUrl.ofPath? path).map file

end Url

end CrossIndex
