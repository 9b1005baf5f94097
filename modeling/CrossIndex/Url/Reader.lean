import CrossIndex.Text.Blank
import CrossIndex.Text.Split
import CrossIndex.Url.Basic

/-!
Reading URLs. Of a file URL the path is brought into one form: backslashes count as slashes, dot
segments are folded away, and what may not stand in a path is encoded. Of other URLs it is only seen
whether they are well formed.
-/

namespace CrossIndex.Url

/-- The text without blanks and control characters at its ends, and without tabs and line ends
inside. -/
def cleaned (text : List Char) : List Char :=
  let isEnd := fun c : Char => c.toNat ≤ 0x20
  (Text.dropEndWhile isEnd (text.dropWhile isEnd)).filter fun c =>
    c != '\t' && c != '\n' && c != '\r'

/-- The scheme of a URL in lower case, and what follows its colon. -/
def scheme? (text : List Char) : Option (List Char × List Char) :=
  let isInside := fun c : Char => c.isAlphanum || c == '+' || c == '-' || c == '.'
  match text.takeWhile isInside, text.dropWhile isInside with
  | first :: more, ':' :: rest =>
    if first.isAlpha then some ((first :: more).map Char.toLower, rest) else none
  | _, _ => none

/-- Both slashes separate segments. -/
def isSlash (c : Char) : Bool := c == '/' || c == '\\'

def endsHost (c : Char) : Bool := isSlash c || c == '?' || c == '#'

/-- The segment is a letter and the mark of a drive. -/
def isDrive (segment : List Char) : Bool :=
  match segment with
  | [letter, mark] => letter.isAlpha && (mark == ':' || mark == '|')
  | _ => false

/-- The character may not stand in the name of a host. -/
def isForbidden (c : Char) : Bool :=
  c.toNat ≤ 0x20 || c.toNat == 0x7F || "#/:<>?@[\\]^|%".toList.contains c

/-- A host in brackets holds hexadecimal digits, colons and dots. -/
def isAddress (text : List Char) : Bool :=
  match text.reverse with
  | ']' :: inside =>
    match inside.reverse with
    | '[' :: inside =>
      inside.contains ':' && inside.all fun c => (Text.hexValue? c).isSome || c == ':' || c == '.'
    | _ => false
  | _ => false

/-- The name of a host, which must not be empty. -/
def hostName? (text : List Char) : Option (List Char) :=
  if text.head? = some '[' then if isAddress text then some text else none
  else
    let name := (Text.decodeUtf8Lossy (Percent.decode text)).toList.map Char.toLower
    if name = [] ∨ name.any isForbidden then none else some name

/-- The host of a file URL. The local one is written without a name. -/
def fileHost? (text : List Char) : Option (List Char) :=
  if text = [] then some []
  else do
    let name ← hostName? text
    return if name = "localhost".toList then [] else name

/-- Splits at both slashes. -/
def splitPath (path : List Char) : List (List Char) :=
  Text.splitOn '/' (path.map fun c => if isSlash c then '/' else c)

/-- The segment with a percent-encoded dot written as a dot. -/
def plainDots : List Char → List Char
  | '%' :: '2' :: e :: rest =>
    if e = 'e' ∨ e = 'E' then '.' :: plainDots rest else '%' :: '2' :: e :: plainDots rest
  | c :: rest => c :: plainDots rest
  | [] => []

/-- One segment after others, which come in reverse. The first one may be a drive, whose mark is
written as a colon; `..` removes a segment, but never a drive. -/
def pushSegment (done : List (List Char)) (segment : List Char) : List (List Char) :=
  if plainDots segment = ['.'] then done
  else if plainDots segment = ['.', '.'] then
    match done with
    | last :: before => if isDrive last then done else before
    | [] => []
  else if done = [] ∧ isDrive segment then [segment.take 1 ++ [':']]
  else segment :: done

/-- The segment leaves nothing behind it but a slash. -/
def isDots (segment : List Char) : Bool :=
  plainDots segment == ['.'] || plainDots segment == ['.', '.']

/-- The segments of a path with the dot segments folded away, and without empty ones in front. There
is always a last one. -/
def foldSegments (segments : List (List Char)) : List (List Char) :=
  let done := segments.foldl pushSegment []
  let done := if segments.getLast?.any isDots then [] :: done else done
  match done.reverse.dropWhile (· = []) with
  | [] => [[]]
  | segments => segments

/-- A character that stands as it is in the path of a URL that is read. -/
def keepsInPath : Char → Bool := Percent.isPlain "\x22#<>?\x60\x7b\x7d"

/-- A character that stands as it is in a query. -/
def keepsInQuery : Char → Bool := Percent.isPlain "\x22#<>\x27"

/-- A character that stands as it is in a fragment. -/
def keepsInFragment : Char → Bool := Percent.isPlain "\x22<>\x60"

/-- The part of a text that a sign opens. -/
def opened? (sign : Char) (keeps : Char → Bool) (text : List Char) : Option String :=
  match text with
  | c :: rest => if c = sign then some (.ofList (Percent.encode keeps rest)) else none
  | [] => none

/-- Reads the path, the query and the fragment of a file URL. A path that starts with a drive takes
the host away. -/
def readPath (host text : List Char) : FileUrl :=
  let isPath := fun c : Char => c != '?' && c != '#'
  let path := text.takeWhile isPath
  let rest := text.dropWhile isPath
  let query := rest.takeWhile (· ≠ '#')
  let fragment := rest.dropWhile (· ≠ '#')
  let segments := (splitPath path).map (Percent.encode keepsInPath)
  ⟨.ofList (if segments.head?.any isDrive then [] else host),
    (foldSegments segments).map .ofList,
    opened? '?' keepsInQuery query, opened? '#' keepsInFragment fragment⟩

def dropSlash : List Char → List Char
  | c :: rest => if isSlash c then rest else c :: rest
  | [] => []

/-- Reads what follows the scheme of a file URL. Two slashes open a host, unless that is a drive. -/
def readFile? (text : List Char) : Option FileUrl :=
  match text with
  | a :: b :: rest =>
    if isSlash a && isSlash b then
      let host := rest.takeWhile (!endsHost ·)
      if isDrive host then some (readPath [] rest)
      else (fileHost? host).map fun name => readPath name (dropSlash (rest.drop host.length))
    else some (readPath [] (dropSlash text))
  | text => some (readPath [] (dropSlash text))

/-- The text after the last at sign. -/
def afterUser (text : List Char) : List Char := (text.reverse.takeWhile (· ≠ '@')).reverse

/-- A host with a port, which is a number of 16 bits or missing. -/
def isHostAndPort (isHost : List Char → Bool) (text : List Char) : Bool :=
  let isNumber := fun digits : List Char =>
    digits.all Char.isDigit && (String.ofList digits).toNat?.getD 0 < 65536
  if text.head? = some '[' then
    let host := text.takeWhile (· ≠ ']') ++ [']']
    isHost host && match text.drop host.length with
      | ':' :: port => isNumber port
      | rest => rest.isEmpty
  else
    let host := text.takeWhile (· ≠ ':')
    isHost host && isNumber (text.drop (host.length + 1))

/-- The schemes with a host that must not be empty. -/
def hostSchemes : List String := ["http", "https", "ws", "wss", "ftp"]

/-- What follows a scheme other than `file` is well formed. -/
def isWellFormed (scheme rest : List Char) : Bool :=
  if hostSchemes.contains (.ofList scheme) then
    let authority := (rest.dropWhile isSlash).takeWhile (!endsHost ·)
    isHostAndPort (fun host => (hostName? host).isSome) (afterUser authority)
  else
    match rest with
    | '/' :: '/' :: rest =>
      let authority := rest.takeWhile fun c => c != '/' && c != '?' && c != '#'
      isHostAndPort
        (fun host =>
          if host.head? = some '[' then isAddress host
          else !host.any fun c => isForbidden c && c != '%')
        (afterUser authority)
    | _ => true

def read? (text : String) : Option Url := do
  let (scheme, rest) ← scheme? (cleaned text.toList)
  if scheme = "file".toList then (readFile? rest).map file
  else if isWellFormed scheme rest then some (other text)
  else none

end CrossIndex.Url
