import CrossIndex.Toml.Scalar
import CrossIndex.Toml.Text
import CrossIndex.Toml.Tree

/-!
Reading TOML documents, expression by expression: blank lines, comments, headers, and keys with
their values. Each reader gives what it has read and the rest of the text.
-/

namespace CrossIndex.Toml

/-- What follows a comment, if one starts the text. -/
def skipComment : List Char → List Char
  | '#' :: rest => rest.dropWhile isPlain
  | text => text

/-- What follows blanks, a comment where there is one, and the end of the line or of the text. -/
def finishLine? (text : List Char) : Option (List Char) :=
  match skipComment (skipBlanks text) with
  | [] => some []
  | rest => afterLineEnd? rest

/-- Drops blanks, line ends, and comments that end with their line; `fuel` bounds the lines. -/
def skipLines : (fuel : Nat) → List Char → Option (List Char)
  | 0, _ => none
  | fuel + 1, text =>
    match skipBlanks text with
    | '#' :: rest => do skipLines fuel (← afterLineEnd? (rest.dropWhile isPlain))
    | c :: rest =>
      if c = '\n' ∨ c = '\r' then do skipLines fuel (← afterLineEnd? (c :: rest))
      else some (c :: rest)
    | [] => some []

/-- A character of a key without quotes. -/
def isBareKey (c : Char) : Bool := c.isAlphanum || c == '_' || c == '-'

def readSimpleKey (text : List Char) : Option (String × List Char) :=
  match readShortString text with
  | some (chars, rest) => some (.ofList chars, rest)
  | none =>
    match text.takeWhile isBareKey with
    | [] => none
    | chars => some (.ofList chars, text.dropWhile isBareKey)

/-- The parts of a key, with dots between them; `fuel` bounds their number. -/
def readKeyParts : (fuel : Nat) → List Char → Option (List String × List Char)
  | 0, _ => none
  | fuel + 1, text => do
    let (part, rest) ← readSimpleKey (skipBlanks text)
    match skipBlanks rest with
    | '.' :: rest =>
      let (parts, rest) ← readKeyParts fuel rest
      return (part :: parts, rest)
    | rest => return ([part], rest)

/-- A key: the parts before the last, and the last. -/
def readKey (text : List Char) : Option ((List String × String) × List Char) := do
  let (parts, rest) ← readKeyParts nestingLimit text
  guard (parts.length < nestingLimit)
  return ((parts.dropLast, ← parts.getLast?), rest)

mutual

/-- A value; arrays and inline tables nest less than `depth` deep. -/
def readValue : (fuel depth : Nat) → List Char → Option (Toml × List Char)
  | 0, _, _ => none
  | fuel + 1, depth, text =>
    match text with
    | [] => none
    | c :: rest =>
      if c = '\x22' ∨ c = '\x27' then
        (readString text).map fun (chars, rest) => (.string (.ofList chars), rest)
      else if c = '[' then
        if depth ≤ 1 then none
        else (readItems fuel (depth - 1) rest).map fun (items, rest) => (.array items, rest)
      else if c = '\x7b' then
        if depth ≤ 1 then none
        else
          match skipBlanks rest with
          | '\x7d' :: rest => some (.table [], rest)
          | rest => (readMembers fuel (depth - 1) [] rest).map fun (members, rest) =>
            (.table (Node.membersValue members), rest)
      else readScalar text

/-- The items of an array and its closing bracket. A comma may follow the last one. -/
def readItems : (fuel depth : Nat) → List Char → Option (List Toml × List Char)
  | 0, _, _ => none
  | fuel + 1, depth, text => do
    match ← skipLines text.length.succ text with
    | ']' :: rest => return ([], rest)
    | text =>
      let (item, rest) ← readValue fuel depth text
      match ← skipLines rest.length.succ rest with
      | ',' :: rest =>
        let (items, rest) ← readItems fuel depth rest
        return (item :: items, rest)
      | ']' :: rest => return ([item], rest)
      | _ => none

/-- The members of an inline table, put beside those read before, and its closing brace. -/
def readMembers : (fuel depth : Nat) → Node.Members → List Char →
    Option (Node.Members × List Char)
  | 0, _, _, _ => none
  | fuel + 1, depth, members, text => do
    let ((path, key), rest) ← readKey text
    let '=' :: rest := rest | none
    let (value, rest) ← readValue fuel depth (skipBlanks rest)
    let members ← Node.addValue path key value .header members
    match skipBlanks rest with
    | ',' :: rest => readMembers fuel depth members rest
    | '\x7d' :: rest => return (members, rest)
    | _ => none

end

/-- A document as far as it has been read: its tables, and the path of the last header. -/
structure Document where
  root : Node.Members
  header : List String

/-- A header of a table, of which the opening bracket has been read. -/
def Document.readHeader (document : Document) (text : List Char) :
    Option (Document × List Char) :=
  match text with
  | '[' :: rest => do
    let ((path, key), rest) ← readKey rest
    let ']' :: ']' :: rest := rest | none
    let root ← Node.openItem path key document.root
    return (⟨root, path ++ [key]⟩, ← finishLine? rest)
  | rest => do
    let ((path, key), rest) ← readKey rest
    let ']' :: rest := rest | none
    let root ← Node.openTable path key document.root
    return (⟨root, path ++ [key]⟩, ← finishLine? rest)

/-- A key and its value, which go into the table of the last header. -/
def Document.readEntry (document : Document) (text : List Char) :
    Option (Document × List Char) := do
  let ((path, key), rest) ← readKey text
  let '=' :: rest := rest | none
  let rest := skipBlanks rest
  let (value, rest) ← readValue rest.length.succ nestingLimit rest
  let root ← Node.change .headerPath document.header .header document.root
    (Node.addValue path key value)
  return ({ document with root }, ← finishLine? rest)

/-- Reads expressions up to the end of the text; `fuel` bounds their number. -/
def Document.readAll : (fuel : Nat) → Document → List Char → Option Document
  | 0, _, _ => none
  | fuel + 1, document, text =>
    match skipBlanks text with
    | [] => some document
    | '[' :: rest => do
      let (document, rest) ← document.readHeader rest
      readAll fuel document rest
    | c :: rest =>
      if c = '#' ∨ c = '\n' ∨ c = '\r' then do
        readAll fuel document (← finishLine? (c :: rest))
      else do
        let (document, rest) ← document.readEntry (c :: rest)
        readAll fuel document rest

/-- The members of the table that a document holds. A byte order mark may come first. -/
def read? (text : String) : Option (List (String × Toml)) := do
  let chars :=
    match text.toList with
    | '\uFEFF' :: rest => rest
    | chars => chars
  let document ← Document.readAll chars.length.succ ⟨[], []⟩ chars
  return Node.membersValue document.root

end CrossIndex.Toml
