import CrossIndex.Fact
import CrossIndex.Json.Reader
import CrossIndex.Json.Printer

/-!
The JSON form of facts: an object whose member `kind` names the kind, beside the fields of the fact.
Reading takes the fields in any order and passes over unknown ones; the fields may also come as an
array, in the order in which they are written.
-/

namespace CrossIndex

/-- Coordinates are numbers of 32 bits. -/
def coordinateLimit : Nat := Nat.pow 2 32

namespace Json

def text? : Json → Option String
  | .string text => some text
  | _ => none

/-- A coordinate: a whole number below the limit. -/
def coordinate? : Json → Option Nat
  | .number value => value.toNat?.filter (· < coordinateLimit)
  | _ => none

/-- The values of the named fields. Of an object each field is taken once; an array holds just the
fields, in order. -/
def fields? (names : List String) : Json → Option (List Json)
  | .object members =>
    names.mapM fun name =>
      match members.filter (·.1 = name) with
      | [(_, value)] => some value
      | _ => none
  | .array items => if items.length = names.length then some items else none
  | _ => none

def nat (n : Nat) : Json := .number (.ofNat n)

end Json

namespace Position

def toJson (p : Position) : Json :=
  .object [("line", .nat p.line), ("character", .nat p.column)]

def ofJson? (json : Json) : Option Position := do
  let [line, column] ← json.fields? ["line", "character"] | none
  return ⟨← line.coordinate?, ← column.coordinate?⟩

end Position

namespace Range

def toJson (r : Range) : Json :=
  .object [("start", r.start.toJson), ("end", r.stop.toJson)]

def ofJson? (json : Json) : Option Range := do
  let [start, stop] ← json.fields? ["start", "end"] | none
  return ⟨← Position.ofJson? start, ← Position.ofJson? stop⟩

end Range

namespace KeyMapping

def name : KeyMapping → String
  | identity => "identity"
  | namespaced => "namespaced"

def ofName? (text : String) : Option KeyMapping :=
  [identity, namespaced].find? (·.name = text)

/-- Reads a mapping: its name, or an object with its name as the only member, which holds
nothing. -/
def ofJson? : Json → Option KeyMapping
  | .string text => ofName? text
  | .object [(text, .null)] => ofName? text
  | .object [(text, .object [])] => ofName? text
  | _ => none

end KeyMapping

/-- The fields of a definition or a reference. -/
def siteFields (key : String) (path : Path) (range : Range) : List (String × Json) :=
  [("key", .string key), ("path", .string path.toString), ("range", range.toJson)]

def Definition.toJson (d : Definition) : Json := .object (siteFields d.key d.path d.range)

def Reference.toJson (r : Reference) : Json := .object (siteFields r.key r.path r.range)

def Location.toJson (l : Location) : Json :=
  .object [("path", .string l.path.toString), ("range", l.range.toJson)]

namespace Fact

/-- The fields of a fact, without its kind. -/
def fieldsJson : Fact → List (String × Json)
  | definition d => siteFields d.key d.path d.range
  | reference r => siteFields r.key r.path r.range
  | exposure e =>
    [("key_prefix", .string e.family), ("path", .string e.path.toString),
      ("mapping", .string e.mapping.name)]
  | symbol value => [("value", .string value)]

def toJson (f : Fact) : Json :=
  .object (("kind", .string f.kind) :: f.fieldsJson)

/-- Reads the key, the path and the range of a definition or a reference. -/
def siteOfJson? (json : Json) : Option (String × Path × Range) := do
  let [key, path, range] ← json.fields? ["key", "path", "range"] | none
  return (← key.text?, Path.ofString (← path.text?), ← Range.ofJson? range)

/-- Reads the fields of a fact of the given kind. -/
def ofFields? (kind : String) (json : Json) : Option Fact :=
  if kind = "definition" then do
    let (key, path, range) ← siteOfJson? json
    return define key path range
  else if kind = "reference" then do
    let (key, path, range) ← siteOfJson? json
    return refer key path range
  else if kind = "export" then do
    let [family, path, mapping] ← json.fields? ["key_prefix", "path", "mapping"] | none
    return exposure ⟨← family.text?, Path.ofString (← path.text?), ← KeyMapping.ofJson? mapping⟩
  else if kind = "symbol" then do
    let [value] ← json.fields? ["value"] | none
    return symbol (← value.text?)
  else none

/-- Reads the JSON form of a fact. The kind stands in one member of an object, or first in an
array. -/
def ofJson? : Json → Option Fact
  | .object members =>
    match members.filter (·.1 = "kind") with
    | [(_, .string kind)] => ofFields? kind (.object (members.filter (·.1 ≠ "kind")))
    | _ => none
  | .array (.string kind :: items) => ofFields? kind (.array items)
  | _ => none

def read? (text : String) : Option Fact := do
  ofJson? (← Json.read? text)

end Fact

end CrossIndex
