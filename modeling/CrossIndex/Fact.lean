import CrossIndex.Position
import CrossIndex.Path.Basic

/-!
Facts about registrations. A fact says that a key is defined or used at a place of a file, or that a
module exposes a family of keys as variables of its own.
-/

namespace CrossIndex

/-- The key is registered at this place. -/
structure Definition where
  key : String
  path : Path
  range : Range
  deriving DecidableEq, Repr, Inhabited

/-- The key is used at this place. -/
structure Reference where
  key : String
  path : Path
  range : Range
  deriving DecidableEq, Repr, Inhabited

/-- How an exposed variable is named after its key. -/
inductive KeyMapping where
  /-- The variable has the name of the key. -/
  | identity
  /-- The key is the family, a dot and the name of the variable. -/
  | namespaced
  deriving DecidableEq, Repr

/-- The module at the path exposes the keys of a family as its variables. -/
structure Export where
  family : String
  path : Path
  mapping : KeyMapping
  deriving DecidableEq, Repr

namespace Export

/-- The key belongs to the family: it starts with its text. -/
def covers (e : Export) (key : String) : Bool :=
  e.family.toList.isPrefixOf key.toList

/-- The key that a variable exposes. -/
def keyOf (e : Export) (name : String) : String :=
  match e.mapping with
  | .identity => name
  | .namespaced => e.family ++ "." ++ name

/-- The text from a byte offset on, or nothing when no character starts there. -/
def fromByte? : List Char → Nat → Option (List Char)
  | text, 0 => some text
  | [], _ + 1 => none
  | c :: rest, offset@(_ + 1) =>
    if c.utf8Size ≤ offset then fromByte? rest (offset - c.utf8Size) else none

/-- The variable that exposes a key. What follows the family and one byte more is its name; without
such a rest the name is empty. -/
def variableOf (e : Export) (key : String) : String :=
  match e.mapping with
  | .identity => key
  | .namespaced =>
    String.ofList ((fromByte? key.toList (e.family.utf8ByteSize + 1)).getD [])

end Export

/-- A fact found in a source file or at a cursor. -/
inductive Fact where
  | definition (d : Definition)
  | reference (r : Reference)
  | exposure (e : Export)
  /-- A dotted expression under a cursor. -/
  | symbol (value : String)
  deriving DecidableEq, Repr

namespace Fact

def define (key : String) (path : Path) (range : Range) : Fact := .definition ⟨key, path, range⟩

def refer (key : String) (path : Path) (range : Range) : Fact := .reference ⟨key, path, range⟩

def kind : Fact → String
  | definition _ => "definition"
  | reference _ => "reference"
  | exposure _ => "export"
  | symbol _ => "symbol"

def key? : Fact → Option String
  | definition d => some d.key
  | reference r => some r.key
  | _ => none

def range? : Fact → Option Range
  | definition d => some d.range
  | reference r => some r.range
  | _ => none

/-- The first definition or reference that a cursor touches. -/
def firstTouching (facts : List Fact) (cursor : Position) : Option Fact :=
  facts.find? fun fact => fact.range?.any (·.touches cursor)

end Fact

/-- A place that results name. -/
structure Location where
  path : Path
  range : Range
  deriving DecidableEq, Repr, Inhabited

namespace Location

/-- Two locations are the same when their paths and ranges are. -/
def same (a b : Location) : Bool :=
  a.path == b.path && a.range == b.range

instance : BEq Location := ⟨Location.same⟩

def ofDefinition (d : Definition) : Location := ⟨d.path, d.range⟩

def ofReference (r : Reference) : Location := ⟨r.path, r.range⟩

/-- The location of a definition or a reference. -/
def ofFact? : Fact → Option Location
  | .definition d => some (ofDefinition d)
  | .reference r => some (ofReference r)
  | _ => none

end Location

/-- The items whose image comes for the first time, in order. -/
def firstOccurrences {α β : Type} [BEq β] (image : α → β) (items : List α) : List α :=
  (items.foldl
    (fun (kept, seen) item =>
      if seen.contains (image item) then (kept, seen) else (item :: kept, image item :: seen))
    (([] : List α), ([] : List β))).1.reverse

namespace Location

def dedup (locations : List Location) : List Location :=
  firstOccurrences id locations

/-- The references without those at a location that came before. -/
def uniqueReferences (references : List Reference) : List Reference :=
  firstOccurrences ofReference references

end Location

end CrossIndex
