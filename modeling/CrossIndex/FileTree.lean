import CrossIndex.Path.Basic
import CrossIndex.Table
import CrossIndex.Text.Utf8

/-!
File trees. A tree is the table of its entries under their places, where a place is the list of the
names from the root. Following a path through the tree asks at each step for a directory to go on
from, so that a slash or a dot after a file leads nowhere. No entry is a link, and all of them can be
read. Names are texts; only a scan looks at names that are none, and then they are written byte by byte.
-/

namespace CrossIndex

/-- Where an entry stands: the names from the root down to it. -/
abbrev Place := List String

/-- What stands at a place. -/
inductive Entry where
  | directory
  | file (bytes : List UInt8)
  deriving DecidableEq, Repr, Inhabited

/-- The path of a place. -/
def Path.ofPlace (place : Place) : Path := ofParts [""] place

/-- A file tree, and the directory from which relative paths start. -/
structure FileTree where
  entries : SortedTable Place Entry
  base : Place
  deriving Repr, Inhabited

namespace FileTree

/-- The tree that holds its root alone. -/
def empty : FileTree := ⟨.empty, []⟩

/-- The tree of entries, no two of which stand at one place. -/
def ofEntries (entries : List (Place × Entry)) (base : Place) : FileTree :=
  ⟨⟨entries.mergeSort fun a b => (compare a.1 b.1).isLE⟩, base⟩

/-- The entry at a place. The root is always there, and is a directory. -/
def entryAt? (tree : FileTree) (place : Place) : Option Entry :=
  if place = [] then some .directory else tree.entries.get? place

def isDirectoryAt (tree : FileTree) (place : Place) : Bool :=
  tree.entryAt? place == some .directory

/-- One step of a path, which starts from a directory. -/
def step? (tree : FileTree) (place : Place) (segment : String) : Option Place :=
  if tree.isDirectoryAt place then
    if Path.isFiller segment then some place
    else if segment = ".." then some place.dropLast
    else
      let next := place ++ [segment]
      if (tree.entryAt? next).isSome then some next else none
  else none

/-- The place that a path leads to. The empty path leads nowhere. -/
def locate? (tree : FileTree) (path : Path) : Option Place :=
  if path.isAbsolute then path.segments.tail.foldlM tree.step? []
  else if path.segments = [""] then none
  else path.segments.foldlM tree.step? tree.base

/-- The path leads somewhere. -/
def contains (tree : FileTree) (path : Path) : Bool :=
  (tree.locate? path).isSome

/-- The path of the place that a path leads to. -/
def canonical? (tree : FileTree) (path : Path) : Option Path :=
  (tree.locate? path).map .ofPlace

def entry? (tree : FileTree) (path : Path) : Option Entry := do
  tree.entryAt? (← tree.locate? path)

def isDirectory (tree : FileTree) (path : Path) : Bool :=
  tree.entry? path == some .directory

def read? (tree : FileTree) (path : Path) : Option (List UInt8) :=
  match tree.entry? path with
  | some (.file bytes) => some bytes
  | _ => none

def isFile (tree : FileTree) (path : Path) : Bool :=
  (tree.read? path).isSome

/-- The text of the file that a path leads to. Bytes that are no text are replaced. -/
def readText? (tree : FileTree) (path : Path) : Option String :=
  (tree.read? path).map Text.decodeUtf8Lossy

/-- The names that lead from one place down to another below it. -/
def below? (place other : Place) : Option Place :=
  if place.isPrefixOf other ∧ place ≠ other then some (other.drop place.length) else none

/-- All places below a place, as the names that lead there. A directory comes before what is in it,
and its entries come in the order of their names. -/
def descendants (tree : FileTree) (place : Place) : List Place :=
  tree.entries.entries.filterMap fun entry => below? place entry.1

/-- The names of the entries of a directory, in order. -/
def children (tree : FileTree) (place : Place) : List String :=
  (tree.descendants place).filterMap fun
    | [name] => some name
    | _ => none

/-- The places on the way from the root to a place, which is the last of them. The root is not
among them. -/
def onTheWay (place : Place) : List Place :=
  (List.range place.length).map fun n => place.take (n + 1)

/-- Puts a directory at a place, with all directories on the way. -/
def makeDirectory (tree : FileTree) (place : Place) : FileTree :=
  { tree with
    entries := (onTheWay place).foldl
      (fun entries place => entries.insert place .directory) tree.entries }

/-- Puts a file at a place, with all directories on the way. -/
def write (tree : FileTree) (place : Place) (bytes : List UInt8) : FileTree :=
  let tree := tree.makeDirectory place.dropLast
  { tree with entries := tree.entries.insert place (.file bytes) }

/-- The tree without what is below a place. -/
def clear (tree : FileTree) (place : Place) : FileTree :=
  { tree with entries := ⟨tree.entries.entries.filter fun entry => below? place entry.1 = none⟩ }

/-- The tree without what is at a place and below it. -/
def remove (tree : FileTree) (place : Place) : FileTree :=
  { tree with entries := ⟨tree.entries.entries.filter fun entry => !place.isPrefixOf entry.1⟩ }

end FileTree

end CrossIndex
