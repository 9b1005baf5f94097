import CrossIndex.Python.Expression
import CrossIndex.Workspace.Basic

/-!
Queries of a workspace. A query looks at the published generation, perhaps several times; each look
first answers a request for a reload. As a value a query can be run on a workspace, or be answered
from one generation throughout.
-/

namespace CrossIndex

/-- A query: an answer, or a look at the published generation and what follows from it. -/
inductive Query (α : Type) where
  | answer (a : α)
  | look (next : Option Generation → Query α)

namespace Query

variable {α β : Type}

/-- One query after another. -/
def bind : Query α → (α → Query β) → Query β
  | answer a, f => f a
  | look next, f => look fun g? => (next g?).bind f

instance : Monad Query where
  pure := answer
  bind := bind

/-- Runs a query on a workspace. -/
def run (tree : FileTree) : Query α → Workspace → α × Workspace
  | answer a, w => (a, w)
  | look next, w =>
    let w := w.refresh tree
    (next w.generation?).run tree w

/-- The answer of a query when every look sees the same generation. -/
def against (g? : Option Generation) : Query α → α
  | answer a => a
  | look next => (next g?).against g?

/-- Asks the published generation for a list; without a generation it is empty. -/
def ask (f : Generation → List α) : Query (List α) :=
  look fun g? => answer ((g?.map f).getD [])

/-- The path that the index knows a file by. A module has no file of its own, so that its directory
is led to its canonical path instead. -/
def queryPath (tree : FileTree) (path : Path) : Path :=
  match tree.canonical? path with
  | some canonical => canonical
  | none =>
    match path.parent?, path.fileName? with
    | some parent, some name =>
      match tree.canonical? parent with
      | some parent => parent.joinText name
      | none => path
    | _, _ => path

/-- The definitions of an expression as seen from a module or its file. -/
def findDefs (tree : FileTree) (path : Path) (expression : String) : Query (List Definition) :=
  ask fun g => g.findDefs (queryPath tree path) expression

def findRefs (tree : FileTree) (key : String) : Query (List Reference) :=
  ask fun g => g.findRefs tree key

def defsForKey (key : String) : Query (List Definition) :=
  ask fun g => g.index.defs key

/-- What stands under a cursor: the fact that a provider finds there, or else the expression. -/
def factAt (tree : FileTree) (path : Path) (lines : List String) (cursor : Position) :
    Query (Option Fact) :=
  look fun g? =>
    let fact? := g?.bind fun g =>
      g.registry.factAt g.resolver (queryPath tree path) lines cursor
    answer (fact?.or ((Python.expressionAt lines cursor).map .symbol))

def definitionsAt (tree : FileTree) (path : Path) (lines : List String) (cursor : Position) :
    Query (List Location) := do
  let definitions ←
    match ← factAt tree path lines cursor with
    | some (.definition d) => defsForKey d.key
    | some (.reference r) => defsForKey r.key
    | some (.symbol value) => findDefs tree path value
    | some (.exposure _) | none => pure []
  return Location.dedup (definitions.map .ofDefinition)

def keysAt (tree : FileTree) (path : Path) (lines : List String) (cursor : Position) :
    Query (List String) := do
  match ← factAt tree path lines cursor with
  | some (.definition d) => return [d.key]
  | some (.reference r) => return [r.key]
  | some (.symbol value) =>
    let definitions ← findDefs tree path value
    return firstOccurrences id (definitions.map Definition.key)
  | some (.exposure _) | none => return []

def referencesAt (tree : FileTree) (path : Path) (lines : List String) (cursor : Position) :
    Query (List Location) := do
  let keys ← keysAt tree path lines cursor
  let references ← keys.mapM (findRefs tree)
  return Location.dedup (references.flatten.map .ofReference)

def stats : Query (Option Stats) :=
  look fun g? => answer (g?.map Generation.stats)

end Query

end CrossIndex
