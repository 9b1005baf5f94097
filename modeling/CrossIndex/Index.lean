import CrossIndex.Fact
import CrossIndex.Module.Path
import CrossIndex.Table

/-!
The index of facts: definitions and references under their keys, exports under their modules, each
in the order in which they were filed.
-/

namespace CrossIndex

/-- The facts of a source tree. -/
structure Index where
  definitions : GroupTable String Definition
  references : GroupTable String Reference
  exposures : GroupTable Path Export
  deriving Repr, Inhabited

namespace Index

/-- The index of no facts. -/
def empty : Index := ⟨.empty, .empty, .empty⟩

/-- The fact is one to be filed: it has a key that is not empty, or is an export. -/
def accepts : Fact → Bool
  | .definition d => d.key ≠ ""
  | .reference r => r.key ≠ ""
  | .exposure _ => true
  | .symbol _ => false

/-- Files a fact, unless it is not one to be filed, and says whether it was. -/
def file (index : Index) (fact : Fact) : Bool × Index :=
  match fact with
  | .definition d =>
    if d.key ≠ "" then (true, { index with definitions := index.definitions.add d.key d })
    else (false, index)
  | .reference r =>
    if r.key ≠ "" then (true, { index with references := index.references.add r.key r })
    else (false, index)
  | .exposure e => (true, { index with exposures := index.exposures.add (modulePath e.path) e })
  | .symbol _ => (false, index)

/-- The index after a fact was filed. -/
def insert (index : Index) (fact : Fact) : Index := (index.file fact).2

def defs (index : Index) (key : String) : List Definition := index.definitions.get key

def refs (index : Index) (key : String) : List Reference := index.references.get key

def exportsOf (index : Index) (module : Path) : List Export := index.exposures.get module

/-- All exports with their modules. -/
def allExports (index : Index) : List (Path × Export) := index.exposures.toList

/-- All exports with their modules, by the text of the modules. -/
def exportListing (index : Index) : List (Path × Export) :=
  index.allExports.mergeSort fun a b => a.1.toString ≤ b.1.toString

def definitionKeys (index : Index) : Nat := index.definitions.keyCount

def referenceKeys (index : Index) : Nat := index.references.keyCount

def exportCount (index : Index) : Nat :=
  index.allExports.length

def insertAll (index : Index) (facts : List Fact) : Index := facts.foldl insert index

end Index

end CrossIndex
