import CrossIndex.Dialect.Kind
import CrossIndex.Scan.Files
import CrossIndex.Settings

/-!
What a scan is to do: the root of the source tree, its settings, and its dialects.
-/

namespace CrossIndex

/-- Why a workspace cannot be started. -/
inductive WorkspaceError where
  /-- The root is not there, or is no directory. -/
  | badRoot (root : Path)
  | badSettings (e : SettingsError)
  | unknownDialect (e : UnknownDialect)
  | badGlob (e : GlobError)
  deriving DecidableEq, Repr

namespace WorkspaceError

def message? : WorkspaceError → Option String
  | badRoot root => some ("Workspace root " ++ root.toString ++ " is not a directory")
  | unknownDialect e => some e.message
  | badSettings _ | badGlob _ => none

end WorkspaceError

namespace Dialect

/-- The first dialect whose marker is there below the root. -/
def detect? (tree : FileTree) (root : Path) : Option Dialect :=
  all.find? fun dialect => tree.contains (root.join dialect.marker)

/-- The dialects of the given names; without names the one that is detected. -/
def select (tree : FileTree) (root : Path) (enabled : List String) :
    Except UnknownDialect (List Dialect) :=
  if enabled = [] then .ok (detect? tree root).toList
  else enabled.mapM ofName

end Dialect

/-- What a scan is to do. -/
structure Plan where
  root : Path
  settings : Settings
  dialects : List Dialect
  deriving Repr

namespace Plan

/-- The plan for the source tree below a root, which is led to its canonical path first. -/
def ofRoot (tree : FileTree) (root : Path) : Except WorkspaceError Plan :=
  if tree.isDirectory root then do
    let root := (tree.canonical? root).getD root
    let settings ← (Settings.load tree root).mapError .badSettings
    let dialects ← (Dialect.select tree root settings.enabled).mapError .unknownDialect
    return ⟨root, settings, dialects⟩
  else .error (.badRoot root)

end Plan

end CrossIndex
