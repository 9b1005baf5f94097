import CrossIndex.Fact
import CrossIndex.Scan.Glob

/-!
The files of a scan: those below the scanned directories whose names have one of the extensions.
They come in the order of their paths, each once. All directories can be read, and there are no links.
-/

namespace CrossIndex.Scan

/-- The configured directories below a root, and the extra ones after them, each once. -/
def directories (root : Path) (configured : List String) (extra : List Path) : List Path :=
  firstOccurrences id (configured.map root.joinText ++ extra)

/-- The path with single slashes. -/
def singleSlashes (path : Path) : Path :=
  Path.ofParts (if path.isAbsolute then [""] else []) (path.segments.filter (· ≠ ""))

/-- The glob of an extension: any name with it, at any depth. The extension may hold signs of a glob
itself. -/
def extensionGlob (extension : String) : Except GlobError (List GlobPart) := do
  return .anyDepth :: (← Glob.read ("*." ++ extension))

/-- The files below one directory with one of the extensions. A directory that is not there has
none, and then the extensions are not even read. The globs start at the directory as it is shown. -/
def filesBelow (naming : Naming) (tree : FileTree) (extensions : List String) (directory : Path) :
    Except GlobError (List Path) :=
  if tree.isDirectory directory then do
    let globs ← extensions.mapM extensionGlob
    let start := singleSlashes (naming.asShown directory)
    return globs.flatMap fun glob => (Glob.expand naming tree glob start).filter tree.isFile
  else .ok []

/-- The first path does not come after the second. -/
def notAfter (p q : Path) : Bool := (compare p q).isLE

/-- The files below the directories with one of the extensions, by the order of their paths, when
names are written in a given way. Of two spellings of one path the first is kept. -/
def filesAs (naming : Naming) (tree : FileTree) (directories : List Path)
    (extensions : List String) : Except GlobError (List Path) := do
  let found ← directories.mapM (filesBelow naming tree extensions)
  return firstOccurrences id (found.flatten.mergeSort notAfter)

/-- The files of a tree whose names are texts. -/
def files (tree : FileTree) (directories : List Path) (extensions : List String) :
    Except GlobError (List Path) :=
  filesAs .texts tree directories extensions

end CrossIndex.Scan
