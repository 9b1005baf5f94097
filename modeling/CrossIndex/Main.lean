import CrossIndex.Command.Arguments

/-!
The program: it reads the files that a command line is about, runs the command on them, and writes
what comes of it.
-/

namespace CrossIndex.Program

/-- The entries below a directory of the disk. Links to directories are not followed. -/
partial def entriesBelow (directory : String) (place : Place) : IO (List (Place × Entry)) := do
  let real ← IO.FS.realPath directory
  let mut found := []
  for item in ← real.readDir do
    let below := place ++ [item.fileName]
    if ← item.path.isDir then
      if (← IO.FS.realPath item.path) == item.path then
        found := (below, .directory) :: (← entriesBelow item.path.toString below) ++ found
    else
      found := (below, .file (← IO.FS.readBinFile item.path).toList) :: found
  return found

/-- The place of a path, seen from a directory. -/
def placeFrom (base path : Path) : Place :=
  (base.join path).folded.segments.filter (· ≠ "")

/-- The tree with a directory of the disk put into it. One that is not there is left out. -/
def addDirectory (base : Path) (tree : FileTree) (path : Path) : IO FileTree := do
  let place := placeFrom base path
  try
    let found ← entriesBelow (Path.ofPlace place).toString place
    let tree := (tree.remove place).makeDirectory place
    return FileTree.ofEntries (tree.entries.entries ++ found) tree.base
  catch _ => return tree

/-- The tree with a file of the disk put into it. One that is not there is left out. -/
def addFile (base : Path) (tree : FileTree) (path : Path) : IO FileTree := do
  let place := placeFrom base path
  try
    return tree.write place (← IO.FS.readBinFile (Path.ofPlace place).toString).toList
  catch _ => return tree

/-- The directories that a command scans, as far as its settings can be read. -/
def scanned (tree : FileTree) (c : Command) : List Path :=
  match Plan.ofRoot tree c.root with
  | .ok plan => (Generation.directories plan).filter (!·.startsWith plan.root)
  | .error _ => []

/-- The part of the disk that a command is about. -/
def treeFor (base : Path) (c : Command) : IO FileTree := do
  let tree := (FileTree.ofEntries [] (placeFrom base .empty)).makeDirectory (placeFrom base .empty)
  let tree ← addDirectory base tree c.root
  let tree ← (scanned tree c).foldlM (addDirectory base) tree
  match c.question with
  | .definitions file _ | .lookup file .. => addFile base tree file
  | .stats | .references _ => return tree

/-- Runs a command line, and gives its exit code. -/
def run (words : List String) : IO UInt32 := do
  let base := Path.ofString (← IO.currentDir).toString
  let tree ←
    match Arguments.read words with
    | .ok (.command c) => treeFor base c
    | _ => pure FileTree.empty
  let outcome := Invocation.runWords tree words
  IO.print outcome.output
  IO.eprint outcome.errors
  return outcome.code

end CrossIndex.Program

def main (words : List String) : IO UInt32 := CrossIndex.Program.run words
