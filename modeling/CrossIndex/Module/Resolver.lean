import CrossIndex.Module.Path
import CrossIndex.Python.Import
import CrossIndex.Table

/-!
The import graph of a Python source tree, and the way from an expression in one module to the module
that defines it. A package directory stands for its `__init__` module once that file has been seen.
Resolution never fails: a name that leads no further is taken as defined where its way ends.
-/

namespace CrossIndex

/-- What a name of a module denotes: a name of another module, or with no name that module
itself. -/
structure ImportTarget where
  module : Path
  name? : Option String
  deriving DecidableEq, Repr, Inhabited

/-- Where an expression leads: a module and a name in it, or with no name the module itself. -/
structure Resolved where
  module : Path
  name? : Option String
  deriving DecidableEq, Repr, Inhabited

/-- One import as recorded: the module that holds it, the name it binds there, and what the name
denotes. -/
structure RecordedImport where
  importer : Path
  bound : String
  target : ImportTarget
  deriving DecidableEq, Repr, Inhabited

/-- The import graph. -/
structure Resolver where
  /-- The names bound by the imports of each module. -/
  bindings : SortedTable Path (SortedTable String ImportTarget)
  /-- The `__init__` modules of package directories. -/
  inits : SortedTable Path Path
  /-- The root directories of packages. -/
  packages : SortedTable String Path
  deriving Repr, Inhabited

namespace Resolver

/-- The number of imports that the resolution of one expression follows at most. -/
def maxSteps : Nat := 10

def empty : Resolver := ⟨.empty, .empty, .empty⟩

def addPackage (r : Resolver) (name : String) (root : Path) : Resolver :=
  { r with packages := r.packages.insert name (modulePath root) }

def packageRoot? (r : Resolver) (name : String) : Option Path :=
  r.packages.get? name

/-- Goes up from a directory, by one directory less than there are leading dots. -/
def climb (directory : Path) (dots : Nat) : Path :=
  (List.replicate (dots - 1) "..").foldl Path.joinText directory

/-- The module that a module text names in a file of the directory. Leading dots start from the
directory and go up; a registered package starts from its root; anything else is looked for in the
directory itself. -/
def target (r : Resolver) (directory : Path) (text : String) : Path :=
  let chars := text.toList
  let dots := (chars.takeWhile (· = '.')).length
  let names := ((Text.splitOn '.' (chars.drop dots)).filter (· ≠ [])).map String.ofList
  let (start, names) :=
    if dots > 0 then (climb directory dots, names)
    else match names with
      | first :: rest =>
        match r.packageRoot? first with
        | some root => (root, rest)
        | none => (directory, names)
      | [] => (directory, names)
  modulePath (names.foldl Path.joinText start)

/-- What an import binds its local name to, in a file of the directory. A plain import binds the
module under its alias, or else only the first part of its name. -/
def importTarget (r : Resolver) (directory : Path) (i : Python.Import) : ImportTarget :=
  match i.module? with
  | some module => ⟨r.target directory module, some i.name⟩
  | none => ⟨r.target directory (if i.alias?.isSome then i.name else i.localName), none⟩

/-- Records the imports of a source file, in place of those recorded for it before. -/
def addDocument (r : Resolver) (path : Path) (lines : List String) : Resolver :=
  let module := modulePath path
  let directory := module.parent?.getD .empty
  let names := (Python.imports lines).foldl
    (fun names i => names.insert i.localName (r.importTarget directory i)) SortedTable.empty
  let inits :=
    if module.fileName? = some initName then r.inits.insert directory module else r.inits
  { r with bindings := r.bindings.insert module names, inits }

/-- All recorded imports, by the order of the modules and then of the names. -/
def imports (r : Resolver) : List RecordedImport :=
  r.bindings.entries.flatMap fun (importer, names) =>
    names.entries.map fun (bound, target) => ⟨importer, bound, target⟩

/-- A module path with a package directory led on to its `__init__` module. -/
def redirect (r : Resolver) (module : Path) : Path :=
  (r.inits.get? module).getD module

/-- The module that a path stands for. -/
def canonicalModule (r : Resolver) (path : Path) : Path :=
  r.redirect (modulePath path)

/-- A document was recorded for the module or for its `__init__` module. -/
def knows (r : Resolver) (module : Path) : Bool :=
  r.bindings.contains module || r.inits.contains module

/-- What a name denotes in a module. -/
def binding? (r : Resolver) (module : Path) (name : String) : Option ImportTarget := do
  let names ← r.bindings.get? module
  names.get? name

/-- Follows a name of a module through imports, at most as many as there are `steps`. A name that
was imported from a module may be a module below it. Also gives the steps that are left. -/
def resolveName (r : Resolver) (module : Path) (name : String) (imported : Bool) :
    (steps : Nat) → Resolved × Nat
  | 0 => (⟨module, some name⟩, 0)
  | steps + 1 =>
    let below := module.joinText name
    if imported && r.knows below then (⟨below, none⟩, steps)
    else
      let module := r.redirect module
      match r.binding? module name with
      | none => (⟨module, some name⟩, steps)
      | some ⟨source, none⟩ => (⟨source, none⟩, steps)
      | some ⟨source, some name⟩ => resolveName r source name true steps

/-- Follows the parts of a dotted expression. Where a part denotes a module the next part is looked
for in it; the attributes of anything else are not followed. -/
def resolveParts (r : Resolver) (module : Path) : (parts : List String) → (steps : Nat) → Resolved
  | [], _ => ⟨module, none⟩
  | [name], steps => (r.resolveName module name false steps).1
  | name :: next :: more, steps =>
    match r.resolveName module name false steps with
    | (⟨inner, none⟩, steps) => resolveParts r inner (next :: more) steps
    | (⟨_, some _⟩, _) => ⟨module, some (".".intercalate (name :: next :: more))⟩

/-- A relative path led on from the root of the package that its first component names. -/
def rooted (r : Resolver) (path : Path) : Path :=
  if path.isAbsolute then path
  else match path.components with
    | first :: _ =>
      match r.packageRoot? first.text with
      | some root => root.join path.afterFirst
      | none => path
    | [] => path

/-- Where a dotted expression leads, as seen from a module. The module may be given as a file, and
from a package root. -/
def resolve (r : Resolver) (path : Path) (expression : String) : Resolved :=
  r.resolveParts (modulePath (r.rooted path)) (Text.pieces '.' expression) maxSteps

end Resolver

end CrossIndex
