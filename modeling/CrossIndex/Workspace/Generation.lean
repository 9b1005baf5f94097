import CrossIndex.Dialect.Provider
import CrossIndex.Index
import CrossIndex.Python.TokenSearch
import CrossIndex.Text.Lines
import CrossIndex.Workspace.Plan

/-!
Generations: what one scan of a source tree has found. A scan passes over the files three times: for
the roots of packages, for the imports, and for the facts, so that imports of packages resolve in
every file. A generation answers where an expression is defined, and where a key is used.
-/

namespace CrossIndex

/-- A source file: its path and its lines. -/
structure Source where
  path : Path
  lines : List String
  deriving Repr, Inhabited

/-- What one scan has found. -/
structure Generation where
  root : Path
  registry : Registry
  resolver : Resolver
  index : Index
  fileCount : Nat
  deriving Repr, Inhabited

structure Stats where
  root : Path
  dialects : List String
  files : Nat
  definitionKeys : Nat
  referenceKeys : Nat
  exports : Nat
  deriving Repr

namespace Generation

/-- The generation of the given sources. -/
def ofSources (root : Path) (dialects : List Dialect) (sources : List Source) : Generation :=
  let (registry, resolver) :=
    (Registry.ofDialects dialects).seeAll .empty (sources.map Source.path)
  let resolver :=
    (sources.filter fun source => SourceKind.of source.path = .python).foldl
      (fun resolver source => resolver.addDocument source.path source.lines) resolver
  let facts := sources.flatMap fun source =>
    registry.extract resolver source.path source.lines .all
  ⟨root, registry, resolver, Index.empty.insertAll facts, sources.length⟩

/-- The source at a path, unless it cannot be read. -/
def source? (tree : FileTree) (path : Path) : Option Source :=
  (tree.readText? path).map fun text => ⟨path, Text.lines text⟩

/-- The directories of a scan: the configured ones, and those of the dialects. -/
def directories (plan : Plan) : List Path :=
  Scan.directories plan.root plan.settings.scanDirs
    ((Registry.ofDialects plan.dialects).extraDirs plan.root)

def build (tree : FileTree) (plan : Plan) : Except GlobError Generation := do
  let files ← Scan.files tree (directories plan) plan.settings.extensions
  return ofSources plan.root plan.dialects (files.filterMap (source? tree))

/-- Plans a scan of the source tree below a root, and makes it. -/
def ofRoot (tree : FileTree) (root : Path) : Except WorkspaceError Generation := do
  let plan ← Plan.ofRoot tree root
  (build tree plan).mapError .badGlob

/-- The definitions that a name has through the exports of a module. The first export with any
counts alone. -/
def definitionsOf (g : Generation) (module : Path) (name : String) : List Definition :=
  let modules :=
    if g.resolver.canonicalModule module == module then [module]
    else [module, g.resolver.canonicalModule module]
  (((modules.flatMap g.index.exportsOf).map fun e => g.index.defs (e.keyOf name)).find?
    (· ≠ [])).getD []

/-- The definitions of an expression as seen from a module. A module has no definition. -/
def findDefs (g : Generation) (path : Path) (expression : String) : List Definition :=
  match g.resolver.resolve path expression with
  | ⟨_, none⟩ => []
  | ⟨module, some name⟩ => g.definitionsOf module name

/-- How a module that has bound a name to the target writes the name of the module `source`, if it
can do so. -/
def importTerm (g : Generation) (source : Path) (name bound : String) (target : ImportTarget) :
    Option String :=
  let canonical := g.resolver.canonicalModule
  match target.name? with
  | some imported =>
    if canonical target.module == source && imported = name then some bound
    else if canonical (target.module.joinText imported) == source then some (bound ++ "." ++ name)
    else none
  | none => if canonical target.module == source then some (bound ++ "." ++ name) else none

/-- The terms that stand for a key, with the modules in whose texts they do. -/
def searchTerms (g : Generation) (key : String) : List (Path × String) :=
  (g.index.allExports.filter fun (_, e) => e.covers key).flatMap fun (source, e) =>
    g.resolver.imports.filterMap fun i =>
      (g.importTerm source (e.variableOf key) i.bound i.target).map fun term => (i.importer, term)

/-- The terms by module, in the order of the modules, and each once in the order of the terms. -/
def termTable (terms : List (Path × String)) : SortedTable Path (SortedTable String Unit) :=
  terms.foldl
    (fun table (module, term) =>
      table.insert module (((table.get? module).getD .empty).insert term ()))
    .empty

/-- The places of the file of a module where one of the terms stands, as references to the key. A
file that cannot be read has none. -/
def textualRefs (tree : FileTree) (key : String) (module : Path) (terms : List String) :
    List Reference :=
  let path := sourceFile module
  match source? tree path with
  | none => []
  | some source => (Python.findTokens source.lines terms).map fun range => ⟨key, path, range⟩

/-- The references to a key: those of the index, and then the uses in the texts of the modules that
have bound it. -/
def findRefs (g : Generation) (tree : FileTree) (key : String) : List Reference :=
  g.index.refs key ++ (termTable (g.searchTerms key)).entries.flatMap fun (module, terms) =>
    textualRefs tree key module (terms.entries.map Prod.fst)

def stats (g : Generation) : Stats where
  root := g.root
  dialects := g.registry.names
  files := g.fileCount
  definitionKeys := g.index.definitionKeys
  referenceKeys := g.index.referenceKeys
  exports := g.index.exportCount

end Generation

end CrossIndex
