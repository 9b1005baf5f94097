import CrossIndex.Dialect.Dgl
import CrossIndex.Dialect.Kind
import CrossIndex.Dialect.Mxnet
import CrossIndex.Dialect.Taichi
import CrossIndex.Dialect.Torch
import CrossIndex.Dialect.Tvm

/-!
Providers: dialects at work on a source tree. A provider first sees every file, to note the roots of
packages; after that it gives the facts of each file, and the one under a cursor.
-/

namespace CrossIndex

/-- A dialect with what it has noted of the tree. -/
inductive Provider where
  | tvm (paths? : Option PackagePaths)
  | dgl (paths? : Option PackagePaths)
  | mxnet
  | torch
  | taichi
  /-- The fallback, which finds nothing. -/
  | noop
  deriving Repr, Inhabited

/-- A dialect that has noted nothing. -/
def Dialect.provider : Dialect → Provider
  | tvm => .tvm none
  | mxnet => .mxnet
  | torch => .torch
  | dgl => .dgl none
  | taichi => .taichi

namespace Provider

def name : Provider → String
  | tvm _ => "tvm"
  | dgl _ => "dgl"
  | mxnet => "mxnet"
  | torch => "torch"
  | taichi => "taichi"
  | noop => "noop"

/-- The package whose root a provider notes, and the path that shows it. -/
def package? : Provider → Option (String × String)
  | tvm _ => some ("tvm", "python/tvm")
  | dgl _ => some ("dgl", "python/dgl")
  | mxnet => some ("mxnet", "python/mxnet")
  | torch => some ("torch", "torch")
  | taichi => some ("taichi", "taichi")
  | noop => none

/-- The provider with the modules below a package root noted. -/
def withRoot (p : Provider) (root : Path) : Provider :=
  match p with
  | tvm _ => tvm (some (.ofRoot root))
  | dgl _ => dgl (some (.ofRoot root))
  | p => p

/-- Sees one file: when it is the `__init__.py` of the package, its directory is noted. -/
def see (p : Provider) (resolver : Resolver) (path : Path) : Provider × Resolver :=
  match p.package? with
  | none => (p, resolver)
  | some (package, marker) =>
    match packageRootOf? path marker with
    | none => (p, resolver)
    | some root => (p.withRoot root, resolver.addPackage package root)

def extract (p : Provider) (resolver : Resolver) (path : Path) (lines : List String)
    (w : Window) : List Fact :=
  match p with
  | tvm paths? => Tvm.extract paths? resolver path lines w
  | dgl paths? => Dgl.extract paths? resolver path lines w
  | mxnet => Mxnet.extract path lines w
  | torch => Torch.extract path lines w
  | taichi => Taichi.extract path lines w
  | noop => []

/-- The uses of a Python file that count under a cursor only. -/
def cursorUses (uses : Path → List String → Window → List Fact) (path : Path)
    (lines : List String) (w : Window) : List Fact :=
  match SourceKind.of path with
  | .python => uses path lines w
  | _ => []

/-- The definition or reference under a cursor, of which only the lines around it are scanned. -/
def factAt (p : Provider) (resolver : Resolver) (path : Path) (lines : List String)
    (cursor : Position) : Option Fact :=
  let w := Window.around cursor.line
  let facts :=
    match p with
    | mxnet => cursorUses Mxnet.uses path lines w
    | torch => cursorUses Torch.uses path lines w
    | p => p.extract resolver path lines w
  Fact.firstTouching facts cursor

/-- The directories that are scanned beside the configured ones. -/
def extraDirs (p : Provider) (root : Path) : List Path :=
  match p with
  | torch =>
    [((root.joinText "aten").joinText "src").joinText "ATen", root.joinText "torch"]
  | taichi => [root.joinText "taichi"]
  | _ => []

end Provider

/-- The providers at work, in the order of their priority. -/
structure Registry where
  providers : List Provider
  deriving Repr, Inhabited

namespace Registry

/-- The providers of the dialects; without any the fallback alone. -/
def ofDialects (dialects : List Dialect) : Registry :=
  match dialects with
  | [] => ⟨[.noop]⟩
  | dialects => ⟨dialects.map Dialect.provider⟩

def names (r : Registry) : List String := r.providers.map Provider.name

def describe (r : Registry) : String :=
  "DialectRegistry \x7b providers: ["
    ++ ", ".intercalate (r.names.map fun name => "\"" ++ name ++ "\"") ++ "] \x7d"

def extraDirs (r : Registry) (root : Path) : List Path :=
  r.providers.flatMap (·.extraDirs root)

def see (r : Registry) (resolver : Resolver) (path : Path) : Registry × Resolver :=
  let (providers, resolver) := r.providers.foldl
    (fun (seen, resolver) p =>
      let (p, resolver) := p.see resolver path
      (seen ++ [p], resolver))
    ([], resolver)
  (⟨providers⟩, resolver)

def seeAll (r : Registry) (resolver : Resolver) (paths : List Path) : Registry × Resolver :=
  paths.foldl (fun (r, resolver) path => r.see resolver path) (r, resolver)

/-- The facts of a file, provider by provider. -/
def extract (r : Registry) (resolver : Resolver) (path : Path) (lines : List String)
    (w : Window) : List Fact :=
  r.providers.flatMap fun p => p.extract resolver path lines w

/-- The fact under a cursor, of the first provider that finds one. -/
def factAt (r : Registry) (resolver : Resolver) (path : Path) (lines : List String)
    (cursor : Position) : Option Fact :=
  r.providers.findSome? fun p => p.factAt resolver path lines cursor

end Registry

end CrossIndex
