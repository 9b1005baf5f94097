import CrossIndex.Dialect.Package
import CrossIndex.Fact
import CrossIndex.Matcher.Decorator
import CrossIndex.Module.Resolver

/-!
The convention of packed functions. Native code registers functions under keys and looks them up by
them; Python modules expose families of keys, register functions of their own, and declare classes
for native types, named by their type keys.
-/

namespace CrossIndex

/-- What a dialect of packed functions calls its things. -/
structure PackedNames where
  package : String
  /-- The names that register native functions. -/
  registrations : List String
  /-- The decorators of classes for native types. -/
  objectDecorators : List String
  deriving Repr

/-- The modules of the Python package that tell real registrations from others. -/
structure PackagePaths where
  init : Path
  functionModule : Path
  internalApi : Path
  deriving Repr, Inhabited

namespace PackagePaths

/-- The modules below a package root. -/
def ofRoot (root : Path) : PackagePaths :=
  let root := modulePath root
  ⟨root.joinText "__init__", (root.joinText "_ffi").joinText "function",
    root.joinText "_api_internal"⟩

end PackagePaths

namespace Packed

/-- The type key of a native class: a constant `_type_key` with a string. -/
def typeKey : Pattern :=
  ⟨.seqs [.blanks, .text "static", .blanks1, .text "constexpr", .one .blank, .text "const",
    .blanks1, .text "char", .blanks, .char '*', .blanks1, .text "_type_key", .blanks, .char '=',
    .blanks, Pattern.quote, Pattern.keyGroup 1, Pattern.quote], [("key", 1)]⟩

/-- Calls that look a function up. -/
def lookup : Pattern := .callSite ["GetPackedFunc", "runtime::Registry::Get"]

/-- Calls that expose a family of keys. -/
def initApi : Pattern := .registration ["_init_api"]

/-- Decorators that register Python functions. -/
def registerFunc : DecoratorMatcher := .ofNames ["register_func"] "def"

/-- Registrations, type keys and lookups in a native source. -/
def native (names : PackedNames) (path : Path) (lines : List String) (w : Window) : List Fact :=
  ((Pattern.registration names.registrations).lineKeys lines w).map
      (fun hit => .define hit.key path hit.range)
    ++ (typeKey.foundInLines lines w).map
      (fun found => .define ("t:" ++ found.named typeKey "key") path found.range)
    ++ (lookup.allKeys lines w).map (fun hit => .refer hit.key path hit.range)

/-- The text without another one at its start. -/
def withoutStart (start text : String) : String :=
  if start.toList.isPrefixOf text.toList then String.ofList (text.toList.drop start.length)
  else text

/-- The export of a call that exposes a family, when the function called is the one of the
package. -/
def familyExport? (names : PackedNames) (paths : PackagePaths) (resolver : Resolver) (path : Path)
    (key : String) : Option Fact :=
  let resolved := resolver.resolve path "_init_api"
  if resolved.module == paths.functionModule ∧ resolved.name? = some "_init_api" then
    some (.exposure ⟨withoutStart (names.package ++ ".") key, path, .namespaced⟩)
  else none

/-- The definition of a registered Python function, when the decorator is the one of the
package. -/
def functionDefinition? (paths : PackagePaths) (resolver : Resolver) (path : Path)
    (hit : KeyHit) : Option Fact :=
  let resolved := resolver.resolve path hit.name
  if (resolved.module == paths.functionModule || resolved.module == paths.init) ∧
      resolved.name? = some "register_func" then
    some (.define hit.key path hit.range)
  else none

/-- Exports, classes for native types and registered functions in a Python source. `typeKeyOf` gives
the type key of a class and its decorator. -/
def python (names : PackedNames) (paths? : Option PackagePaths)
    (typeKeyOf : String → String → String) (resolver : Resolver) (path : Path)
    (lines : List String) (w : Window) : List Fact :=
  (initApi.lineKeys lines w).filterMap
      (fun hit => paths?.bind fun paths => familyExport? names paths resolver path hit.key)
    ++ ((DecoratorMatcher.ofNames names.objectDecorators "class").hits lines w).map
      (fun hit => .refer (typeKeyOf hit.key hit.name) path hit.range)
    ++ (registerFunc.hits lines w).filterMap
      (fun hit => paths?.bind fun paths => functionDefinition? paths resolver path hit)
    ++ (match paths? with
      | some paths =>
        if (modulePath path).startsWith paths.internalApi then [.exposure ⟨"_", path, .identity⟩]
        else []
      | none => [])

end Packed

end CrossIndex
