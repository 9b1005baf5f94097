import CrossIndex.Proofs.Dialect.Roots
import CrossIndex.Proofs.Workspace.Recorded
import Mathlib.Data.List.Pairwise

/-!
Scans in any order. The passes of a scan write into one graph and read what earlier passes have
written. Main statement: when the files are different modules, and no provider finds two files that
show the root of its package, the order of the files makes no difference to what a scan finds; it only
shows in the order of the facts under each key.
-/

namespace CrossIndex

namespace Resolver

/-- Documents of different modules can be recorded in any order. -/
theorem addDocuments_perm (r : Resolver) {sources sources' : List Source} (h : sources.Perm sources')
    (hmodules : ∀ a ∈ sources, ∀ b ∈ sources, a ≠ b →
      (modulePath a.path == modulePath b.path) = false) :
    r.addDocuments sources = r.addDocuments sources' := by
  apply h.foldl_eq'
  intro a ha b hb r
  by_cases hab : a = b
  · rw [hab]
  · exact addDocument_comm (hmodules a ha b hb hab) r a.lines b.lines

end Resolver

namespace Generation

/-- Two scans have found the same: whatever is asked about modules and files has the same answers,
and the index holds the same facts under each key and each module, in some order. -/
structure FindsSame (g g' : Generation) : Prop where
  imports : g.resolver.imports = g'.resolver.imports
  packageRoot? : ∀ name, g.resolver.packageRoot? name = g'.resolver.packageRoot? name
  canonicalModule : ∀ path, g.resolver.canonicalModule path = g'.resolver.canonicalModule path
  resolve : ∀ path expression,
    g.resolver.resolve path expression = g'.resolver.resolve path expression
  extract : ∀ path lines w,
    g.registry.extract g.resolver path lines w = g'.registry.extract g'.resolver path lines w
  defs : ∀ key, (g.index.defs key).Perm (g'.index.defs key)
  refs : ∀ key, (g.index.refs key).Perm (g'.index.refs key)
  exportsOf : ∀ module, (g.index.exportsOf module).Perm (g'.index.exportsOf module)

/-- Two indexes of the same facts hold the same under each key and each module. -/
theorem index_perm {facts facts' : List Fact} (h : facts.Perm facts') :
    (∀ key, ((Index.empty.insertAll facts).defs key).Perm
        ((Index.empty.insertAll facts').defs key)) ∧
      (∀ key, ((Index.empty.insertAll facts).refs key).Perm
        ((Index.empty.insertAll facts').refs key)) ∧
      ∀ module, ((Index.empty.insertAll facts).exportsOf module).Perm
        ((Index.empty.insertAll facts').exportsOf module) := by
  refine ⟨?_, ?_, ?_⟩
  · intro key
    rw [Index.defs_insertAll, Index.defs_insertAll]
    exact ((h.filterMap _).filter _).map _
  · intro key
    rw [Index.refs_insertAll, Index.refs_insertAll]
    exact ((h.filterMap _).filter _).map _
  · intro module
    rw [Index.exportsOf_insertAll, Index.exportsOf_insertAll]
    exact ((h.filterMap _).filter _).map _

/-- Files of different modules can be scanned in any order, when no provider takes two of them to show
the root of its package. -/
theorem ofSources_perm (root : Path) (dialects : List Dialect) {sources sources' : List Source}
    (h : sources.Perm sources')
    (hmodules : sources.Pairwise fun a b => (modulePath a.path == modulePath b.path) = false)
    (hroots : ∀ p ∈ (Registry.ofDialects dialects).providers,
      ((sources.map Source.path).filterMap p.rootOf?).length ≤ 1) :
    (ofSources root dialects sources).FindsSame (ofSources root dialects sources') := by
  have hdiffer : ∀ a ∈ sources, ∀ b ∈ sources, a ≠ b →
      (modulePath a.path == modulePath b.path) = false := by
    have hsymm : Std.Symm fun a b : Source => (modulePath a.path == modulePath b.path) = false :=
      ⟨fun a b hab => BEq.comm.trans hab⟩
    exact fun a ha b hb hab => hmodules.forall ha hb hab
  -- the first pass ends in the same providers and the same graph
  have hseen := (Registry.ofDialects dialects).seeAll_perm .empty (h.map Source.path) hroots
  have hregistry : (ofSources root dialects sources).registry =
      (ofSources root dialects sources').registry := by
    rw [ofSources_registry, ofSources_registry, informed, hseen, informed]
  -- so does the second, as it only adds documents of different modules
  have hresolver : (ofSources root dialects sources).resolver =
      (ofSources root dialects sources').resolver := by
    rw [ofSources_resolver, ofSources_resolver, packageGraph, packageGraph, hseen]
    apply Resolver.addDocuments_perm _ (h.filter _)
    intro a ha b hb
    exact hdiffer a (List.mem_filter.mp ha).1 b (List.mem_filter.mp hb).1
  -- and the third reads the same from each file
  have hindex := index_perm (h.flatMap_right fun source =>
    (ofSources root dialects sources).registry.extract
      (ofSources root dialects sources).resolver source.path source.lines .all)
  rw [← ofSources_index] at hindex
  rw [hregistry, hresolver, ← ofSources_index] at hindex
  obtain ⟨hdefs, hrefs, hexports⟩ := hindex
  constructor
  case imports => rw [hresolver]
  case packageRoot? => exact fun name => by rw [hresolver]
  case canonicalModule => exact fun path => by rw [hresolver]
  case resolve => exact fun path expression => by rw [hresolver]
  case extract => exact fun path lines w => by rw [hregistry, hresolver]
  case defs => exact hdefs
  case refs => exact hrefs
  case exportsOf => exact hexports

/-- A module that imports its package by name, and comes after the package in the order of paths, and a native
file with a function of the family that the module exposes. -/
def operatorSources : List Source :=
  [⟨.ofString "/r/python/tvm/__init__.py", ["from . import relay"]⟩,
    ⟨.ofString "/r/python/tvm/_ffi/function.py", ["def _init_api(prefix):"]⟩,
    ⟨.ofString "/r/python/tvm/relay/op.py",
      ["from tvm._ffi.function import _init_api", "_init_api(\"tvm.relay.op\")"]⟩,
    ⟨.ofString "/r/src/op.cc", ["TVM_REGISTER_GLOBAL(\"relay.op.add\")"]⟩]

/-- The scans find a definition, an export and an import. -/
theorem ofSources_perm_operatorSources :
    let root := Path.ofString "/r"
    let g' := ofSources root [.tvm, .dgl] operatorSources.reverse
    (operatorSources.Perm operatorSources.reverse ∧
      (operatorSources.Pairwise fun a b => (modulePath a.path == modulePath b.path) = false) ∧
      ∀ p ∈ (Registry.ofDialects [.tvm, .dgl]).providers,
        ((operatorSources.map Source.path).filterMap p.rootOf?).length ≤ 1) ∧
      (ofSources root [.tvm, .dgl] operatorSources).FindsSame g' ∧
        g'.index.defs "relay.op.add" =
          [⟨"relay.op.add", .ofString "/r/src/op.cc", .onLine 0 21 33⟩] ∧
        g'.index.exportsOf (.ofString "/r/python/tvm/relay/op") =
          [⟨"relay.op", .ofString "/r/python/tvm/relay/op.py", .namespaced⟩] ∧
        g'.resolver.resolve (.ofString "/r/python/tvm/relay/op") "_init_api" =
          ⟨.ofString "/r/python/tvm/_ffi/function", some "_init_api"⟩ := by
  intro root g'
  have hreverse := operatorSources.reverse_perm.symm
  have hmodules : operatorSources.Pairwise fun a b =>
      (modulePath a.path == modulePath b.path) = false := by decide +kernel
  have hroots : ∀ p ∈ (Registry.ofDialects [.tvm, .dgl]).providers,
      ((operatorSources.map Source.path).filterMap p.rootOf?).length ≤ 1 := by decide +kernel
  have hsame := ofSources_perm root [.tvm, .dgl] hreverse hmodules hroots
  have hdefs : g'.index.defs "relay.op.add" =
      [⟨"relay.op.add", .ofString "/r/src/op.cc", .onLine 0 21 33⟩] := by
    decide +kernel
  have hexports : g'.index.exportsOf (.ofString "/r/python/tvm/relay/op") =
      [⟨"relay.op", .ofString "/r/python/tvm/relay/op.py", .namespaced⟩] := by
    decide +kernel
  have hresolve : g'.resolver.resolve (.ofString "/r/python/tvm/relay/op") "_init_api" =
      ⟨.ofString "/r/python/tvm/_ffi/function", some "_init_api"⟩ := by
    decide +kernel
  exact ⟨⟨hreverse, hmodules, hroots⟩, hsame, hdefs, hexports, hresolve⟩

end Generation

end CrossIndex
