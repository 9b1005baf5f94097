import CrossIndex.Proofs.Dialect.Exports
import CrossIndex.Proofs.Dialect.Package
import CrossIndex.Proofs.Index
import CrossIndex.Proofs.Module.Graph
import CrossIndex.Workspace.Generation

/-!
What a generation has recorded. Main statements: its import graph is ordered, and plain when the
modules of its documents are, and every module that exports keys was recorded.
-/

namespace CrossIndex

namespace Resolver

/-- Records sources one after the other. -/
def addDocuments (r : Resolver) (sources : List Source) : Resolver :=
  sources.foldl (fun r source => r.addDocument source.path source.lines) r

variable {r : Resolver} {sources : List Source}

theorem Ordered.addDocuments (h : r.Ordered) (sources : List Source) :
    (r.addDocuments sources).Ordered := by
  induction sources generalizing r with
  | nil => exact h
  | cons source sources ih => exact ih (h.addDocument source.path source.lines)

theorem Plain.addDocuments (h : r.Plain)
    (hm : ∀ source ∈ sources, (modulePath source.path).IsPlain) :
    (r.addDocuments sources).Plain := by
  induction sources generalizing r with
  | nil => exact h
  | cons source sources ih =>
    exact ih (h.addDocument (hm source List.mem_cons_self) source.lines)
      fun s hs => hm s (List.mem_cons_of_mem _ hs)

/-- All sources have been recorded in the end, besides what there was before. -/
theorem contains_addDocuments {m : Path}
    (h : r.bindings.contains m = true ∨ ∃ source ∈ sources, (m == modulePath source.path) = true) :
    (r.addDocuments sources).bindings.contains m = true := by
  -- the first source moves to what there was before, which later documents never remove
  induction sources generalizing r with
  | nil =>
    rcases h with hold | ⟨source, hmem, -⟩
    · exact hold
    · cases hmem
  | cons first sources ih =>
    apply ih
    rw [contains_addDocument, Bool.or_eq_true]
    rcases h with hold | ⟨source, hmem, hm⟩
    · exact Or.inl (Or.inr hold)
    · rcases List.mem_cons.mp hmem with rfl | hmem
      · exact Or.inl (Or.inl hm)
      · exact Or.inr ⟨source, hmem, hm⟩

end Resolver

namespace Generation

variable (root : Path) (dialects : List Dialect) (sources : List Source)

/-- The graph of package roots that the providers have noted. -/
def packageGraph : Resolver :=
  ((Registry.ofDialects dialects).seeAll .empty (sources.map Source.path)).2

/-- The sources that are recorded as documents. -/
def documents : List Source :=
  sources.filter fun source => SourceKind.of source.path = .python

theorem ofSources_resolver :
    (ofSources root dialects sources).resolver =
      (packageGraph dialects sources).addDocuments (documents sources) := rfl

/-- The providers once they have seen all files. -/
def informed : Registry :=
  ((Registry.ofDialects dialects).seeAll .empty (sources.map Source.path)).1

theorem ofSources_registry :
    (ofSources root dialects sources).registry = informed dialects sources := rfl

theorem ofSources_index :
    (ofSources root dialects sources).index =
      Index.empty.insertAll (sources.flatMap fun source =>
        (ofSources root dialects sources).registry.extract
          (ofSources root dialects sources).resolver source.path source.lines .all) := rfl

variable {dialects sources} in
/-- A generation is put together from its graph and its facts. -/
theorem ofSources_eq {graph : Resolver} {facts : List Fact}
    (hgraph : (packageGraph dialects sources).addDocuments (documents sources) = graph)
    (hfacts : (sources.flatMap fun source =>
      (informed dialects sources).extract graph source.path source.lines .all) = facts) :
    ofSources root dialects sources =
      ⟨root, informed dialects sources, graph, Index.empty.insertAll facts, sources.length⟩ := by
  rw [← hfacts, ← hgraph]
  rfl

/-- Before any document is recorded a graph holds nothing but the roots of packages. -/
theorem packageGraph_cases :
    (packageGraph dialects sources).bindings = .empty ∧
      (packageGraph dialects sources).inits = .empty ∧
        ∀ entry ∈ (packageGraph dialects sources).packages.entries,
          ∃ source ∈ sources, ∃ marker directory,
            packageRootOf? source.path marker = some directory ∧ entry.2 = modulePath directory := by
  refine Registry.seeAll_induction
    (motive := fun r => r.bindings = .empty ∧ r.inits = .empty ∧ ∀ entry ∈ r.packages.entries,
      ∃ source ∈ sources, ∃ marker directory,
        packageRootOf? source.path marker = some directory ∧ entry.2 = modulePath directory)
    ?_ _ ⟨rfl, rfl, fun entry h => by cases h⟩
  rintro r package directory path marker hpath hroot ⟨hbindings, hinits, hpackages⟩
  refine ⟨hbindings, hinits, ?_⟩
  intro entry hmem
  rcases SortedTable.mem_insert hmem with hold | ⟨hnew, -⟩
  · exact hpackages entry hold
  · obtain ⟨source, hs, rfl⟩ := List.mem_map.mp hpath
    exact ⟨source, hs, marker, directory, hroot, hnew⟩

theorem ordered_resolver : (ofSources root dialects sources).resolver.Ordered := by
  obtain ⟨hbindings, -, -⟩ := packageGraph_cases dialects sources
  rw [ofSources_resolver]
  refine Resolver.Ordered.addDocuments ⟨?_, ?_⟩ _
  · rw [hbindings]
    exact SortedTable.ordered_empty
  · rw [hbindings]
    intro entry h
    cases h

variable {sources}

theorem contains_of_python {source : Source} (h : source ∈ sources)
    (hpy : SourceKind.of source.path = .python) :
    (ofSources root dialects sources).resolver.bindings.contains (modulePath source.path) = true :=
  Resolver.contains_addDocuments
    (Or.inr ⟨source, List.mem_filter.mpr ⟨h, by simpa using hpy⟩, BEq.rfl⟩)

/-- When all recorded modules are plain, then so are package roots and what imports lead to. -/
theorem plain_resolver
    (h : ∀ m ∈ (ofSources root dialects sources).resolver.modules, m.IsPlain) :
    (ofSources root dialects sources).resolver.Plain := by
  have hpython : ∀ source ∈ sources, SourceKind.of source.path = .python →
      (modulePath source.path).IsPlain :=
    fun source hs hpy => Resolver.isPlain_of_contains h (contains_of_python root dialects hs hpy)
  obtain ⟨hbindings, hinits, hpackages⟩ := packageGraph_cases dialects sources
  rw [ofSources_resolver]
  refine Resolver.Plain.addDocuments ⟨?_, ?_, ?_⟩ ?_
  · -- a package is known from a Python file, which was recorded as well
    intro entry hmem
    obtain ⟨source, hs, marker, directory, hroot, hentry⟩ := hpackages entry hmem
    rw [hentry]
    exact isPlain_of_packageRootOf? hroot
      (hpython source hs (python_of_packageRootOf? hroot))
  · rw [hinits]
    intro entry hmem
    cases hmem
  · intro i hi
    obtain ⟨names, hmem, -⟩ := Resolver.mem_imports.mp hi
    rw [hbindings] at hmem
    cases hmem
  · intro source hmem
    obtain ⟨hs, hpy⟩ := List.mem_filter.mp hmem
    exact hpython source hs (by simpa using hpy)

/-- A module that exports keys was recorded. -/
theorem contains_of_mem_allExports {module : Path} {e : Export}
    (h : (module, e) ∈ (ofSources root dialects sources).index.allExports) :
    (ofSources root dialects sources).resolver.bindings.contains module = true := by
  obtain ⟨e', he, rfl⟩ := Index.exists_exposure_of_mem_allExports h
  obtain ⟨source, hs, hextract⟩ := List.mem_flatMap.mp he
  obtain ⟨hpy, hpath⟩ := Registry.python_of_exposure hextract
  rw [hpath]
  exact contains_of_python root dialects hs hpy

theorem filterMap_source? {tree : FileTree}
    (h : ∀ source ∈ sources, source? tree source.path = some source) :
    (sources.map Source.path).filterMap (source? tree) = sources := by
  induction sources with
  | nil => rfl
  | cons source sources ih =>
    rw [List.map_cons, List.filterMap_cons, h source List.mem_cons_self,
      ih fun other hother => h other (List.mem_cons_of_mem _ hother)]

theorem build_of_files {tree : FileTree} {plan : Plan} {files : List Path}
    (h : Scan.files tree (directories plan) plan.settings.extensions = .ok files) :
    build tree plan =
      .ok (ofSources plan.root plan.dialects (files.filterMap (source? tree))) := by
  rw [build, h]
  rfl

theorem exists_sources_of_build {tree : FileTree} {plan : Plan} {g : Generation}
    (h : build tree plan = .ok g) : ∃ sources, g = ofSources plan.root plan.dialects sources := by
  cases hf : Scan.files tree (directories plan) plan.settings.extensions with
  | error glob =>
    rw [build, hf] at h
    cases h
  | ok files =>
    rw [build_of_files hf] at h
    cases h
    exact ⟨_, rfl⟩

/-- The generation was made from sources, as every scan makes one. -/
def IsScanned (g : Generation) : Prop :=
  ∃ root dialects sources, g = ofSources root dialects sources

theorem isScanned_of_build {tree : FileTree} {plan : Plan} {g : Generation}
    (h : build tree plan = .ok g) : g.IsScanned := by
  obtain ⟨sources, hg⟩ := exists_sources_of_build h
  exact ⟨plan.root, plan.dialects, sources, hg⟩

/-- A name has the definitions of one key, which an export of the module, or of the module that this
stands for, gives it. -/
theorem exists_export_of_mem_definitionsOf {g : Generation} {module : Path} {name : String}
    {d : Definition} (hd : d ∈ g.definitionsOf module name) :
    ∃ source ∈ [module, g.resolver.canonicalModule module],
      ∃ e ∈ g.index.exportsOf source,
        g.definitionsOf module name = g.index.defs (e.keyOf name) := by
  rw [definitionsOf] at hd ⊢
  generalize hmodules : (if (g.resolver.canonicalModule module == module) = true then [module]
    else [module, g.resolver.canonicalModule module]) = modules at hd ⊢
  have hsub : modules ⊆ [module, g.resolver.canonicalModule module] := by
    rw [← hmodules]
    split
    · exact List.cons_subset_cons _ (List.nil_subset _)
    · exact List.Subset.refl _
  cases hfind : ((modules.flatMap g.index.exportsOf).map fun e =>
      g.index.defs (e.keyOf name)).find? (· ≠ []) with
  | none =>
    rw [hfind] at hd
    cases hd
  | some definitions =>
    obtain ⟨e, he, rfl⟩ := List.mem_map.mp (List.mem_of_find?_eq_some hfind)
    obtain ⟨source, hsource, hexport⟩ := List.mem_flatMap.mp he
    exact ⟨source, hsub hsource, e, hexport, rfl⟩

end Generation

end CrossIndex
