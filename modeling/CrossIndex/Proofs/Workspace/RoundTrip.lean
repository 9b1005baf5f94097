import CrossIndex.Proofs.Location
import CrossIndex.Proofs.Module.Resolution
import CrossIndex.Proofs.Scan.Files
import CrossIndex.Proofs.Workspace.History
import CrossIndex.Proofs.Workspace.SourceFiles

/-!
From definitions back to references. Definitions are found through any chain of imports, but terms for
a key go back over one import alone. Main statements: the uses that a file makes through an import of
its own are among the references to the keys of their definitions, and the uses in the module that
exports a key are not.
-/

namespace CrossIndex

/-! ### Files of a scan -/

theorem Registry.isAbsolute_of_mem_extraDirs {r : Registry} {root directory : Path}
    (hroot : root.isAbsolute = true) (h : directory ∈ r.extraDirs root) :
    directory.isAbsolute = true := by
  obtain ⟨p, -, hp⟩ := List.mem_flatMap.mp h
  cases p with
  | torch =>
    rcases List.mem_cons.mp hp with rfl | hp
    · exact Path.isAbsolute_foldl_joinText hroot ["aten", "src", "ATen"]
    · rw [List.mem_singleton.mp hp]
      exact Path.isAbsolute_joinText hroot "torch"
  | taichi =>
    rw [List.mem_singleton.mp hp]
    exact Path.isAbsolute_joinText hroot "taichi"
  | _ => cases hp

namespace Plan

/-- A plan starts from the place that its root leads to. -/
theorem exists_place_of_ofRoot {tree : FileTree} {root : Path} {plan : Plan}
    (h : ofRoot tree root = .ok plan) :
    ∃ place, tree.locate? root = some place ∧ plan.root = .ofPlace place := by
  rw [ofRoot] at h
  split at h
  · next hdir =>
    obtain ⟨settings, -, hsettings⟩ := exists_of_bind h
    obtain ⟨dialects, -, hdialects⟩ := exists_of_bind hsettings
    cases hdialects
    cases hplace : tree.locate? root with
    | none =>
      rw [FileTree.isDirectory, FileTree.entry?, hplace] at hdir
      cases hdir
    | some place =>
      refine ⟨place, rfl, ?_⟩
      rw [FileTree.canonical?, hplace]
      rfl
  · cases h

theorem isAbsolute_root {tree : FileTree} {root : Path} {plan : Plan}
    (h : ofRoot tree root = .ok plan) : plan.root.isAbsolute = true := by
  obtain ⟨place, -, hroot⟩ := exists_place_of_ofRoot h
  rw [hroot]
  exact FileTree.isAbsolute_ofPlace place

/-- The file is one that a scan reads. -/
structure Reads (plan : Plan) (tree : FileTree) (file : Source) : Prop where
  found : ∃ files, Scan.files tree (Generation.directories plan) plan.settings.extensions =
    .ok files ∧ file.path ∈ files
  readable : Generation.source? tree file.path = some file

variable {plan : Plan} {tree : FileTree} {file : Source}

theorem Reads.isAbsolute (h : plan.Reads tree file) (hroot : plan.root.isAbsolute = true) :
    file.path.isAbsolute = true := by
  obtain ⟨files, hfiles, hmem⟩ := h.found
  refine Scan.isAbsolute_of_mem_files ?_ hfiles hmem
  intro directory hdirectory
  exact Scan.isAbsolute_of_mem_directories hroot
    (fun _ => Registry.isAbsolute_of_mem_extraDirs hroot) hdirectory

theorem Reads.exists_place (h : plan.Reads tree file) :
    ∃ place, tree.locate? file.path = some place :=
  Generation.exists_place_of_source? h.readable

/-- The file is read again from its module path. -/
theorem Reads.source?_sourceFile (h : plan.Reads tree file)
    (habs : file.path.isAbsolute = true) (hpython : SourceKind.of file.path = .python)
    {place : Place} (hplace : tree.locate? file.path = some place) :
    Generation.source? tree (sourceFile (modulePath file.path)) =
      some ⟨.ofPlace place, file.lines⟩ := by
  rw [Generation.source?_sourceFile habs hpython h.readable,
    FileTree.sourceFile_modulePath habs hpython hplace]

end Plan

/-! ### One generation -/

namespace Generation

variable {g : Generation} {path : Path} {expression : String} {d : Definition}

theorem IsScanned.ordered (hg : g.IsScanned) : g.resolver.Ordered := by
  obtain ⟨root, dialects, sources, rfl⟩ := hg
  exact ordered_resolver root dialects sources

/-- Files of one module see the same. -/
theorem findDefs_congr {p q : Path} (hp : p.isAbsolute = true) (hq : q.isAbsolute = true)
    (h : modulePath p = modulePath q) (expression : String) :
    g.findDefs p expression = g.findDefs q expression := by
  have hsame : g.resolver.resolve p expression = g.resolver.resolve q expression := by
    rw [Resolver.resolve, Resolver.resolve, Resolver.rooted_of_isAbsolute hp,
      Resolver.rooted_of_isAbsolute hq, h]
  rw [findDefs, findDefs, hsame]

/-- The modules in which the definitions of an expression are looked for: the one that it leads to,
and the one that this stands for. -/
def sourcesOf (g : Generation) (path : Path) (expression : String) : List Path :=
  let target := g.resolver.resolve path expression
  [target.module, g.resolver.canonicalModule target.module]

/-- A definition is found through an export of one of these modules, under the key that its variable
exposes. -/
theorem exists_export_of_mem_findDefs (hg : g.IsScanned) (hd : d ∈ g.findDefs path expression) :
    ∃ name ∈ (g.resolver.resolve path expression).name?,
      ∃ source ∈ g.sourcesOf path expression,
        ∃ e ∈ g.index.exportsOf source, e.keyOf name = d.key := by
  rw [findDefs] at hd
  rw [sourcesOf]
  split at hd
  · cases hd
  · next module name hresolve =>
    rw [hresolve]
    obtain ⟨source, hsource, e, hexport, hdefs⟩ := exists_export_of_mem_definitionsOf hd
    rw [hdefs] at hd
    obtain ⟨root, dialects, sources, rfl⟩ := hg
    exact ⟨name, rfl, source, hsource, e, hexport, (Index.key_of_mem_defs hd).symm⟩

/-- The import has bound the variable of a module, by its name. -/
def bindsVariable (g : Generation) (i : RecordedImport) (source : Path) (name : String) : Bool :=
  i.target.name? = some name && g.resolver.canonicalModule i.target.module == source

/-- The import has bound a module, which was imported for itself or as a name of its package. -/
def bindsModule (g : Generation) (i : RecordedImport) (source : Path) : Bool :=
  match i.target.name? with
  | some imported => g.resolver.canonicalModule (i.target.module.joinText imported) == source
  | none => g.resolver.canonicalModule i.target.module == source

/-- The expression is what the file calls the variable of a module after an import of its own: the
name that was bound to the variable, or the variable as an attribute of the module. -/
def Imports (g : Generation) (path : Path) (expression : String) (source : Path) (name : String) :
    Prop :=
  ∃ i ∈ g.resolver.imports, i.importer = modulePath path ∧
    if g.bindsVariable i source name then expression = i.bound
    else g.bindsModule i source = true ∧ expression = i.bound ++ "." ++ name

theorem Imports.exists_importTerm {source : Path} {name : String}
    (h : g.Imports path expression source name) :
    ∃ i ∈ g.resolver.imports, i.importer = modulePath path ∧
      g.importTerm source name i.bound i.target = some expression := by
  obtain ⟨i, hi, himporter, hwritten⟩ := h
  refine ⟨i, hi, himporter, ?_⟩
  obtain ⟨importer, bound, target, name?⟩ := i
  rw [importTerm]
  cases name? with
  | none =>
    have hunbound : g.bindsVariable ⟨importer, bound, target, none⟩ source name = false := by
      simp [bindsVariable]
    rw [hunbound, if_neg (by simp)] at hwritten
    obtain ⟨hmodule, rfl⟩ := hwritten
    exact if_pos hmodule
  | some imported =>
    dsimp only
    by_cases hvariable : g.bindsVariable ⟨importer, bound, target, some imported⟩ source name = true
    · rw [if_pos hvariable] at hwritten
      obtain rfl : expression = bound := hwritten
      obtain ⟨rfl, hcanonical⟩ : imported = name ∧
          (g.resolver.canonicalModule target == source) = true := by
        simpa [bindsVariable] using hvariable
      rw [if_pos (by simp [hcanonical])]
    · rw [if_neg hvariable] at hwritten
      obtain ⟨hmodule, rfl⟩ := hwritten
      have hother : ¬((g.resolver.canonicalModule target == source && decide (imported = name)) =
          true) := by
        intro hc
        exact hvariable (by simpa [bindsVariable, and_comm] using hc)
      rw [if_neg hother]
      exact if_pos hmodule

/-- The expression leads from the file to the key over one import: each export that exposes the key
there covers it, and the file has imported its module, or its variable. -/
def LeadsDirectly (g : Generation) (path : Path) (expression key : String) : Prop :=
  ∀ name ∈ (g.resolver.resolve path expression).name?, ∀ source ∈ g.sourcesOf path expression,
    ∀ e ∈ g.index.exportsOf source, e.keyOf name = key →
      e.covers key = true ∧ g.Imports path expression source name

instance (source : Path) (name : String) : Decidable (g.Imports path expression source name) :=
  inferInstanceAs (Decidable (∃ i ∈ g.resolver.imports, _ ∧ _))

instance (key : String) : Decidable (g.LeadsDirectly path expression key) :=
  inferInstanceAs (Decidable (∀ name ∈ (g.resolver.resolve path expression).name?, _))

/-- An expression that leads directly to a definition is one of the terms that stand for its key. -/
theorem mem_searchTerms_of_mem_findDefs (hg : g.IsScanned) (hd : d ∈ g.findDefs path expression)
    (hdirect : g.LeadsDirectly path expression d.key) :
    (modulePath path, expression) ∈ g.searchTerms d.key := by
  obtain ⟨name, hname, source, hsource, e, he, hkey⟩ := exists_export_of_mem_findDefs hg hd
  obtain ⟨hcovers, himports⟩ := hdirect name hname source hsource e he hkey
  obtain ⟨i, hi, himporter, hterm⟩ := himports.exists_importTerm
  obtain ⟨listed, hlisted, hsame⟩ := GroupTable.exists_mem_toList_of_mem_get he
  refine mem_searchTerms.mpr ⟨listed, e, hlisted, hcovers, i, hi, himporter, ?_⟩
  -- the export leads from the key back to the variable
  rw [← hkey, Export.variableOf_keyOf, importTerm_congr hsame, hterm]

end Generation

/-! ### References at a cursor -/

namespace Query

variable {g? : Option Generation} {tree : FileTree} {path : Path} {lines : List String}
  {cursor : Position} {expression : String}

/-- At a cursor on an expression the references to the keys of all its definitions are given, but only
one of those in one place. -/
theorem exists_mem_referencesAt
    (hfact : (factAt tree path lines cursor).against g? = some (.symbol expression))
    {d : Definition} (hd : d ∈ (findDefs tree path expression).against g?) {r : Reference}
    (hr : r ∈ (findRefs tree d.key).against g?) :
    ∃ l ∈ (referencesAt tree path lines cursor).against g?,
      (Location.ofReference r == l) = true := by
  have hkeys : (keysAt tree path lines cursor).against g? =
      firstOccurrences id (((findDefs tree path expression).against g?).map Definition.key) := by
    rw [keysAt, against_bind, hfact, against_bind]
    rfl
  have hdefined : d.key ∈ ((findDefs tree path expression).against g?).map Definition.key :=
    List.mem_map_of_mem hd
  obtain ⟨key, hkey, hsame⟩ := exists_mem_firstOccurrences id hdefined
  obtain rfl : d.key = key := eq_of_beq hsame
  rw [referencesAt, against_bind, hkeys, against_bind, against_mapM]
  exact exists_mem_firstOccurrences id
    (List.mem_map_of_mem (List.mem_flatten.mpr ⟨_, List.mem_map_of_mem hkey, hr⟩))

end Query

/-! ### Workspaces on a tree that has not changed -/

namespace Workspace

variable {w : Workspace} {plan : Plan} {g : Generation} {tree : FileTree}

/-- A scan of a tree that has not changed publishes the same generation again. -/
theorem refresh_generation? (hw : w.published? = some ⟨plan, g⟩)
    (hbuild : Generation.build tree plan = .ok g) : (w.refresh tree).generation? = some g := by
  have hgeneration : ∀ v : Workspace, v.published? = some ⟨plan, g⟩ → v.generation? = some g := by
    intro v hv
    rw [generation?, hv]
    rfl
  apply hgeneration
  cases hr : w.reloadRequested with
  | false => rw [w.refresh_of_not_requested tree hr, hw]
  | true =>
    rw [w.refresh_of_requested tree hr, reload, takeRequest_published?, hw]
    change (w.takeRequest.scan tree plan).1.published? = _
    rw [scan, hbuild, publish_published?]

theorem run_of_build {α : Type} (hw : w.published? = some ⟨plan, g⟩)
    (hbuild : Generation.build tree plan = .ok g) (q : Query α) :
    (q.run tree w).1 = q.against (some g) := by
  rw [Query.run_eq, refresh_generation? hw hbuild]

theorem run_findDefs (hw : w.published? = some ⟨plan, g⟩)
    (hbuild : Generation.build tree plan = .ok g) (path : Path) (expression : String) :
    ((Query.findDefs tree path expression).run tree w).1 =
      g.findDefs (Query.queryPath tree path) expression :=
  run_of_build hw hbuild _

theorem run_findRefs (hw : w.published? = some ⟨plan, g⟩)
    (hbuild : Generation.build tree plan = .ok g) (key : String) :
    ((Query.findRefs tree key).run tree w).1 = g.findRefs tree key :=
  run_of_build hw hbuild _

/-- What is published was planned from a root. -/
theorem isAbsolute_root_after {h : List Moment} (hw : (empty.after h).published? = some ⟨plan, g⟩) :
    plan.root.isAbsolute = true := by
  have hplan := (records_after h).plan
  rw [hw] at hplan
  obtain ⟨m, -, hm⟩ := List.exists_of_findSome?_eq_some hplan.symm
  obtain ⟨hplanned, -⟩ := Option.filter_eq_some_iff.mp hm
  rw [Moment.planned?] at hplanned
  split at hplanned
  · exact Plan.isAbsolute_root (eq_ok_of_toOption hplanned)
  · cases hplanned

/-- In a started workspace on a tree that has not changed since its scan, a file that is led directly
to a definition has each of its uses found among the references to the key. When the expression is the
only term that the file has for the key, the reference is the use itself; otherwise a longer term may
take its place, or one that began before it. A cursor on the expression gives all these references. -/
theorem findRefs_of_findDefs {h : List Moment}
    (hw : (empty.after h).published? = some ⟨plan, g⟩)
    (hbuild : Generation.build tree plan = .ok g) {file : Source} (hfile : plan.Reads tree file)
    (hpython : SourceKind.of file.path = .python) {expression : String} {d : Definition}
    (hd : d ∈ ((Query.findDefs tree file.path expression).run tree (empty.after h)).1)
    (hdirect : g.LeadsDirectly file.path expression d.key) :
    let references := ((Query.findRefs tree d.key).run tree (empty.after h)).1
    ∃ path, tree.canonical? file.path = some path ∧
      (∀ range ∈ Python.findTokens file.lines [expression],
        (∃ r ∈ references, r.key = d.key ∧ r.path = path ∧ r.range.touches range.start = true) ∧
          ((∀ term, (modulePath file.path, term) ∈ g.searchTerms d.key → term = expression) →
            ⟨d.key, path, range⟩ ∈ references)) ∧
      ∀ lines cursor,
        ((Query.factAt tree file.path lines cursor).run tree (empty.after h)).1 =
            some (.symbol expression) →
          ∀ r ∈ references,
            ∃ l ∈ ((Query.referencesAt tree file.path lines cursor).run tree (empty.after h)).1,
              (Location.ofReference r == l) = true := by
  intro references
  have hreferences : references = g.findRefs tree d.key := run_findRefs hw hbuild _
  have habs := hfile.isAbsolute (isAbsolute_root_after hw)
  obtain ⟨place, hplace⟩ := hfile.exists_place
  have hcanonical : tree.canonical? file.path = some (.ofPlace place) := by
    rw [FileTree.canonical?, hplace]
    rfl
  have hg := Generation.isScanned_of_build hbuild
  -- the query resolves from the canonical path, which is of the same module as the file
  have hfinds : d ∈ g.findDefs file.path expression := by
    have hquery : Query.queryPath tree file.path = .ofPlace place := by
      rw [Query.queryPath, hcanonical]
    rw [run_findDefs hw hbuild, hquery] at hd
    rwa [Generation.findDefs_congr (FileTree.isAbsolute_ofPlace place) habs
      (FileTree.modulePath_ofPlace habs hplace)] at hd
  have hterm := Generation.mem_searchTerms_of_mem_findDefs hg hfinds hdirect
  have hsource := hfile.source?_sourceFile habs hpython hplace
  refine ⟨.ofPlace place, hcanonical, ?_, ?_⟩
  · intro range hrange
    rw [hreferences, ← FileTree.sourceFile_modulePath habs hpython hplace]
    exact Generation.findRefs_of_mem_searchTerms hg.ordered hterm hsource hrange
  · intro lines cursor hfact r hr
    rw [run_of_build hw hbuild] at hfact hd ⊢
    have hr' : r ∈ (Query.findRefs tree d.key).against (some g) := by
      rwa [← run_of_build hw hbuild]
    exact Query.exists_mem_referencesAt hfact hd hr'

/-! ### A package -/

deriving instance DecidableEq for SortedTable, Resolver, Source, Plan

/-- The module that exports the internal functions of the package, and uses one of them itself. -/
def exporter : Source := ⟨.ofString "/python/dgl/_api_internal.py", ["x = _Get(g)"]⟩

/-- A module that imports this function from it. -/
def importer : Source :=
  ⟨.ofString "/python/dgl/sample.py", ["from ._api_internal import _Get", "y = _Get(g)"]⟩

def packageInit : Source := ⟨.ofString "/python/dgl/__init__.py", []⟩

def nativeSource : Source :=
  ⟨.ofString "/python/get.cc", ["DGL_REGISTER_GLOBAL(\"_Get\")"]⟩

def apiSources : List Source := [packageInit, exporter, importer, nativeSource]

/-- The tree of these files. Every line of them ends in a line feed. -/
def apiTree : FileTree :=
  apiSources.foldl
    (fun tree source => tree.write source.path.segments.tail
      (source.lines.flatMap fun line => Text.encodeUtf8 line ++ [10])) .empty

def apiPlan : Plan := ⟨.ofPlace [], .default, [.dgl]⟩

/-- The imports of the package. -/
def apiGraph : Resolver :=
  let module (name : String) : Path := .ofString ("/python/dgl/" ++ name)
  { bindings := ⟨[(module "__init__", .empty),
      (module "_api_internal", .empty),
      (module "sample", ⟨[("_Get", ⟨module "_api_internal", some "_Get"⟩)]⟩)]⟩
    inits := ⟨[(.ofString "/python/dgl", module "__init__")]⟩
    packages := ⟨[("dgl", .ofString "/python/dgl")]⟩ }

def getDefinition : Definition := ⟨"_Get", nativeSource.path, .onLine 0 21 25⟩

/-- What the scan of the tree finds. -/
def apiScan : Generation :=
  { root := apiPlan.root
    registry := Generation.informed apiPlan.dialects apiSources
    resolver := apiGraph
    index := Index.empty.insertAll
      [.exposure ⟨"_", exporter.path, .identity⟩, .definition getDefinition]
    fileCount := apiSources.length }

/-- The workspace is started on the tree, and nothing happens after that. -/
def apiHistory : List Moment := [⟨apiTree, .start (.ofString "/")⟩]

theorem files_api :
    Scan.files apiTree (Generation.directories apiPlan) apiPlan.settings.extensions =
      .ok (apiSources.map Source.path) := by
  have hfound : ((Generation.directories apiPlan).mapM
      (Scan.filesBelow .texts apiTree apiPlan.settings.extensions)).toOption =
        some [[], [], apiSources.map Source.path] := by decide +kernel
  have hdistinct : firstOccurrences id [[], [], apiSources.map Source.path].flatten =
      apiSources.map Source.path := by decide +kernel
  rw [Scan.files_of_pairwise (eq_ok_of_toOption hfound) (by decide +kernel), hdistinct]

theorem source?_api :
    ∀ source ∈ apiSources, Generation.source? apiTree source.path = some source := by
  have hinit : Generation.source? apiTree packageInit.path = some packageInit := by decide +kernel
  have hexporter : Generation.source? apiTree exporter.path = some exporter := by decide +kernel
  have himporter : Generation.source? apiTree importer.path = some importer := by decide +kernel
  have hnative : Generation.source? apiTree nativeSource.path = some nativeSource := by
    decide +kernel
  simp [apiSources, hinit, hexporter, himporter, hnative]

theorem reads_api {source : Source} (h : source ∈ apiSources) : apiPlan.Reads apiTree source :=
  ⟨⟨_, files_api, List.mem_map_of_mem h⟩, source?_api source h⟩

theorem build_api : Generation.build apiTree apiPlan = .ok apiScan := by
  have hgraph : (Generation.packageGraph apiPlan.dialects apiSources).addDocuments
      (Generation.documents apiSources) = apiGraph := by decide +kernel
  -- the exporter and the native source hold one fact each
  have hinit : apiScan.registry.extract apiGraph packageInit.path packageInit.lines .all = [] := by
    decide +kernel
  have hexporter : apiScan.registry.extract apiGraph exporter.path exporter.lines .all =
      [.exposure ⟨"_", exporter.path, .identity⟩] := by decide +kernel
  have himporter : apiScan.registry.extract apiGraph importer.path importer.lines .all = [] := by
    decide +kernel
  have hnative : apiScan.registry.extract apiGraph nativeSource.path nativeSource.lines .all =
      [.definition getDefinition] := by decide +kernel
  have hfacts : (apiSources.flatMap fun source =>
      apiScan.registry.extract apiGraph source.path source.lines .all) =
        [.exposure ⟨"_", exporter.path, .identity⟩, .definition getDefinition] := by
    simp [apiSources, hinit, hexporter, himporter, hnative]
  rw [Generation.build_of_files files_api, Generation.filterMap_source? source?_api,
    Generation.ofSources_eq _ hgraph hfacts, apiScan]

theorem published_api : (empty.after apiHistory).published? = some ⟨apiPlan, apiScan⟩ := by
  have hplan : (Plan.ofRoot apiTree (.ofString "/")).toOption = some apiPlan := by decide +kernel
  rw [apiHistory]
  exact empty.published?_of_start hplan build_api

theorem findRefs_of_findDefs_importer :
    getDefinition ∈ ((Query.findDefs apiTree importer.path "_Get").run apiTree
        (empty.after apiHistory)).1 ∧
      apiScan.LeadsDirectly importer.path "_Get" "_Get" ∧
      .onLine 1 4 8 ∈ Python.findTokens importer.lines ["_Get"] ∧
      ⟨"_Get", importer.path, .onLine 1 4 8⟩ ∈
        ((Query.findRefs apiTree "_Get").run apiTree (empty.after apiHistory)).1 ∧
      ∃ l ∈ ((Query.referencesAt apiTree importer.path importer.lines ⟨1, 6⟩).run apiTree
          (empty.after apiHistory)).1,
        (Location.mk importer.path (.onLine 1 4 8) == l) = true := by
  have hmem : importer ∈ apiSources := by simp [apiSources]
  have hdirect : apiScan.LeadsDirectly importer.path "_Get" getDefinition.key := by
    decide +kernel
  have hfinds : apiScan.findDefs (Query.queryPath apiTree importer.path) "_Get" =
      [getDefinition] := by decide +kernel
  have hd : getDefinition ∈ ((Query.findDefs apiTree importer.path "_Get").run apiTree
      (empty.after apiHistory)).1 := by
    rw [run_findDefs published_api build_api, hfinds]
    exact List.mem_singleton_self _
  obtain ⟨path, hpath, hfound, hcursor⟩ :=
    findRefs_of_findDefs published_api build_api (reads_api hmem) (by decide) hd hdirect
  have hcanonical : apiTree.canonical? importer.path = some importer.path := by decide +kernel
  cases hpath.symm.trans hcanonical
  have htoken : .onLine 1 4 8 ∈ Python.findTokens importer.lines ["_Get"] := by
    have htokens : Python.findTokens importer.lines ["_Get"] =
        [.onLine 0 27 31, .onLine 1 4 8] := by decide +kernel
    rw [htokens]
    exact List.mem_cons_of_mem _ (List.mem_singleton_self _)
  -- the importer has no other term
  have honly : ∀ item ∈ apiScan.searchTerms getDefinition.key, item.2 = "_Get" := by
    decide +kernel
  have hreference := (hfound _ htoken).2 fun term hterm => honly _ hterm
  have hfact : ((Query.factAt apiTree importer.path importer.lines ⟨1, 6⟩).run apiTree
      (empty.after apiHistory)).1 = some (.symbol "_Get") := by
    rw [run_of_build published_api build_api]
    decide +kernel
  exact ⟨hd, hdirect, htoken, hreference, hcursor importer.lines ⟨1, 6⟩ hfact _ hreference⟩

/-- The module that exports a key may use it without an import, and is no importer of itself. -/
theorem findRefs_misses_exporter :
    (empty.after apiHistory).published? = some ⟨apiPlan, apiScan⟩ ∧
      Generation.build apiTree apiPlan = .ok apiScan ∧ apiPlan.Reads apiTree exporter ∧
      getDefinition ∈ ((Query.findDefs apiTree exporter.path "_Get").run apiTree
        (empty.after apiHistory)).1 ∧
      .onLine 0 4 8 ∈ Python.findTokens exporter.lines ["_Get"] ∧
      ∀ r ∈ ((Query.findRefs apiTree getDefinition.key).run apiTree (empty.after apiHistory)).1,
        (r.path == exporter.path) = false := by
  have hfinds : apiScan.findDefs (Query.queryPath apiTree exporter.path) "_Get" =
      [getDefinition] := by decide +kernel
  have htokens : Python.findTokens exporter.lines ["_Get"] = [.onLine 0 4 8] := by
    decide +kernel
  refine ⟨published_api, build_api, reads_api (by simp [apiSources]), ?_, ?_, ?_⟩
  · rw [run_findDefs published_api build_api, hfinds]
    exact List.mem_singleton_self _
  · rw [htokens]
    exact List.mem_singleton_self _
  · rw [run_findRefs published_api build_api]
    intro r hr
    have hfiled : apiScan.index.refs getDefinition.key = [] := by decide +kernel
    have hterms : ∀ item ∈ apiScan.searchTerms getDefinition.key,
        (sourceFile item.1 == exporter.path) = false := by decide +kernel
    rcases Generation.mem_findRefs_cases hr with hmem | ⟨item, hitem, hpath⟩
    · rw [hfiled] at hmem
      cases hmem
    · rw [hpath]
      exact hterms item hitem

end Workspace

end CrossIndex
