import CrossIndex.Proofs.Module.Resolution
import CrossIndex.Proofs.Workspace.Recorded

/-!
Terms for exported variables. The search for references writes an exported variable as each module
does that has imported it. Main statement: resolved from there, such a term leads back to the variable
and the module that exports it.
-/

namespace CrossIndex.Generation

/-- A variable is written as the bound name itself when that was imported as the variable, and as an
attribute of the bound name when that denotes the module. -/
theorem importTerm_cases {g : Generation} {source : Path} {name bound term : String}
    {target : ImportTarget} (h : g.importTerm source name bound target = some term) :
    (target.name? = some name ∧ (g.resolver.canonicalModule target.module == source) = true ∧
        term = bound) ∨
      (∃ imported, target.name? = some imported ∧
        (g.resolver.canonicalModule (target.module.joinText imported) == source) = true ∧
          term = bound ++ "." ++ name) ∨
      target.name? = none ∧ (g.resolver.canonicalModule target.module == source) = true ∧
        term = bound ++ "." ++ name := by
  rw [importTerm] at h
  cases hname : target.name? with
  | none =>
    simp only [hname] at h
    split at h
    · next hsource =>
      cases h
      exact Or.inr (Or.inr ⟨rfl, hsource, rfl⟩)
    · cases h
  | some imported =>
    simp only [hname] at h
    split at h
    · next hsource =>
      obtain ⟨hcanonical, rfl⟩ : (g.resolver.canonicalModule target.module == source) = true ∧
          imported = name := by simpa using hsource
      cases h
      exact Or.inl ⟨rfl, hcanonical, rfl⟩
    · split at h
      · next hsource =>
        cases h
        exact Or.inr (Or.inl ⟨imported, rfl, hsource, rfl⟩)
      · cases h

/-- Modules that are the same have the same definitions. -/
theorem definitionsOf_congr (g : Generation) {p q : Path} (h : (p == q) = true) (name : String) :
    g.definitionsOf p name = g.definitionsOf q name := by
  have hcanonical : g.resolver.canonicalModule p = g.resolver.canonicalModule q :=
    Resolver.canonicalModule_congr h
  have hself : (g.resolver.canonicalModule q == p) = (g.resolver.canonicalModule q == q) :=
    BEq.congr_right h
  have hexports : ∀ rest, (p :: rest).flatMap g.index.exportsOf =
      (q :: rest).flatMap g.index.exportsOf := by
    intro rest
    have hfirst : g.index.exportsOf p = g.index.exportsOf q := GroupTable.get_congr h _
    rw [List.flatMap_cons, List.flatMap_cons, hfirst]
  simp only [definitionsOf, hcanonical, hself]
  split
  · rw [hexports]
  · rw [hexports]

/-- In a scan whose modules are plain, the term that an import gives for a free variable of a module
with exports resolves to that variable of that module, unless a module of the same name lies beside
the variable; so the exports of the module say where the term is defined. -/
theorem resolve_importTerm {g : Generation} (hg : g.IsScanned)
    (hplain : ∀ m ∈ g.resolver.modules, m.IsPlain) {module : Path} {e : Export}
    (he : (module, e) ∈ g.index.allExports) {name : String} (hname : '.' ∉ name.toList)
    (hfree : g.resolver.binding? module name = none) {i : RecordedImport}
    (hi : i ∈ g.resolver.imports) (hbound : '.' ∉ i.bound.toList)
    (himported : ∀ imported, i.target.name? = some imported → '.' ∉ imported.toList)
    (himporter : (g.resolver.canonicalModule i.importer == i.importer) = true)
    (hbelow : g.resolver.knows (i.target.module.joinText name) = false) {term : String}
    (hterm : g.importTerm module name i.bound i.target = some term) :
    ((g.resolver.resolve i.importer term).module == module) = true ∧
      (g.resolver.resolve i.importer term).name? = some name ∧
      g.findDefs i.importer term = g.definitionsOf module name := by
  obtain ⟨root, dialects, sources, rfl⟩ := hg
  have hgraph := plain_resolver root dialects hplain
  have hordered := ordered_resolver root dialects sources
  have hmodule := contains_of_mem_allExports root dialects he
  -- from here on only these facts about the scan count
  generalize ofSources root dialects sources = g at *
  have habs : i.importer.isAbsolute = true := (hplain _ (Resolver.importer_mem_modules hi)).1
  have hb : g.resolver.binding? (g.resolver.canonicalModule i.importer) i.bound = some i.target :=
    (Resolver.binding?_congr himporter _).trans (hordered.binding?_of_mem_imports hi)
  -- a path that stands for the module is absolute, so that the plain case of the graph applies
  have hstands : ∀ p : Path, (g.resolver.canonicalModule p == module) = true →
      p.isAbsolute = true := by
    intro p hp
    apply hgraph.isAbsolute_of_canonicalModule
    rw [Path.isAbsolute_congr hp]
    exact (Resolver.isPlain_of_contains hplain hmodule).1
  have hlead : ∀ p : Path, p.IsPlain → (g.resolver.canonicalModule p == module) = true →
      (g.resolver.redirect p == module) = true ∧
        g.resolver.binding? (g.resolver.redirect p) name = none := by
    intro p hp hcanonical
    have hsame := BEq.trans (Resolver.redirect_beq_canonicalModule hp) hcanonical
    exact ⟨hsame, (Resolver.binding?_congr hsame name).trans hfree⟩
  have hdone : ∀ p : Path, (p == module) = true →
      g.resolver.resolve i.importer term = ⟨p, some name⟩ →
      ((g.resolver.resolve i.importer term).module == module) = true ∧
        (g.resolver.resolve i.importer term).name? = some name ∧
        g.findDefs i.importer term = g.definitionsOf module name := by
    intro p hp hresolve
    rw [findDefs, hresolve]
    exact ⟨hp, rfl, g.definitionsOf_congr hp name⟩
  have htarget := hgraph.targets i hi
  obtain ⟨importer, bound, target, name?⟩ := i
  obtain ⟨rfl, hcanonical, rfl⟩ | ⟨imported, rfl, hcanonical, rfl⟩ | ⟨rfl, hcanonical, rfl⟩ :=
    importTerm_cases hterm
  · obtain ⟨hsame, hunbound⟩ := hlead target (htarget (hstands target hcanonical)) hcanonical
    exact hdone _ hsame (Resolver.resolve_imported_name habs hbound hb hbelow hunbound)
  · -- the module below stands for one with exports, so that a document was recorded for it
    have hplainBelow : (target.joinText imported).IsPlain :=
      Path.isPlain_joinText htarget (himported imported rfl) (hstands _ hcanonical)
    obtain ⟨hsame, hunbound⟩ := hlead _ hplainBelow hcanonical
    have hknown := Resolver.knows_of_canonicalModule hplainBelow hmodule hcanonical
    exact hdone _ hsame
      (Resolver.resolve_imported_submodule habs hbound hname hb hknown hunbound)
  · obtain ⟨hsame, hunbound⟩ := hlead target (htarget (hstands target hcanonical)) hcanonical
    exact hdone _ hsame (Resolver.resolve_imported_module habs hbound hname hb hunbound)

/-- The scan of a package that imports its own module of internal functions. -/
def packageScan : Generation :=
  ofSources (.ofString "/") [.tvm]
    [⟨.ofString "/python/tvm/__init__.py", ["from . import _api_internal"]⟩,
      ⟨.ofString "/python/tvm/_api_internal.py", []⟩]

/-- An internal function is written as an attribute of the module that was imported, and leads back to
that module. -/
theorem resolve_importTerm_packageScan :
    let package := Path.ofString "/python/tvm"
    let internal := Path.ofString "/python/tvm/_api_internal"
    let init := Path.ofString "/python/tvm/__init__"
    packageScan.importTerm internal "_Let" "_api_internal" ⟨package, some "_api_internal"⟩ =
        some "_api_internal._Let" ∧
      ((packageScan.resolver.resolve init "_api_internal._Let").module == internal) = true ∧
        (packageScan.resolver.resolve init "_api_internal._Let").name? = some "_Let" ∧
        packageScan.findDefs init "_api_internal._Let" =
          packageScan.definitionsOf internal "_Let" := by
  intro package internal init
  obtain ⟨hterm, hmodules, hexports, himport, hfree, himporter, hbelow⟩ :
      packageScan.importTerm internal "_Let" "_api_internal" ⟨package, some "_api_internal"⟩ =
          some "_api_internal._Let" ∧
        (∀ m ∈ packageScan.resolver.modules, m.IsPlain) ∧
        packageScan.index.allExports =
          [(internal, ⟨"_", .ofString "/python/tvm/_api_internal.py", .identity⟩)] ∧
        ⟨init, "_api_internal", ⟨package, some "_api_internal"⟩⟩ ∈ packageScan.resolver.imports ∧
        packageScan.resolver.binding? internal "_Let" = none ∧
        (packageScan.resolver.canonicalModule init == init) = true ∧
        packageScan.resolver.knows (package.joinText "_Let") = false := by
    decide +kernel
  refine ⟨hterm, resolve_importTerm ⟨_, _, _, rfl⟩ hmodules
    (hexports ▸ List.mem_singleton_self _) (by decide) hfree himport (by decide) ?_ himporter hbelow
    hterm⟩
  rintro imported ⟨⟩
  decide

end CrossIndex.Generation
