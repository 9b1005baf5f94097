import CrossIndex.Proofs.FileTree
import CrossIndex.Proofs.Module.SourceFile
import CrossIndex.Proofs.Workspace.References

/-!
Files that are read again. A search for references reads the files of the modules that imports were
recorded for. Main statements: the documents of one module are recorded under the spelling of the first
one, with the imports of the last one; and the file that is read again is the first one, which is the
one with the imports as long as no document hides another.
-/

namespace CrossIndex

namespace Resolver

variable {r : Resolver}

theorem addDocuments_bindings (sources : List Source) :
    (r.addDocuments sources).bindings =
      sources.foldl (fun table source => table.insert (modulePath source.path)
        (r.namesOf source.path source.lines)) r.bindings := by
  induction sources generalizing r with
  | nil => rfl
  | cons source sources ih =>
    -- what the names of a file lead to does not depend on the documents before it
    change ((r.addDocument source.path source.lines).addDocuments sources).bindings = _
    rw [ih, List.foldl_cons, addDocument_bindings]
    simp only [namesOf_addDocument]

theorem namesOf_addDocuments (sources : List Source) (path : Path) (lines : List String) :
    (r.addDocuments sources).namesOf path lines = r.namesOf path lines := by
  induction sources generalizing r with
  | nil => rfl
  | cons source sources ih =>
    exact (ih (r := r.addDocument source.path source.lines)).trans
      (r.namesOf_addDocument source.path path source.lines lines)

end Resolver

namespace Generation

variable {sources : List Source}

/-- The documents of a module, in the order in which they are recorded. -/
def documentsOf (sources : List Source) (module : Path) : List Source :=
  (documents sources).filter fun source => module == modulePath source.path

theorem mem_documentsOf {module : Path} {source : Source} :
    source ∈ documentsOf sources module ↔
      source ∈ documents sources ∧ (module == modulePath source.path) = true :=
  List.mem_filter

variable (root : Path) (dialects : List Dialect)

/-- A module is spelt by its first document, and has the imports of its last one. -/
theorem exists_documents_of_mem_bindings {entry : Path × SortedTable String ImportTarget}
    (h : entry ∈ (ofSources root dialects sources).resolver.bindings.entries) :
    ∃ first last, (documentsOf sources entry.1).head? = some first ∧
      (documentsOf sources entry.1).getLast? = some last ∧ entry.1 = modulePath first.path ∧
        entry.2 = (ofSources root dialects sources).resolver.namesOf last.path last.lines := by
  have hmodule : (fun source : Source => compare entry.1 (modulePath source.path) == .eq) =
      fun source => entry.1 == modulePath source.path := by
    funext source
    rw [Bool.eq_iff_iff, beq_iff_eq, Path.compare_eq_iff]
  rw [ofSources_resolver, Resolver.addDocuments_bindings,
    (packageGraph_cases dialects sources).1] at h
  obtain ⟨first, last, hfirst, hlast, hentry⟩ := SortedTable.exists_of_mem_foldl_insert _ _ _ h
  rw [hmodule] at hfirst hlast
  refine ⟨first, last, hfirst, hlast, congrArg Prod.fst hentry, ?_⟩
  rw [ofSources_resolver, Resolver.namesOf_addDocuments]
  exact congrArg Prod.snd hentry

/-! ### Reading a file again -/

variable {tree : FileTree} {path : Path} {source : Source}

theorem exists_place_of_source? (h : source? tree path = some source) :
    ∃ place, tree.locate? path = some place := by
  rw [source?, FileTree.readText?, FileTree.read?, FileTree.entry?] at h
  cases hplace : tree.locate? path with
  | some place => exact ⟨place, rfl⟩
  | none =>
    rw [hplace] at h
    cases h

/-- A Python file is read again from its module path. -/
theorem source?_sourceFile (hp : path.isAbsolute = true) (hpy : SourceKind.of path = .python)
    (h : source? tree path = some source) :
    source? tree (sourceFile (modulePath path)) =
      some ⟨sourceFile (modulePath path), source.lines⟩ := by
  obtain ⟨place, hplace⟩ := exists_place_of_source? h
  obtain ⟨text, htext, rfl⟩ := Option.map_eq_some_iff.mp h
  rw [FileTree.sourceFile_modulePath hp hpy hplace, source?, FileTree.readText?_ofPlace hp hplace,
    htext]
  rfl

/-- The search for references goes back from an import to a document. Of the documents of its module
the last one is where the import is written, and the first one is read. -/
structure Rereads (sources : List Source) (i : RecordedImport) (read written : Source) : Prop where
  first : (documentsOf sources i.importer).head? = some read
  last : (documentsOf sources i.importer).getLast? = some written
  recorded : (i.bound, i.target) ∈
    ((ofSources root dialects sources).resolver.namesOf written.path written.lines).entries
  file : (sourceFile i.importer == read.path) = true
  same : (read.path == written.path) = true ∨ read.path.Hides written.path ∨
    written.path.Hides read.path
  searched : ∀ (tree : FileTree) (found : Source), source? tree read.path = some found →
    ∀ (key : String) (terms : List String), textualRefs tree key i.importer terms =
      (Python.findTokens found.lines terms).map fun range => ⟨key, sourceFile i.importer, range⟩

theorem exists_rereads (hfiles : ∀ source ∈ documents sources, source.path.IsPythonFile)
    {i : RecordedImport} (hi : i ∈ (ofSources root dialects sources).resolver.imports) :
    ∃ read written, Rereads root dialects sources i read written := by
  obtain ⟨names, hentry, hnames⟩ := Resolver.mem_imports.mp hi
  obtain ⟨read, written, hread, hwritten, hmodule, hrecorded⟩ :=
    exists_documents_of_mem_bindings root dialects hentry
  obtain ⟨hreadmem, -⟩ := mem_documentsOf.mp (List.mem_of_head? hread)
  obtain ⟨hwrittenmem, hsame⟩ := mem_documentsOf.mp (List.mem_of_getLast? hwritten)
  have hfile := hfiles read hreadmem
  -- the importer is spelt as the module path of the document that is read
  change i.importer = modulePath read.path at hmodule
  change names = _ at hrecorded
  refine ⟨read, written, hread, hwritten, hrecorded ▸ hnames, ?_, ?_, ?_⟩
  · rw [hmodule]
    exact (Path.sourceFile_beq_iff hfile.absolute hfile.python).mpr hfile.parent
  · change (i.importer == modulePath written.path) = true at hsame
    rw [hmodule] at hsame
    exact (Path.modulePath_beq_iff hfile (hfiles written hwrittenmem)).mp hsame
  · intro tree found hfound key terms
    rw [hmodule, textualRefs, source?_sourceFile hfile.absolute hfile.python hfound]

/-- The file of the module path of a Python file is this file again, just when its path has no step up.
In a scan of files whose paths have none, the search for references goes back from each recorded import
to the first document of its module. This is the document that the import stands in, unless one of the
two hides the other. Apart from the references of the index, all references are found in such files. -/
theorem rereads_documents (hfiles : ∀ source ∈ documents sources, source.path.IsPythonFile) :
    (∀ p : Path, p.isAbsolute = true → SourceKind.of p = .python →
        ((sourceFile (modulePath p) == p) = true ↔ .parent ∉ p.components)) ∧
      (∀ i ∈ (ofSources root dialects sources).resolver.imports,
        ∃ read written, Rereads root dialects sources i read written) ∧
      ∀ (tree : FileTree) (key : String),
        ∀ r ∈ (ofSources root dialects sources).findRefs tree key,
          r ∈ (ofSources root dialects sources).index.refs key ∨
            ∃ i ∈ (ofSources root dialects sources).resolver.imports,
              r.path = sourceFile i.importer := by
  refine ⟨fun p => Path.sourceFile_beq_iff, fun i => exists_rereads root dialects hfiles, ?_⟩
  intro tree key r hr
  rcases mem_findRefs_cases hr with hfiled | ⟨⟨module, term⟩, hterm, hpath⟩
  · exact Or.inl hfiled
  · obtain ⟨-, -, -, -, i, hi, himporter, -⟩ := mem_searchTerms.mp hterm
    exact Or.inr ⟨i, hi, hpath.trans (congrArg sourceFile himporter.symm)⟩

/-- A module that imports the internal functions of its package, and uses one of them. -/
def usingFile : Source :=
  ⟨.ofString "/python/tvm/expr.py", ["from . import _api_internal", "_api_internal._Let(1)"]⟩

/-- A file in a directory with the name of this module. -/
def hidingFile : Source := ⟨.ofString "/python/tvm/expr/..py", []⟩

def packageFiles : List Source :=
  [⟨.ofString "/python/tvm/__init__.py", []⟩, ⟨.ofString "/python/tvm/_api_internal.py", []⟩]

/-- The tree of all these files. Every line of them ends in a line feed. -/
def packageTree : FileTree :=
  (packageFiles ++ [hidingFile, usingFile]).foldl
    (fun tree source => tree.write source.path.segments.tail
      (source.lines.flatMap fun line => Text.encodeUtf8 line ++ [10])) .empty

/-- What a scan of the package finds together with more files. -/
def packageWith (files : List Source) : Generation :=
  ofSources (.ofPlace []) [.tvm] (packageFiles ++ files)

/-- The import of the module, as recorded under the spelling that the module path of a file has. -/
def importUnder (file : Source) : RecordedImport :=
  ⟨modulePath file.path, "_api_internal", ⟨.ofString "/python/tvm", some "_api_internal"⟩⟩

theorem rereads_documents_usingFile :
    (∀ source ∈ documents (packageFiles ++ [usingFile]), source.path.IsPythonFile) ∧
      importUnder usingFile ∈ (packageWith [usingFile]).resolver.imports ∧
      (sourceFile (importUnder usingFile).importer == usingFile.path) = true ∧
      textualRefs packageTree "_Let" (importUnder usingFile).importer ["_api_internal._Let"] =
        [⟨"_Let", usingFile.path, .onLine 1 0 18⟩] := by
  have hfiles : ∀ source ∈ documents (packageFiles ++ [usingFile]), source.path.IsPythonFile := by
    decide +kernel
  have himports : (packageWith [usingFile]).resolver.imports = [importUnder usingFile] := by
    decide +kernel
  have himport : importUnder usingFile ∈ (packageWith [usingFile]).resolver.imports := by
    rw [himports]
    exact List.mem_singleton_self _
  obtain ⟨-, hrereads, -⟩ := rereads_documents (.ofPlace []) [.tvm] hfiles
  obtain ⟨read, written, h⟩ := hrereads _ himport
  -- the module has one document
  have hdocuments : (documentsOf (packageFiles ++ [usingFile])
      (importUnder usingFile).importer).map Source.path = [usingFile.path] := by decide +kernel
  have hread : read.path = usingFile.path := by
    have hmem := List.mem_map_of_mem (f := Source.path) (List.mem_of_head? h.first)
    rw [hdocuments] at hmem
    exact List.mem_singleton.mp hmem
  have htext : (source? packageTree usingFile.path).map Source.lines = some usingFile.lines := by
    decide +kernel
  obtain ⟨found, hfound, hlines⟩ := Option.map_eq_some_iff.mp htext
  have htokens : Python.findTokens usingFile.lines ["_api_internal._Let"] = [.onLine 1 0 18] := by
    decide +kernel
  have hspelt : sourceFile (importUnder usingFile).importer = usingFile.path := by decide +kernel
  refine ⟨hfiles, himport, hread ▸ h.file, ?_⟩
  rw [h.searched packageTree found (hread ▸ hfound), hlines, htokens, hspelt]
  rfl

/-- With a file that hides the module, the module is recorded under the module path of that file. This
file is then read in place of the module, and the use in the module is lost. -/
theorem findRefs_reads_hidingFile :
    (∀ source ∈ documents (packageFiles ++ [hidingFile, usingFile]), source.path.IsPythonFile) ∧
      (packageWith [hidingFile, usingFile]).resolver.imports = [importUnder hidingFile] ∧
      (sourceFile (importUnder hidingFile).importer == hidingFile.path) = true ∧
      (hidingFile.path == usingFile.path) = false ∧ hidingFile.lines = [] ∧
      (packageWith [hidingFile, usingFile]).findRefs packageTree "_Let" = [] ∧
      (packageWith [usingFile]).findRefs packageTree "_Let" =
        [⟨"_Let", usingFile.path, .onLine 1 0 18⟩] := by
  decide +kernel

end Generation

end CrossIndex
