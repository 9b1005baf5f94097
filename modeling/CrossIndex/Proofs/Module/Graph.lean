import CrossIndex.Module.Resolver
import CrossIndex.Proofs.Module.Path
import CrossIndex.Proofs.Table

/-!
The import graph as documents are recorded. Main statements: every recorded import is the binding of
its name, a module that has been recorded stays known, and in a graph of plain modules every import
leads to a relative path or to a plain module.
-/

open Std

namespace CrossIndex.Resolver

variable {r : Resolver} {p q : Path}

/-! ### Paths that are the same -/

theorem redirect_congr (h : (p == q) = true) : (r.redirect p == r.redirect q) = true := by
  rw [redirect, redirect, SortedTable.get?_congr (Path.compare_eq_iff.mpr h)]
  cases r.inits.get? q with
  | none => exact h
  | some init => exact BEq.rfl

theorem knows_congr (h : (p == q) = true) : r.knows p = r.knows q := by
  rw [knows, knows, SortedTable.contains_congr (Path.compare_eq_iff.mpr h),
    SortedTable.contains_congr (Path.compare_eq_iff.mpr h)]

theorem binding?_congr (h : (p == q) = true) (name : String) :
    r.binding? p name = r.binding? q name := by
  rw [binding?, binding?, SortedTable.get?_congr (Path.compare_eq_iff.mpr h)]

theorem canonicalModule_congr (h : (p == q) = true) :
    r.canonicalModule p = r.canonicalModule q := by
  rw [canonicalModule, canonicalModule, modulePath_congr h]

/-! ### Recorded imports -/

/-- The directory that the imports of a file start from. -/
def directory (path : Path) : Path := (modulePath path).parent?.getD .empty

/-- The names that the imports of a file bind; of two bindings of one name the later one counts. -/
def namesOf (r : Resolver) (path : Path) (lines : List String) : SortedTable String ImportTarget :=
  (Python.imports lines).foldl
    (fun names i => names.insert i.localName (r.importTarget (directory path) i)) .empty

theorem addDocument_bindings (r : Resolver) (path : Path) (lines : List String) :
    (r.addDocument path lines).bindings =
      r.bindings.insert (modulePath path) (r.namesOf path lines) := rfl

theorem addDocument_inits (r : Resolver) (path : Path) (lines : List String) :
    (r.addDocument path lines).inits =
      if (modulePath path).fileName? = some initName then
        r.inits.insert (directory path) (modulePath path)
      else r.inits := by
  simp only [addDocument, directory]

/-- What holds of a table of names and is kept by the insertion of targets holds of the names of a
file. -/
theorem namesOf_induction {motive : SortedTable String ImportTarget → Prop} (path : Path)
    (lines : List String) (hempty : motive .empty)
    (hinsert : ∀ names, ∀ i ∈ Python.imports lines, motive names →
      motive (names.insert i.localName (r.importTarget (directory path) i))) :
    motive (r.namesOf path lines) := by
  have hfold : ∀ (imports : List Python.Import), (∀ i ∈ imports, i ∈ Python.imports lines) →
      ∀ names, motive names → motive (imports.foldl
        (fun names i => names.insert i.localName (r.importTarget (directory path) i)) names) := by
    intro imports
    induction imports with
    | nil => exact fun _ names h => h
    | cons i imports ih =>
      intro hmem names h
      exact ih (fun j hj => hmem j (List.mem_cons_of_mem _ hj)) _
        (hinsert names i (hmem i List.mem_cons_self) h)
  exact hfold (Python.imports lines) (fun _ h => h) .empty hempty

theorem ordered_namesOf (path : Path) (lines : List String) :
    (r.namesOf path lines).Ordered :=
  namesOf_induction path lines SortedTable.ordered_empty fun _ _ _ h => h.insert _ _

theorem mem_namesOf {path : Path} {lines : List String} {entry : String × ImportTarget}
    (h : entry ∈ (r.namesOf path lines).entries) :
    ∃ i ∈ Python.imports lines, entry.2 = r.importTarget (directory path) i := by
  refine namesOf_induction (r := r)
    (motive := fun names => ∀ e ∈ names.entries,
      ∃ i ∈ Python.imports lines, e.2 = r.importTarget (directory path) i)
    path lines ?_ ?_ entry h
  · intro e he
    cases he
  · intro names i hi ih e he
    rcases SortedTable.mem_insert he with hold | ⟨hnew, -⟩
    · exact ih e hold
    · exact ⟨i, hi, hnew⟩

/-- The tables of a graph are in order. -/
structure Ordered (r : Resolver) : Prop where
  bindings : r.bindings.Ordered
  names : ∀ entry ∈ r.bindings.entries, entry.2.Ordered

theorem Ordered.addDocument (h : r.Ordered) (path : Path) (lines : List String) :
    (r.addDocument path lines).Ordered := by
  constructor
  · rw [addDocument_bindings]
    exact h.bindings.insert _ _
  · intro entry hmem
    rw [addDocument_bindings] at hmem
    rcases SortedTable.mem_insert hmem with hold | ⟨hnew, -⟩
    · exact h.names entry hold
    · rw [hnew]
      exact ordered_namesOf path lines

theorem mem_imports {i : RecordedImport} :
    i ∈ r.imports ↔ ∃ names, (i.importer, names) ∈ r.bindings.entries ∧
      (i.bound, i.target) ∈ names.entries := by
  rw [imports, List.mem_flatMap]
  constructor
  · rintro ⟨⟨importer, names⟩, hmem, hi⟩
    obtain ⟨⟨bound, target⟩, hb, rfl⟩ := List.mem_map.mp hi
    exact ⟨names, hmem, hb⟩
  · rintro ⟨names, hmem, hb⟩
    exact ⟨(i.importer, names), hmem, List.mem_map.mpr ⟨(i.bound, i.target), hb, rfl⟩⟩

/-- An import is an old one, or leads where an import of the new lines does. -/
theorem mem_imports_addDocument {path : Path} {lines : List String} {i : RecordedImport}
    (h : i ∈ (r.addDocument path lines).imports) :
    i ∈ r.imports ∨
      ∃ found ∈ Python.imports lines, i.target = r.importTarget (directory path) found := by
  obtain ⟨names, hmem, hb⟩ := mem_imports.mp h
  rw [addDocument_bindings] at hmem
  rcases SortedTable.mem_insert hmem with hold | ⟨hnew, -⟩
  · exact Or.inl (mem_imports.mpr ⟨names, hold, hb⟩)
  · change names = r.namesOf path lines at hnew
    rw [hnew] at hb
    exact Or.inr (mem_namesOf hb)

/-- The `__init__` module of a directory is an old one, or the module of the new lines. -/
theorem mem_inits_addDocument {path : Path} {lines : List String} {entry : Path × Path}
    (h : entry ∈ (r.addDocument path lines).inits.entries) :
    entry ∈ r.inits.entries ∨ (modulePath path).fileName? = some initName ∧
      (directory path == entry.1) = true ∧ entry.2 = modulePath path := by
  rw [addDocument_inits] at h
  split at h
  · next hinit =>
    rcases SortedTable.mem_insert h with hold | ⟨hvalue, hkey⟩
    · exact Or.inl hold
    · exact Or.inr ⟨hinit, Path.compare_eq_iff.mp hkey, hvalue⟩
  · exact Or.inl h

theorem importTarget_congr {r r' : Resolver} (h : r.packages = r'.packages) (directory : Path)
    (i : Python.Import) : r.importTarget directory i = r'.importTarget directory i := by
  -- where a module text leads depends on the package roots alone
  have htarget : r.target = r'.target := by
    funext d text
    simp only [target, packageRoot?, h]
  rw [importTarget, importTarget, htarget]

theorem namesOf_addDocument (r : Resolver) (p q : Path) (lines others : List String) :
    (r.addDocument p lines).namesOf q others = r.namesOf q others := by
  have hpackages : (r.addDocument p lines).packages = r.packages := rfl
  simp only [namesOf, importTarget_congr hpackages]

/-- Of the modules of one directory one alone stands for it. -/
theorem modulePath_beq_of_directory {p q : Path} (hp : (modulePath p).fileName? = some initName)
    (hq : (modulePath q).fileName? = some initName) (h : (directory p == directory q) = true) :
    (modulePath p == modulePath q) = true := by
  rw [Path.beq_iff, Path.components_of_fileName? hp, Path.components_of_fileName? hq]
  exact congrArg (· ++ [.name initName]) ((Path.beq_iff _ _).mp h)

/-- Documents of different modules can be recorded in either order. -/
theorem addDocument_comm {p q : Path} (h : (modulePath p == modulePath q) = false) (r : Resolver)
    (lines others : List String) :
    (r.addDocument p lines).addDocument q others = (r.addDocument q others).addDocument p lines := by
  have hmodules : compare (modulePath q) (modulePath p) ≠ .eq := by
    rw [ne_eq, Path.compare_eq_iff, BEq.comm, h]
    simp
  have hbindings : ((r.addDocument p lines).addDocument q others).bindings =
      ((r.addDocument q others).addDocument p lines).bindings := by
    simp only [addDocument_bindings, namesOf_addDocument]
    exact SortedTable.insert_comm hmodules _ _ _
  have hinits : ((r.addDocument p lines).addDocument q others).inits =
      ((r.addDocument q others).addDocument p lines).inits := by
    simp only [addDocument_inits]
    by_cases hp : (modulePath p).fileName? = some initName
    · by_cases hq : (modulePath q).fileName? = some initName
      · have hdirectories : compare (directory q) (directory p) ≠ .eq := by
          rw [ne_eq, Path.compare_eq_iff]
          intro hd
          rw [modulePath_beq_of_directory hp hq (BEq.symm hd)] at h
          cases h
        simp only [if_pos hp, if_pos hq]
        exact SortedTable.insert_comm hdirectories _ _ _
      · simp only [if_neg hq]
    · simp only [if_neg hp]
  have hpackages : ((r.addDocument p lines).addDocument q others).packages =
      ((r.addDocument q others).addDocument p lines).packages := rfl
  exact (Resolver.mk.injEq ..).mpr ⟨hbindings, hinits, hpackages⟩

/-- Every recorded import is what its name denotes in its module. -/
theorem Ordered.binding?_of_mem_imports (h : r.Ordered) {i : RecordedImport} (hi : i ∈ r.imports) :
    r.binding? i.importer i.bound = some i.target := by
  obtain ⟨names, hmem, hb⟩ := mem_imports.mp hi
  have hnames : r.bindings.get? i.importer = some names := h.bindings.get?_of_mem hmem
  rw [binding?, hnames]
  exact (h.names _ hmem).get?_of_mem hb

/-- What a name denotes was recorded by an import. -/
theorem exists_import_of_binding? {module : Path} {name : String} {target : ImportTarget}
    (h : r.binding? module name = some target) : ∃ i ∈ r.imports, i.target = target := by
  rw [binding?] at h
  obtain ⟨names, hnames, htarget⟩ := Option.bind_eq_some_iff.mp h
  obtain ⟨importer, -, hmem⟩ := SortedTable.exists_mem_of_get? hnames
  obtain ⟨bound, -, hb⟩ := SortedTable.exists_mem_of_get? htarget
  exact ⟨⟨importer, bound, target⟩, mem_imports.mpr ⟨names, hmem, hb⟩, rfl⟩

/-- The modules that documents were recorded for. -/
def modules (r : Resolver) : List Path := r.bindings.entries.map Prod.fst

theorem importer_mem_modules {i : RecordedImport} (h : i ∈ r.imports) : i.importer ∈ r.modules := by
  obtain ⟨names, hmem, -⟩ := mem_imports.mp h
  exact List.mem_map.mpr ⟨_, hmem, rfl⟩

theorem isPlain_of_contains (h : ∀ m ∈ r.modules, m.IsPlain) (hp : r.bindings.contains p = true) :
    p.IsPlain := by
  obtain ⟨entry, hmem, he⟩ := SortedTable.contains_iff.mp hp
  have hentry : entry.1.IsPlain := h entry.1 (List.mem_map.mpr ⟨entry, hmem, rfl⟩)
  exact hentry.congr (BEq.symm (Path.compare_eq_iff.mp he))

theorem contains_addDocument (r : Resolver) (path : Path) (lines : List String) (m : Path) :
    (r.addDocument path lines).bindings.contains m =
      (m == modulePath path || r.bindings.contains m) := by
  rw [addDocument_bindings, SortedTable.contains_insert]
  congr 1
  rw [Bool.eq_iff_iff, ← Path.compare_eq_iff, beq_iff_eq]

/-! ### Where a module text leads -/

/-- The number of dots that a module text starts with. -/
def leadingDots (text : String) : Nat := (text.toList.takeWhile (· = '.')).length

/-- The names in a module text. -/
def moduleNames (text : String) : List String :=
  ((Text.splitOn '.' (text.toList.drop (leadingDots text))).filter (· ≠ [])).map String.ofList

theorem not_mem_of_mem_moduleNames {text name : String} (h : name ∈ moduleNames text) :
    '.' ∉ name.toList := by
  obtain ⟨chars, hmem, rfl⟩ := List.mem_map.mp h
  have hpiece := (List.mem_filter.mp hmem).1
  intro hdot
  rw [String.toList_ofList] at hdot
  exact (Text.mem_of_mem_splitOn hpiece hdot).2 rfl

/-- The directory that a module text starts from, and the names that lead on from there. -/
def startOf (r : Resolver) (directory : Path) (text : String) : Path × List String :=
  if leadingDots text > 0 then (climb directory (leadingDots text), moduleNames text)
  else match moduleNames text with
    | first :: rest =>
      match r.packageRoot? first with
      | some root => (root, rest)
      | none => (directory, moduleNames text)
    | [] => (directory, moduleNames text)

theorem target_eq (r : Resolver) (directory : Path) (text : String) :
    r.target directory text =
      modulePath ((r.startOf directory text).2.foldl Path.joinText (r.startOf directory text).1) := rfl

/-- A module text starts from a directory above, from the root of a package, or from the directory
itself, and goes on along some of its names. -/
theorem startOf_cases (r : Resolver) (directory : Path) (text : String) :
    (0 < leadingDots text ∧
        r.startOf directory text = (climb directory (leadingDots text), moduleNames text)) ∨
      (∃ first rest root, moduleNames text = first :: rest ∧ r.packageRoot? first = some root ∧
        r.startOf directory text = (root, rest)) ∨
      r.startOf directory text = (directory, moduleNames text) := by
  rw [startOf]
  by_cases hdots : 0 < leadingDots text
  · rw [if_pos hdots]
    exact Or.inl ⟨hdots, rfl⟩
  · rw [if_neg hdots]
    refine Or.inr ?_
    cases hnames : moduleNames text with
    | nil => exact Or.inr rfl
    | cons first rest =>
      cases hroot : r.packageRoot? first with
      | none => exact Or.inr (by simp [hroot])
      | some root => exact Or.inl ⟨first, rest, root, rfl, hroot, by simp [hroot]⟩

/-! ### Plain modules -/

theorem foldsPlain_foldl_joinText {texts : List String}
    (ht : ∀ t ∈ texts, t = ".." ∨ '.' ∉ t.toList) (h : p.FoldsPlain) :
    (texts.foldl Path.joinText p).FoldsPlain := by
  induction texts generalizing p with
  | nil => exact h
  | cons text texts ih =>
    exact ih (fun t hmem => ht t (List.mem_cons_of_mem _ hmem))
      (h.foldsPlain_joinText (ht text List.mem_cons_self))

theorem isPlain_target {directory : Path} (hd : directory.FoldsPlain)
    (hp : ∀ entry ∈ r.packages.entries, entry.2.IsPlain) (text : String)
    (habs : (r.target directory text).isAbsolute = true) : (r.target directory text).IsPlain := by
  have hnames : ∀ t ∈ moduleNames text, t = ".." ∨ '.' ∉ t.toList :=
    fun t ht => Or.inr (not_mem_of_mem_moduleNames ht)
  rw [target_eq] at habs ⊢
  refine Path.FoldsPlain.isPlain_modulePath ?_ habs
  obtain ⟨-, hs⟩ | ⟨first, rest, root, hn, hroot, hs⟩ | hs := r.startOf_cases directory text
  · -- the dots of the steps up are the only ones, and folding takes them away
    rw [hs]
    refine foldsPlain_foldl_joinText hnames (foldsPlain_foldl_joinText ?_ hd)
    exact fun t ht => Or.inl (List.eq_of_mem_replicate ht)
  · obtain ⟨name, -, hmem⟩ := SortedTable.exists_mem_of_get? hroot
    rw [hs]
    refine foldsPlain_foldl_joinText ?_ (Path.foldsPlain_of_isPlain fun _ => hp _ hmem)
    exact fun t ht => hnames t (hn ▸ List.mem_cons_of_mem _ ht)
  · rw [hs]
    exact foldsPlain_foldl_joinText hnames hd

theorem isAbsolute_target {directory : Path} (hd : directory.isAbsolute = true)
    (hp : ∀ entry ∈ r.packages.entries, entry.2.isAbsolute = true) (text : String) :
    (r.target directory text).isAbsolute = true := by
  rw [target_eq, isAbsolute_modulePath]
  refine Path.isAbsolute_foldl_joinText ?_ _
  obtain ⟨-, hs⟩ | ⟨first, rest, root, -, hroot, hs⟩ | hs := r.startOf_cases directory text
  · rw [hs]
    exact Path.isAbsolute_foldl_joinText hd _
  · obtain ⟨name, -, hmem⟩ := SortedTable.exists_mem_of_get? hroot
    rw [hs]
    exact hp _ hmem
  · rw [hs]
    exact hd

theorem exists_importTarget_module (r : Resolver) (directory : Path) (i : Python.Import) :
    ∃ text, (r.importTarget directory i).module = r.target directory text := by
  unfold importTarget
  split
  · next text _ => exact ⟨text, by simp only⟩
  · exact ⟨if i.alias?.isSome then i.name else i.localName, by simp only⟩

theorem foldsPlain_directory {path : Path} (hm : (modulePath path).IsPlain) :
    (directory path).FoldsPlain := by
  rw [directory]
  cases hd : (modulePath path).parent? with
  | none =>
    have hempty : Path.empty.isAbsolute = false := by decide
    exact fun habs => absurd habs (by simp [hempty])
  | some d => exact Path.foldsPlain_of_isPlain fun _ => hm.isPlain_parent? hd

theorem isAbsolute_directory {path : Path} {name : String}
    (hm : (modulePath path).isAbsolute = true) (hname : (modulePath path).fileName? = some name) :
    (directory path).isAbsolute = true := by
  rw [directory]
  cases hd : (modulePath path).parent? with
  | none =>
    -- only the root has no parent, and it has no name either
    rw [Path.fileName?, Path.components_of_parent?_eq_none hm hd] at hname
    cases hname
  | some d => exact (Path.components_parent? hm hd).1

/-- What holds of a graph whose documents are plain modules. -/
structure Plain (r : Resolver) : Prop where
  packages : ∀ entry ∈ r.packages.entries, entry.2.IsPlain
  inits : ∀ entry ∈ r.inits.entries, entry.1.isAbsolute = true
  targets : ∀ i ∈ r.imports, i.target.module.isAbsolute = true → i.target.module.IsPlain

theorem Plain.addDocument (h : r.Plain) {path : Path} (hm : (modulePath path).IsPlain)
    (lines : List String) : (r.addDocument path lines).Plain := by
  constructor
  · exact h.packages
  · intro entry hmem
    rcases mem_inits_addDocument hmem with hold | ⟨hinit, hkey, -⟩
    · exact h.inits entry hold
    · rw [← Path.isAbsolute_congr hkey]
      exact isAbsolute_directory hm.1 hinit
  · intro i hi habs
    rcases mem_imports_addDocument hi with hold | ⟨found, -, hfound⟩
    · exact h.targets i hold habs
    · obtain ⟨text, htext⟩ := r.exists_importTarget_module (directory path) found
      rw [hfound, htext] at habs ⊢
      exact isPlain_target (foldsPlain_directory hm) h.packages text habs

theorem Plain.isAbsolute_of_canonicalModule (h : r.Plain)
    (habs : (r.canonicalModule p).isAbsolute = true) : p.isAbsolute = true := by
  rw [canonicalModule, redirect] at habs
  rw [← isAbsolute_modulePath]
  -- a path that is redirected was noted as the directory of an `__init__` module
  cases hinit : r.inits.get? (modulePath p) with
  | none =>
    rw [hinit] at habs
    exact habs
  | some init =>
    obtain ⟨directory, hd, hmem⟩ := SortedTable.exists_mem_of_get? hinit
    rw [Path.isAbsolute_congr (Path.compare_eq_iff.mp hd)]
    exact h.inits _ hmem

end CrossIndex.Resolver
