import CrossIndex.Proofs.FileTree
import CrossIndex.Proofs.Scan.Files

/-!
What a scan finds. Main statement: a scan of absolute directories finds each file below them whose name ends
in a dot and one of the extensions, once, in the order of the paths, and finds nothing else; and where names
are no texts, it finds just the files below the directories as they are shown whose own names are texts.
-/

open Std

namespace CrossIndex

theorem mapM_eq_ok {ε α β : Type} {f : α → Except ε β} {g : α → β} {items : List α}
    (h : ∀ x ∈ items, f x = .ok (g x)) : items.mapM f = .ok (items.map g) := by
  induction items with
  | nil => rfl
  | cons x items ih =>
    rw [List.mapM_cons, h x List.mem_cons_self, ih fun y hy => h y (List.mem_cons_of_mem _ hy)]
    rfl

/-! ### The glob of an extension -/

namespace Glob

variable {text name : List Char}

/-- A character that a glob takes as it is, inside one part. -/
def IsLiteral (c : Char) : Prop := c ∉ ['?', '*', '[', ']', '/']

instance (c : Char) : Decidable (IsLiteral c) := inferInstanceAs (Decidable (_ ∉ _))

/-- The signs of a name that ends in a text. -/
def endingSigns (text : List Char) : List GlobSign := .anyText :: text.map .char

theorem signs_literal (h : ∀ c ∈ text, IsLiteral c) : signs text = .ok (text.map .char) := by
  induction text with
  | nil => rw [signs, List.map_nil]
  | cons c text ih =>
    have hc : c ≠ '?' ∧ c ≠ '*' ∧ c ≠ '[' := by
      have hliteral := h c List.mem_cons_self
      simp only [IsLiteral, List.mem_cons, not_or] at hliteral
      exact ⟨hliteral.1, hliteral.2.1, hliteral.2.2.1⟩
    have hrest := ih fun d hd => h d (List.mem_cons_of_mem _ hd)
    rw [signs, hrest]
    · rfl
    all_goals simp [hc]

theorem read_ending (h : ∀ c ∈ text, IsLiteral c) :
    read ("*." ++ String.ofList text) = .ok [.name (endingSigns ('.' :: text))] := by
  have hchars : ("*." ++ String.ofList text).toList = '*' :: '.' :: text := by
    rw [String.toList_append, String.toList_ofList, String.toList_ofList]
    rfl
  have hslash : '/' ∉ '*' :: '.' :: text := by
    intro hmem
    simp only [List.mem_cons, Char.reduceEq, false_or] at hmem
    exact h '/' hmem (by decide)
  have hending : ∀ c ∈ '.' :: text, IsLiteral c := by
    intro c hc
    rcases List.mem_cons.mp hc with rfl | hmem
    · decide
    · exact h c hmem
  have hsigns : signs ('*' :: '.' :: text) = .ok (endingSigns ('.' :: text)) := by
    rw [signs, signs_literal hending]
    · rfl
    all_goals simp
  have hpart : part ('*' :: '.' :: text) = .ok (.name (endingSigns ('.' :: text))) := by
    rw [part, if_neg (by simp), hsigns]
    rfl
  rw [read, hchars, Text.splitOn_of_not_mem hslash, List.mapM_cons, hpart]
  rfl

theorem nameMatches_literal : nameMatches (text.map .char) name = true ↔ name = text := by
  induction text generalizing name with
  | nil =>
    cases name with
    | nil => simp [nameMatches]
    | cons c name => simp [nameMatches]
  | cons d text ih =>
    cases name with
    | nil => simp [nameMatches]
    | cons c name =>
      rw [List.map_cons, nameMatches, Bool.and_eq_true, beq_iff_eq, ih, List.cons.injEq]

/-- Any text and then a given one: the name ends in the given one. -/
theorem nameMatches_ending : nameMatches (endingSigns text) name = true ↔ text <:+ name := by
  induction name with
  | nil =>
    rw [endingSigns, nameMatches, nameMatches_literal, List.suffix_nil, eq_comm]
  | cons c name ih =>
    rw [endingSigns] at ih ⊢
    rw [nameMatches, Bool.or_eq_true, nameMatches_literal, ih, List.suffix_cons_iff, eq_comm]

/-- The names that a name pattern accepts for its ending are texts with that ending. -/
theorem accepts_ending {naming : Naming} {extension name : String} :
    accepts naming (endingSigns ('.' :: extension.toList)) name = true ↔
      naming.IsText name ∧ (naming.ofText ("." ++ extension)).toList <:+ name.toList := by
  have hending : ("." ++ extension).toList = '.' :: extension.toList := by
    rw [String.toList_append, show ".".toList = ['.'] by decide]
    rfl
  rw [accepts, Option.any_eq_true, Naming.isText_iff]
  constructor
  · rintro ⟨text, htext, hmatch⟩
    obtain rfl := Naming.text?_eq_some_iff.mp htext
    rw [Naming.ofText_suffix_iff hending, hending]
    exact ⟨⟨text, rfl⟩, nameMatches_ending.mp hmatch⟩
  · rintro ⟨⟨text, rfl⟩, hsuffix⟩
    rw [Naming.ofText_suffix_iff hending, hending] at hsuffix
    exact ⟨text, Naming.text?_eq_some_iff.mpr rfl, nameMatches_ending.mpr hsuffix⟩

/-- Below a directory the glob of a name finds the entries at any depth with such a name. -/
theorem mem_expand_name {naming : Naming} {tree : FileTree} {signs : List GlobSign}
    {directory path : Path} :
    path ∈ expand naming tree [.anyDepth, .name signs] directory ↔
      ∃ place, tree.locate? directory = some place ∧ ∃ names ∈ tree.descendants place,
        names.getLast?.any (accepts naming signs) = true ∧
          path = names.foldl Path.joinText directory := by
  rw [expand]
  cases tree.locate? directory with
  | none => simp
  | some place =>
    simp only [expand, List.mem_flatMap, List.mem_filter, List.mem_singleton, and_assoc,
      Option.some.injEq, exists_eq_left']

end Glob

namespace Scan

open Glob

variable {naming : Naming} {tree : FileTree} {directory path : Path} {place : Place}
  {extensions names : List String}

theorem extensionGlob_literal {extension : String} (h : ∀ c ∈ extension.toList, IsLiteral c) :
    extensionGlob extension = .ok [.anyDepth, .name (endingSigns ('.' :: extension.toList))] := by
  have hread := read_ending h
  rw [String.ofList_toList] at hread
  rw [extensionGlob, hread]
  rfl

/-! ### Below one directory -/

theorem components_singleSlashes (h : directory.isAbsolute = true) :
    (singleSlashes directory).components = directory.components := by
  obtain ⟨tail, hs, -, hc⟩ := Path.exists_tail_of_isAbsolute h
  rw [singleSlashes, if_pos h, Path.components_ofParts, Path.filterMap_filter_ne_empty, hc, hs]
  rfl

/-- With single slashes a path leads where its segments lead that are not empty. -/
theorem locate?_singleSlashes_eq {tail : List String} (hne : tail ≠ [])
    (hs : directory.segments = "" :: tail) :
    tree.locate? (singleSlashes directory) = (tail.filter (· ≠ "")).foldlM tree.step? [] := by
  have habs : directory.isAbsolute = true := by
    obtain ⟨segments⟩ := directory
    change segments = _ at hs
    rw [hs]
    exact Path.isAbsolute_root hne
  rw [singleSlashes, if_pos habs, hs, List.filter_cons_of_neg (by simp)]
  cases tail.filter (· ≠ "") with
  | nil => rfl
  | cons first more => rfl

/-- With single slashes the path of a directory leads to the same place. -/
theorem locate?_singleSlashes_iff (h : directory.isAbsolute = true)
    (hdir : tree.isDirectoryAt place = true) :
    tree.locate? (singleSlashes directory) = some place ↔ tree.locate? directory = some place := by
  obtain ⟨tail, hs, htail, -⟩ := Path.exists_tail_of_isAbsolute h
  rw [locate?_singleSlashes_eq htail hs, FileTree.locate?_of_segments htail hs]
  exact ⟨FileTree.foldlM_step?_of_filter hdir, FileTree.foldlM_step?_filter⟩

/-- The names lead down to an entry whose name ends in a dot and one of the extensions. -/
def EndsIn (naming : Naming) (extensions names : List String) : Prop :=
  ∃ name, names.getLast? = some name ∧
    ∃ extension ∈ extensions, (naming.ofText ("." ++ extension)).toList <:+ name.toList

/-- The names lead down to an entry whose name is a text. -/
def EndsInText (naming : Naming) (names : List String) : Prop :=
  ∀ name ∈ names.getLast?, naming.IsText name

instance (naming : Naming) (names : List String) : Decidable (EndsInText naming names) :=
  inferInstanceAs (Decidable (∀ name ∈ names.getLast?, naming.IsText name))

/-- What the globs of the extensions accept: the ending is looked for in names that are texts. -/
theorem endsIn_iff :
    EndsIn naming extensions names ∧ EndsInText naming names ↔ ∃ extension ∈ extensions,
      names.getLast?.any (accepts naming (endingSigns ('.' :: extension.toList))) = true := by
  constructor
  · rintro ⟨⟨name, hlast, extension, hmem, hends⟩, htext⟩
    refine ⟨extension, hmem, ?_⟩
    rw [hlast, Option.any_some, accepts_ending]
    exact ⟨htext name hlast, hends⟩
  · rintro ⟨extension, hmem, hany⟩
    obtain ⟨name, hlast, haccepts⟩ := (Option.any_eq_true _ _).mp hany
    obtain ⟨htext, hends⟩ := accepts_ending.mp haccepts
    refine ⟨⟨name, hlast, extension, hmem, hends⟩, ?_⟩
    intro other hother
    exact Option.mem_unique hlast hother ▸ htext

/-- A file below a directory, at any depth, whose name ends in a dot and one of the extensions. -/
structure IsBelow (naming : Naming) (tree : FileTree) (extensions : List String) (directory : Path)
    (names : List String) : Prop where
  isDirectory : tree.isDirectory directory = true
  fileNames : ∀ name ∈ names, FileTree.IsFileName name
  endsIn : EndsIn naming extensions names
  isFile : tree.isFile (names.foldl Path.joinText directory) = true

theorem foldl_singleSlashes_beq (habs : directory.isAbsolute = true)
    (hnames : ∀ name ∈ names, FileTree.IsFileName name) :
    (names.foldl Path.joinText (singleSlashes directory) == names.foldl Path.joinText directory) =
      true := by
  have hslash : ∀ name ∈ names, '/' ∉ name.toList := fun name hname => (hnames name hname).2
  rw [Path.beq_iff, Path.components_foldl_joinText habs hslash,
    Path.components_foldl_joinText (isAbsolute_singleSlashes habs) hslash,
    components_singleSlashes habs]

theorem isFile_foldl_singleSlashes (habs : directory.isAbsolute = true)
    (hnames : ∀ name ∈ names, FileTree.IsFileName name)
    (hplace : tree.locate? (singleSlashes directory) = tree.locate? directory) :
    tree.isFile (names.foldl Path.joinText (singleSlashes directory)) =
      tree.isFile (names.foldl Path.joinText directory) := by
  have hsame : tree.locate? (names.foldl Path.joinText (singleSlashes directory)) =
      tree.locate? (names.foldl Path.joinText directory) := by
    rw [FileTree.locate?_foldl_joinText (isAbsolute_singleSlashes habs) hnames,
      FileTree.locate?_foldl_joinText habs hnames, hplace]
  rw [Bool.eq_iff_iff, FileTree.isFile_iff, FileTree.isFile_iff, hsame]

theorem IsBelow.mem_entries (h : IsBelow naming tree extensions directory names)
    (habs : directory.isAbsolute = true) (hplace : tree.locate? directory = some place) :
    names ≠ [] ∧ ∃ bytes, (place ++ names, .file bytes) ∈ tree.entries.entries := by
  obtain ⟨found, bytes, hfound, hentry⟩ := FileTree.isFile_iff.mp h.isFile
  rw [FileTree.locate?_foldl_joinText habs h.fileNames, hplace, Option.bind_some] at hfound
  obtain rfl := FileTree.foldlM_step?_names (fun name hname => (h.fileNames name hname).1) hfound
  obtain ⟨name, hlast, -⟩ := h.endsIn
  have hne : names ≠ [] := by
    rintro rfl
    cases hlast
  have hplaceNames := List.append_ne_nil_of_right_ne_nil place hne
  exact ⟨hne, bytes, FileTree.mem_entries_of_entryAt? hplaceNames hentry⟩

/-- The entries that the glob finds are the files that steps down from the directory lead to. -/
theorem isBelow_iff (htree : tree.Named) (habs : directory.isAbsolute = true) :
    IsBelow naming tree extensions directory names ↔
      ∃ place, tree.locate? (singleSlashes directory) = some place ∧
        names ∈ tree.descendants place ∧ EndsIn naming extensions names ∧
          tree.isFile (names.foldl Path.joinText (singleSlashes directory)) = true := by
  constructor
  · intro h
    obtain ⟨place, hplace, hplaceDir⟩ := FileTree.isDirectory_iff.mp h.isDirectory
    have hstart := (locate?_singleSlashes_iff habs hplaceDir).mpr hplace
    obtain ⟨hne, bytes, hentry⟩ := h.mem_entries habs hplace
    refine ⟨place, hstart, FileTree.mem_descendants.mpr ⟨hne, _, hentry⟩, h.endsIn, ?_⟩
    rw [isFile_foldl_singleSlashes habs h.fileNames (hstart.trans hplace.symm)]
    exact h.isFile
  · rintro ⟨place, hstart, hmem, hends, hfile⟩
    have hnames := htree.of_mem_descendants hmem
    -- a file below the place makes it a directory
    have hplaceDir : tree.isDirectoryAt place = true := by
      obtain ⟨found, bytes, hfound, -⟩ := FileTree.isFile_iff.mp hfile
      rw [FileTree.locate?_foldl_joinText (isAbsolute_singleSlashes habs) hnames, hstart,
        Option.bind_some] at hfound
      exact FileTree.isDirectoryAt_of_foldlM (FileTree.mem_descendants.mp hmem).1 hfound
    have hplace := (locate?_singleSlashes_iff habs hplaceDir).mp hstart
    refine ⟨FileTree.isDirectory_iff.mpr ⟨place, hplace, hplaceDir⟩, hnames, hends, ?_⟩
    rw [← isFile_foldl_singleSlashes habs hnames (hstart.trans hplace.symm)]
    exact hfile

/-- Below a directory a scan finds the files that are below what is meant by it as it is shown, and whose
names are texts with one of the extensions. -/
theorem exists_filesBelow (htree : tree.Named) (habs : directory.isAbsolute = true)
    (hext : ∀ extension ∈ extensions, ∀ c ∈ extension.toList, IsLiteral c) :
    ∃ found, filesBelow naming tree extensions directory = .ok found ∧ ∀ path, path ∈ found ↔
      tree.isDirectory directory = true ∧ ∃ names,
        IsBelow naming tree extensions (naming.asShown directory) names ∧ EndsInText naming names ∧
          path = names.foldl Path.joinText (singleSlashes (naming.asShown directory)) := by
  have hshown : (naming.asShown directory).isAbsolute = true :=
    Naming.isAbsolute_asShown naming habs
  rw [filesBelow]
  by_cases hdir : tree.isDirectory directory = true
  · have hglobs := mapM_eq_ok fun extension hmem => extensionGlob_literal (hext extension hmem)
    rw [if_pos hdir, hglobs]
    refine ⟨_, rfl, ?_⟩
    intro path
    simp only [List.mem_flatMap, List.mem_map, List.mem_filter]
    constructor
    · rintro ⟨glob, ⟨extension, hmem, rfl⟩, hin, hfile⟩
      obtain ⟨place, hplace, names, hnames, hlast, rfl⟩ := mem_expand_name.mp hin
      obtain ⟨hends, htext⟩ := endsIn_iff.mpr ⟨extension, hmem, hlast⟩
      have hbelow := (isBelow_iff htree hshown).mpr ⟨place, hplace, hnames, hends, hfile⟩
      exact ⟨hdir, names, hbelow, htext, rfl⟩
    · rintro ⟨-, names, hbelow, htext, rfl⟩
      obtain ⟨place, hplace, hnames, hends, hfile⟩ := (isBelow_iff htree hshown).mp hbelow
      obtain ⟨extension, hmem, hlast⟩ := endsIn_iff.mp ⟨hends, htext⟩
      exact ⟨_, ⟨extension, hmem, rfl⟩,
        mem_expand_name.mpr ⟨place, hplace, names, hnames, hlast, rfl⟩, hfile⟩
  · rw [if_neg hdir]
    refine ⟨[], rfl, ?_⟩
    intro path
    constructor
    · intro h
      cases h
    · rintro ⟨h, -⟩
      exact absurd h hdir

/-! ### All directories -/

theorem notAfter_trans (p q r : Path) (hpq : notAfter p q = true) (hqr : notAfter q r = true) :
    notAfter p r = true :=
  @TransCmp.isLE_trans Path compare _ p q r hpq hqr

theorem notAfter_total (p q : Path) : (notAfter p q || notAfter q p) = true := by
  rw [notAfter, notAfter, @OrientedCmp.eq_swap Path compare _ q p]
  cases compare p q with
  | lt => rfl
  | eq => rfl
  | gt => rfl

/-- In order and without repetitions, each path comes before the next. -/
theorem pairwise_firstOccurrences_mergeSort (paths : List Path) :
    (firstOccurrences id (paths.mergeSort notAfter)).Pairwise fun p q => compare p q = .lt := by
  have hsorted := (List.pairwise_mergeSort notAfter_trans notAfter_total paths).sublist
    (firstOccurrences_sublist id _)
  apply (hsorted.and (firstOccurrences_pairwise id _)).imp
  rintro p q ⟨hle, hdiffer⟩
  have hne : compare p q ≠ .eq := by
    intro heq
    have hsame : (q == p) = true := BEq.symm (Path.compare_eq_iff.mp heq)
    rw [id, id, hsame] at hdiffer
    cases hdiffer
  rw [notAfter] at hle
  cases hc : compare p q with
  | lt => rfl
  | eq => exact absurd hc hne
  | gt =>
    rw [hc] at hle
    cases hle

theorem exists_mem_firstOccurrences_mergeSort {paths : List Path} :
    (∃ p ∈ firstOccurrences id (paths.mergeSort notAfter), (p == path) = true) ↔
      ∃ p ∈ paths, (p == path) = true := by
  constructor
  · rintro ⟨p, hp, hsame⟩
    exact ⟨p, List.mem_mergeSort.mp (mem_of_mem_firstOccurrences hp), hsame⟩
  · rintro ⟨p, hp, hsame⟩
    obtain ⟨kept, hkept, hp'⟩ := exists_mem_firstOccurrences id (List.mem_mergeSort.mpr hp)
    exact ⟨kept, hkept, BEq.trans (BEq.symm hp') hsame⟩

/-- A file below a directory that a scan finds when names need be no texts. The globs start at the directory
as it is shown, and match no name that is no text. -/
structure IsFound (naming : Naming) (tree : FileTree) (extensions : List String) (directory : Path)
    (names : List String) : Prop where
  isDirectory : tree.isDirectory directory = true
  isBelow : IsBelow naming tree extensions (naming.asShown directory) names
  endsInText : EndsInText naming names

/-- In any tree a scan finds just what `IsFound` says, in order and without repetitions. -/
theorem files_found (naming : Naming) {directories : List Path} (htree : tree.Named)
    (habs : ∀ directory ∈ directories, directory.isAbsolute = true)
    (hext : ∀ extension ∈ extensions, ∀ c ∈ extension.toList, IsLiteral c) :
    ∃ found, filesAs naming tree directories extensions = .ok found ∧
      (found.Pairwise fun p q => compare p q = .lt) ∧
        ∀ path, (∃ p ∈ found, (p == path) = true) ↔
          ∃ directory ∈ directories, ∃ names, IsFound naming tree extensions directory names ∧
            (names.foldl Path.joinText (naming.asShown directory) == path) = true := by
  have hbelow : ∀ directory ∈ directories,
      ∃ found, filesBelow naming tree extensions directory = .ok found ∧ _ :=
    fun directory h => exists_filesBelow htree (habs directory h) hext
  choose! below hok hmem using hbelow
  refine ⟨firstOccurrences id ((directories.map below).flatten.mergeSort notAfter), ?_,
    pairwise_firstOccurrences_mergeSort _, ?_⟩
  · rw [filesAs, mapM_eq_ok hok]
    rfl
  intro path
  rw [exists_mem_firstOccurrences_mergeSort]
  have hshown : ∀ directory ∈ directories, (naming.asShown directory).isAbsolute = true :=
    fun directory h => Naming.isAbsolute_asShown naming (habs directory h)
  constructor
  · rintro ⟨p, hp, hsame⟩
    obtain ⟨_, hlist, hin⟩ := List.mem_flatten.mp hp
    obtain ⟨directory, hdirectory, rfl⟩ := List.mem_map.mp hlist
    obtain ⟨hdir, names, hnames, htext, rfl⟩ := (hmem directory hdirectory p).mp hin
    refine ⟨directory, hdirectory, names, ⟨hdir, hnames, htext⟩, ?_⟩
    exact BEq.trans (BEq.symm
      (foldl_singleSlashes_beq (hshown directory hdirectory) hnames.fileNames)) hsame
  · rintro ⟨directory, hdirectory, names, ⟨hdir, hnames, htext⟩, hsame⟩
    refine ⟨names.foldl Path.joinText (singleSlashes (naming.asShown directory)), ?_, ?_⟩
    · apply List.mem_flatten.mpr
      refine ⟨below directory, List.mem_map.mpr ⟨directory, hdirectory, rfl⟩, ?_⟩
      exact (hmem directory hdirectory _).mpr ⟨hdir, names, hnames, htext, rfl⟩
    · exact BEq.trans (foldl_singleSlashes_beq (hshown directory hdirectory) hnames.fileNames) hsame

/-- What a scan looks at is text: the directories that are there, and the names of the files that it is to
find. -/
structure LooksAtTexts (naming : Naming) (tree : FileTree) (extensions : List String)
    (directories : List Path) : Prop where
  directory : ∀ directory ∈ directories, tree.isDirectory directory = true →
    ∀ segment ∈ directory.segments, naming.IsText segment
  name : ∀ directory ∈ directories, ∀ names, IsBelow naming tree extensions directory names →
    EndsInText naming names

theorem looksAtTexts_texts (tree : FileTree) (extensions : List String) (directories : List Path) :
    LooksAtTexts .texts tree extensions directories :=
  ⟨fun _ _ _ segment _ => Naming.isText_texts segment,
    fun _ _ _ _ name _ => Naming.isText_texts name⟩

/-- It is enough that the directories and the names of all files are texts. -/
theorem looksAtTexts_of_entries {directories : List Path}
    (habs : ∀ directory ∈ directories, directory.isAbsolute = true)
    (hdirectories : ∀ directory ∈ directories, ∀ segment ∈ directory.segments, naming.IsText segment)
    (hfiles : ∀ entry ∈ tree.entries.entries, entry.2 ≠ .directory → EndsInText naming entry.1) :
    LooksAtTexts naming tree extensions directories := by
  refine ⟨fun directory h _ => hdirectories directory h, ?_⟩
  intro directory hdirectory names hbelow name hname
  obtain ⟨place, hplace, -⟩ := FileTree.isDirectory_iff.mp hbelow.isDirectory
  obtain ⟨hne, bytes, hentry⟩ := hbelow.mem_entries (habs directory hdirectory) hplace
  have hlast := hfiles _ hentry (by simp)
  rw [EndsInText, List.getLast?_append_of_ne_nil place hne] at hlast
  exact hlast name hname

/-- Among texts the files that a scan finds are those below its directories. -/
theorem LooksAtTexts.isFound_iff {directories : List Path}
    (h : LooksAtTexts naming tree extensions directories) (hmem : directory ∈ directories) :
    IsFound naming tree extensions directory names ∧
        (names.foldl Path.joinText (naming.asShown directory) == path) = true ↔
      IsBelow naming tree extensions directory names ∧
        (names.foldl Path.joinText directory == path) = true := by
  have hshown : tree.isDirectory directory = true → naming.asShown directory = directory :=
    fun hdir => Naming.asShown_of_isText (h.directory directory hmem hdir)
  constructor
  · rintro ⟨⟨hdir, hbelow, -⟩, hsame⟩
    rw [hshown hdir] at hbelow hsame
    exact ⟨hbelow, hsame⟩
  · rintro ⟨hbelow, hsame⟩
    have hdir := hbelow.isDirectory
    rw [← hshown hdir] at hsame
    refine ⟨⟨hdir, ?_, h.name directory hmem names hbelow⟩, hsame⟩
    rw [hshown hdir]
    exact hbelow

theorem LooksAtTexts.exists_isFound_iff {directories : List Path}
    (h : LooksAtTexts naming tree extensions directories) :
    (∃ directory ∈ directories, ∃ names, IsFound naming tree extensions directory names ∧
        (names.foldl Path.joinText (naming.asShown directory) == path) = true) ↔
      ∃ directory ∈ directories, ∃ names, IsBelow naming tree extensions directory names ∧
        (names.foldl Path.joinText directory == path) = true := by
  refine exists_congr fun directory => and_congr_right fun hmem => ?_
  exact exists_congr fun names => h.isFound_iff hmem

/-- In a tree whose names are texts a scan finds each file below its directories. -/
theorem files_texts {directories : List Path} (htree : tree.Named)
    (habs : ∀ directory ∈ directories, directory.isAbsolute = true)
    (hext : ∀ extension ∈ extensions, ∀ c ∈ extension.toList, IsLiteral c) :
    ∃ found, files tree directories extensions = .ok found ∧
      ∀ path, (∃ p ∈ found, (p == path) = true) ↔
        ∃ directory ∈ directories, ∃ names, IsBelow .texts tree extensions directory names ∧
          (names.foldl Path.joinText directory == path) = true := by
  obtain ⟨found, hfound, -, hmem⟩ := files_found .texts htree habs hext
  refine ⟨found, hfound, fun path => ?_⟩
  rw [hmem, (looksAtTexts_texts tree extensions directories).exists_isFound_iff]

/-- A name that is no text: its last byte begins a character that does not go on. -/
def oddName : String := Naming.ofBytes [0x63, 0x61, 0x66, 0xE9]

/-- A name that is a text, and that a glob would read in another way. -/
def starredName : String := Naming.ofText .bytes "café[1]*"

/-- Sources, some of them in directories with such names or with the name of a source, next to a text. -/
def sourceTree : FileTree :=
  (((FileTree.empty.write ["r", "src", "lower.cc"] []).write ["r", "src", "deep", oddName, ".api.h"]
    []).write ["r", "src", "notes.txt"] []).write ["r", starredName, "old.cc", "c.cc"] []

/-- Below a directory whose name is no text nothing is found, and a file whose name is none is left out. -/
example :
    let tree := (FileTree.empty.write ["r", oddName, "a.cc"] []).write ["r", oddName ++ ".cc"] []
    (filesAs .bytes tree [.ofPlace ["r", oddName]] ["cc"]).toOption = some [] ∧
      (filesAs .bytes tree [.ofPlace ["r"]] ["cc"]).toOption =
        some [.ofPlace ["r", oddName, "a.cc"]] := by
  decide +kernel

end Scan

end CrossIndex
