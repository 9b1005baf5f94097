import CrossIndex.Proofs.Fact
import CrossIndex.Proofs.Path.Components
import CrossIndex.Proofs.Scan.Naming
import CrossIndex.Proofs.Text.Split
import CrossIndex.Scan.Files

/-!
Where the files of a scan are. Main statement: below absolute directories a scan finds absolute paths.
-/

namespace CrossIndex

theorem exists_of_bind {ε α β : Type} {x : Except ε α} {f : α → Except ε β} {b : β}
    (h : x >>= f = .ok b) : ∃ a, x = .ok a ∧ f a = .ok b := by
  cases x with
  | error e => cases h
  | ok a => exact ⟨a, rfl, h⟩

theorem eq_ok_of_toOption {ε α : Type} {x : Except ε α} {a : α} (h : x.toOption = some a) :
    x = .ok a := by
  cases x with
  | error e => cases h
  | ok b =>
    cases h
    rfl

theorem exists_of_mem_mapM {ε α β : Type} {f : α → Except ε β} {items : List α} {found : List β}
    (h : items.mapM f = .ok found) {y : β} (hy : y ∈ found) : ∃ x ∈ items, f x = .ok y := by
  induction items generalizing found with
  | nil =>
    cases h
    cases hy
  | cons x items ih =>
    rw [List.mapM_cons] at h
    obtain ⟨first, hx, hmore⟩ := exists_of_bind h
    obtain ⟨rest, hrest, hfound⟩ := exists_of_bind hmore
    cases hfound
    rcases List.mem_cons.mp hy with rfl | hmem
    · exact ⟨x, List.mem_cons_self, hx⟩
    · obtain ⟨x', hmem', hx'⟩ := ih hrest hmem
      exact ⟨x', List.mem_cons_of_mem _ hmem', hx'⟩

namespace Scan

variable {naming : Naming}

theorem isAbsolute_of_mem_expand {tree : FileTree} {parts : List GlobPart} {directory path : Path}
    (h : directory.isAbsolute = true) (hpath : path ∈ Glob.expand naming tree parts directory) :
    path.isAbsolute = true := by
  -- every way that a glob goes on from a directory is along names
  induction parts, directory using Glob.expand.induct tree with
  | case1 directory =>
    rw [Glob.expand, List.mem_singleton] at hpath
    exact hpath ▸ h
  | case2 directory signs parts ih =>
    rw [Glob.expand] at hpath
    obtain ⟨name, -, hname⟩ := List.mem_flatMap.mp hpath
    exact ih name (Path.isAbsolute_joinText h name) hname
  | case3 directory =>
    rw [Glob.expand] at hpath
    cases hpath
  | case4 parts directory ih =>
    rw [Glob.expand] at hpath
    exact ih h hpath
  | case5 signs parts directory place hplace ih =>
    rw [Glob.expand, hplace] at hpath
    obtain ⟨names, -, hnames⟩ := List.mem_flatMap.mp hpath
    exact ih names (Path.isAbsolute_foldl_joinText h names) hnames
  | case6 signs parts directory hplace =>
    rw [Glob.expand, hplace] at hpath
    cases hpath

theorem isAbsolute_singleSlashes {directory : Path} (h : directory.isAbsolute = true) :
    (singleSlashes directory).isAbsolute = true := by
  rw [singleSlashes, if_pos h]
  exact Path.isAbsolute_ofParts _

theorem isAbsolute_of_mem_filesBelow {tree : FileTree} {extensions : List String}
    {directory path : Path} {found : List Path} (h : directory.isAbsolute = true)
    (hfound : filesBelow naming tree extensions directory = .ok found) (hpath : path ∈ found) :
    path.isAbsolute = true := by
  have hstart := isAbsolute_singleSlashes (Naming.isAbsolute_asShown naming h)
  rw [filesBelow] at hfound
  split at hfound
  · obtain ⟨globs, -, hglobs⟩ := exists_of_bind hfound
    cases hglobs
    obtain ⟨glob, -, hglob⟩ := List.mem_flatMap.mp hpath
    exact isAbsolute_of_mem_expand hstart (List.mem_filter.mp hglob).1
  · cases hfound
    cases hpath

/-- Below absolute directories a scan finds absolute paths. -/
theorem isAbsolute_of_mem_files {tree : FileTree} {directories : List Path}
    {extensions : List String} {found : List Path}
    (h : ∀ directory ∈ directories, directory.isAbsolute = true)
    (hfound : files tree directories extensions = .ok found) {path : Path} (hpath : path ∈ found) :
    path.isAbsolute = true := by
  rw [files, filesAs] at hfound
  obtain ⟨below, hbelow, hsorted⟩ := exists_of_bind hfound
  cases hsorted
  have hmem := List.mem_mergeSort.mp (mem_of_mem_firstOccurrences hpath)
  obtain ⟨some, hsome, hpath⟩ := List.mem_flatten.mp hmem
  obtain ⟨directory, hdirectory, hfiles⟩ := exists_of_mem_mapM hbelow hsome
  exact isAbsolute_of_mem_filesBelow (h directory hdirectory) hfiles hpath

/-- Files that are found in order need no sorting. -/
theorem files_of_pairwise {tree : FileTree} {directories : List Path} {extensions : List String}
    {found : List (List Path)} (h : directories.mapM (filesBelow .texts tree extensions) = .ok found)
    (hsorted : found.flatten.Pairwise fun p q => notAfter p q = true) :
    files tree directories extensions = .ok (firstOccurrences id found.flatten) := by
  rw [files, filesAs, h]
  change Except.ok (firstOccurrences id (found.flatten.mergeSort notAfter)) = _
  rw [List.mergeSort_of_pairwise hsorted]

theorem isAbsolute_of_mem_directories {root : Path} {configured : List String} {extra : List Path}
    (hroot : root.isAbsolute = true) (hextra : ∀ directory ∈ extra, directory.isAbsolute = true)
    {directory : Path} (h : directory ∈ directories root configured extra) :
    directory.isAbsolute = true := by
  rcases List.mem_append.mp (mem_of_mem_firstOccurrences h) with hconfigured | hmem
  · obtain ⟨text, -, rfl⟩ := List.mem_map.mp hconfigured
    exact Path.isAbsolute_joinText hroot text
  · exact hextra directory hmem

end Scan

end CrossIndex
