import CrossIndex.FileTree
import CrossIndex.Proofs.Module.Path
import CrossIndex.Proofs.Table

/-!
Where paths lead in a file tree. No entry stands for another one, so that the components of a path say
where it leads. Main statements: a path leads to the place that is left of it after folding, the path
of that place leads there as well, and so does the file of the module path of a Python file; steps down
along names lead to the place of these names below; and what is done to a tree keeps names of files.
-/

namespace CrossIndex.FileTree

variable {tree : FileTree} {place next : Place} {segment : String} {p : Path}

/-- The place is reached by names, through directories. -/
structure Reaches (tree : FileTree) (place : Place) : Prop where
  names : ∀ name ∈ place, Path.IsName name
  above : ∀ n < place.length, tree.isDirectoryAt (place.take n) = true
  there : (tree.entryAt? place).isSome = true

theorem isSome_of_isDirectoryAt (h : tree.isDirectoryAt place = true) :
    (tree.entryAt? place).isSome = true := by
  have hentry : tree.entryAt? place = some .directory := eq_of_beq h
  rw [hentry]
  rfl

theorem reaches_root : tree.Reaches [] :=
  ⟨fun _ h => (List.not_mem_nil h).elim, fun _ h => (Nat.not_lt_zero _ h).elim, rfl⟩

theorem Reaches.isSome_take (h : tree.Reaches place) {n : Nat} (hn : n ≤ place.length) :
    (tree.entryAt? (place.take n)).isSome = true := by
  rcases Nat.lt_or_eq_of_le hn with hlt | rfl
  · exact isSome_of_isDirectoryAt (h.above n hlt)
  · rw [List.take_length]
    exact h.there

theorem step?_cases (h : tree.step? place segment = some next) :
    tree.isDirectoryAt place = true ∧
      (Path.isFiller segment = true ∧ next = place ∨ segment = ".." ∧ next = place.dropLast ∨
        Path.IsName segment ∧ next = place ++ [segment] ∧ (tree.entryAt? next).isSome = true) := by
  rw [step?] at h
  split at h
  · next hdir =>
    refine ⟨hdir, ?_⟩
    split at h
    · next hfiller =>
      cases h
      exact Or.inl ⟨hfiller, rfl⟩
    · next hfiller =>
      split at h
      · next hup =>
        cases h
        exact Or.inr (Or.inl ⟨hup, rfl⟩)
      · next hup =>
        dsimp only at h
        have hname : segment ≠ "" ∧ segment ≠ "." := by simpa [Path.isFiller] using hfiller
        split at h
        · next hentry =>
          cases h
          exact Or.inr (Or.inr ⟨⟨hname.1, hname.2, hup⟩, rfl, hentry⟩)
        · cases h
  · cases h

theorem Reaches.step (h : tree.Reaches place) (hs : tree.step? place segment = some next) :
    tree.Reaches next := by
  obtain ⟨hdir, ⟨-, rfl⟩ | ⟨-, rfl⟩ | ⟨hname, rfl, hentry⟩⟩ := step?_cases hs
  · exact h
  · refine ⟨fun name hmem => h.names name (List.dropLast_subset _ hmem), ?_, ?_⟩
    · intro n hn
      rw [List.length_dropLast] at hn
      rw [List.dropLast_eq_take, List.take_take, Nat.min_eq_left (Nat.le_of_lt hn)]
      exact h.above n (by omega)
    · rw [List.dropLast_eq_take]
      exact h.isSome_take (Nat.sub_le _ _)
  · refine ⟨?_, ?_, hentry⟩
    · intro name hmem
      rcases List.mem_append.mp hmem with hold | hnew
      · exact h.names name hold
      · exact List.mem_singleton.mp hnew ▸ hname
    · intro n hn
      rw [List.length_append, List.length_singleton] at hn
      rcases Nat.lt_or_eq_of_le (Nat.le_of_lt_succ hn) with hlt | rfl
      · rw [List.take_append_of_le_length (Nat.le_of_lt hlt)]
        exact h.above n hlt
      · rw [List.take_left]
        exact hdir

/-- A step does to a place what folding does to its names. -/
theorem foldl_step? (hs : tree.step? place segment = some next) :
    (Path.bodyComponent? segment).toList.foldl (foldComponent true) (place.reverse.map .name) =
      next.reverse.map .name := by
  obtain ⟨-, ⟨hfiller, rfl⟩ | ⟨rfl, rfl⟩ | ⟨hname, rfl, -⟩⟩ := step?_cases hs
  · rw [Path.bodyComponent?_filler hfiller]
    rfl
  · -- a step up drops the last name, and stays at the root
    rcases List.eq_nil_or_concat place with rfl | ⟨above, last, rfl⟩
    · rfl
    · simp [Path.bodyComponent?, Path.isFiller, foldComponent]
  · rw [Path.bodyComponent?_name hname, List.reverse_append]
    rfl

theorem reaches_foldlM {segments : List String} (h : tree.Reaches place)
    (hs : segments.foldlM tree.step? place = some next) :
    tree.Reaches next ∧
      (segments.filterMap Path.bodyComponent?).foldl (foldComponent true)
        (place.reverse.map .name) = next.reverse.map .name := by
  induction segments generalizing place with
  | nil =>
    cases hs
    exact ⟨h, rfl⟩
  | cons segment segments ih =>
    rw [List.foldlM_cons] at hs
    obtain ⟨middle, hstep, hrest⟩ := Option.bind_eq_some_iff.mp hs
    obtain ⟨hreaches, hfold⟩ := ih (h.step hstep) hrest
    refine ⟨hreaches, ?_⟩
    rw [← hfold, ← foldl_step? hstep, ← List.foldl_append, List.filterMap_cons]
    cases Path.bodyComponent? segment with
    | none => rfl
    | some c => rfl

/-- An absolute path leads to the names that folding leaves of it. -/
theorem reaches_of_locate? (hp : p.isAbsolute = true) (h : tree.locate? p = some place) :
    tree.Reaches place ∧ foldComponents true p.components = place.map .name := by
  obtain ⟨tail, hs, -, hc⟩ := Path.exists_tail_of_isAbsolute hp
  rw [locate?, if_pos hp, hs, List.tail_cons] at h
  obtain ⟨hreaches, hfold⟩ := reaches_foldlM reaches_root h
  refine ⟨hreaches, ?_⟩
  rw [foldComponents, hc]
  change ((tail.filterMap Path.bodyComponent?).foldl (foldComponent true) []).reverse = _
  rw [show ([] : List Component) = ([] : Place).reverse.map .name from rfl, hfold, List.map_reverse,
    List.reverse_reverse]

/-- The path of a place leads there. -/
theorem Reaches.locate?_ofPlace (h : tree.Reaches place) :
    tree.locate? (.ofPlace place) = some place := by
  -- each name is a step down from the directory before it
  have hdown : ∀ rest above : Place, place = above ++ rest →
      rest.foldlM tree.step? above = some place := by
    intro rest
    induction rest with
    | nil =>
      intro above hplace
      rw [hplace, List.append_nil]
      rfl
    | cons name rest ih =>
      intro above hplace
      have hlength : above.length < place.length := by
        rw [hplace, List.length_append, List.length_cons]
        omega
      have hdir : tree.isDirectoryAt above = true := by
        have habove := h.above above.length hlength
        rwa [hplace, List.take_left] at habove
      have hnext : place = (above ++ [name]) ++ rest := by
        rw [hplace, List.append_assoc, List.singleton_append]
      have hthere : (tree.entryAt? (above ++ [name])).isSome = true := by
        have hle : (above ++ [name]).length ≤ place.length := by
          rw [hnext]
          exact (List.prefix_append _ _).length_le
        have htake := h.isSome_take hle
        rwa [hnext, List.take_left] at htake
      obtain ⟨hempty, hdot, hup⟩ : Path.IsName name := h.names name (by simp [hplace])
      have hstep : tree.step? above name = some (above ++ [name]) := by
        simp [step?, hdir, Path.isFiller, hempty, hdot, hup, hthere]
      rw [List.foldlM_cons, hstep]
      exact ih (above ++ [name]) hnext
  cases place with
  | nil => rfl
  | cons first more => exact hdown (first :: more) [] rfl

theorem isAbsolute_ofPlace (place : Place) : (Path.ofPlace place).isAbsolute = true :=
  Path.isAbsolute_ofParts place

theorem readText?_ofPlace (hp : p.isAbsolute = true) (h : tree.locate? p = some place) :
    tree.readText? (.ofPlace place) = tree.readText? p := by
  have hplace := (reaches_of_locate? hp h).1.locate?_ofPlace
  rw [readText?, read?, entry?, hplace, readText?, read?, entry?, h]

theorem modulePath_ofPlace (hp : p.isAbsolute = true) (h : tree.locate? p = some place) :
    modulePath (.ofPlace place) = modulePath p := by
  obtain ⟨hreaches, hfold⟩ := reaches_of_locate? hp h
  have habs := isAbsolute_ofPlace place
  have hfold' := (reaches_of_locate? habs hreaches.locate?_ofPlace).2
  -- a module path is read off what folding leaves, which is the place for either path
  have hfolded : (Path.ofPlace place).folded = p.folded := by
    rw [Path.folded, Path.folded, habs, hp, hfold, hfold']
  rw [modulePath, modulePath, hfolded]

/-- The module path of a Python file leads back to the file. -/
theorem sourceFile_modulePath (hp : p.isAbsolute = true) (hpy : SourceKind.of p = .python)
    (h : tree.locate? p = some place) : sourceFile (modulePath p) = .ofPlace place := by
  have hnames : (place.map Component.name).map Component.text = place := by
    rw [List.map_map]
    exact List.map_id' place
  rw [sourceFile_modulePath_eq_folded hp hpy, Path.folded, hp, (reaches_of_locate? hp h).2, hnames]
  rfl

/-! ### Steps down -/

variable {name : String} {names : List String}

/-- A name of an entry of a directory. -/
def IsFileName (name : String) : Prop := Path.IsName name ∧ '/' ∉ name.toList

instance (name : String) : Decidable (IsFileName name) :=
  inferInstanceAs (Decidable ((name ≠ "" ∧ name ≠ "." ∧ name ≠ "..") ∧ _))

theorem step?_filler (h : Path.isFiller segment = true) :
    tree.step? place segment = if tree.isDirectoryAt place then some place else none := by
  rw [step?, if_pos h]

/-- A slash at the end asks for a directory, and so does a step on from there. -/
theorem step?_bind_step? (place : Place) (segment : String) :
    (tree.step? place "").bind (tree.step? · segment) = tree.step? place segment := by
  rw [step?_filler (by decide)]
  by_cases hdir : tree.isDirectoryAt place = true
  · rw [if_pos hdir, Option.bind_some]
  · rw [if_neg hdir, Option.bind_none, step?, if_neg hdir]

theorem locate?_of_segments {tail : List String} (hne : tail ≠ []) (h : p.segments = "" :: tail) :
    tree.locate? p = tail.foldlM tree.step? [] := by
  have habs : p.isAbsolute = true := by
    obtain ⟨segments⟩ := p
    change segments = _ at h
    rw [h]
    exact Path.isAbsolute_root hne
  rw [locate?, if_pos habs, h, List.tail_cons]

/-- A path that goes on by a name leads one step down. -/
theorem locate?_joinText (hp : p.isAbsolute = true) (hname : IsFileName name) :
    tree.locate? (p.joinText name) = (tree.locate? p).bind (tree.step? · name) := by
  obtain ⟨tail, hs, htail, -⟩ := Path.exists_tail_of_isAbsolute hp
  have hjoin : p.joinText name = if tail.getLast? = some "" then
      ⟨"" :: (tail.dropLast ++ [name])⟩ else ⟨"" :: (tail ++ [name])⟩ := by
    rw [Path.joinText, Path.ofString_of_not_mem hname.2, Path.join,
      if_neg (by rw [Path.isAbsolute_singleton]; exact Bool.false_ne_true), hs,
      List.getLast?_cons_of_ne_nil htail, List.dropLast_cons_of_ne_nil htail]
    rfl
  rw [hjoin, locate?_of_segments htail hs]
  split
  · next hlast =>
    obtain ⟨init, rfl⟩ := List.getLast?_eq_some_iff.mp hlast
    rw [List.dropLast_concat, locate?_of_segments (by simp) rfl, List.foldlM_append,
      List.foldlM_append]
    cases init.foldlM tree.step? [] with
    | none => rfl
    | some above =>
      change tree.step? above name >>= pure = (tree.step? above "" >>= pure).bind _
      rw [bind_pure, bind_pure, step?_bind_step?]
  · rw [locate?_of_segments (by simp) rfl, List.foldlM_append]
    cases tail.foldlM tree.step? [] with
    | none => rfl
    | some above =>
      change tree.step? above name >>= pure = _
      rw [bind_pure, Option.bind_some]

theorem locate?_foldl_joinText (hp : p.isAbsolute = true) (hnames : ∀ name ∈ names, IsFileName name) :
    tree.locate? (names.foldl Path.joinText p) =
      (tree.locate? p).bind (names.foldlM tree.step? ·) := by
  induction names generalizing p with
  | nil =>
    rw [List.foldl_nil]
    cases tree.locate? p with
    | none => rfl
    | some place => rfl
  | cons name names ih =>
    rw [List.foldl_cons, ih (Path.isAbsolute_joinText hp name) fun n hn =>
      hnames n (List.mem_cons_of_mem _ hn), locate?_joinText hp (hnames name List.mem_cons_self)]
    cases tree.locate? p with
    | none => rfl
    | some place => rw [Option.bind_some, Option.bind_some, List.foldlM_cons]; rfl

/-- Steps down along names lead to the place of these names below. -/
theorem foldlM_step?_names (hnames : ∀ name ∈ names, Path.IsName name)
    (h : names.foldlM tree.step? place = some next) : next = place ++ names := by
  induction names generalizing place with
  | nil =>
    cases h
    exact (List.append_nil _).symm
  | cons name names ih =>
    rw [List.foldlM_cons] at h
    obtain ⟨below, hstep, hrest⟩ := Option.bind_eq_some_iff.mp h
    obtain ⟨hempty, hdot, hup⟩ := hnames name List.mem_cons_self
    have hbelow : below = place ++ [name] := by
      obtain ⟨-, ⟨hfiller, -⟩ | ⟨hparent, -⟩ | ⟨-, hdown, -⟩⟩ := step?_cases hstep
      · simp [Path.isFiller, hempty, hdot] at hfiller
      · exact absurd hparent hup
      · exact hdown
    rw [ih (fun n hn => hnames n (List.mem_cons_of_mem _ hn)) hrest, hbelow, List.append_assoc,
      List.singleton_append]

/-- Empty segments of a path to a directory can be left out. -/
theorem foldlM_step?_filter {segments : List String}
    (h : segments.foldlM tree.step? place = some next) :
    (segments.filter (· ≠ "")).foldlM tree.step? place = some next := by
  induction segments generalizing place with
  | nil => exact h
  | cons segment segments ih =>
    rw [List.foldlM_cons] at h
    obtain ⟨middle, hstep, hrest⟩ := Option.bind_eq_some_iff.mp h
    by_cases hempty : segment = ""
    · subst hempty
      rw [step?_filler (by decide)] at hstep
      split at hstep
      · cases hstep
        exact ih hrest
      · cases hstep
    · rw [List.filter_cons_of_pos (by simpa using hempty), List.foldlM_cons, hstep]
      exact ih hrest

/-- A step goes on from a directory. -/
theorem isDirectoryAt_of_foldlM {segments : List String} (hne : segments ≠ [])
    (h : segments.foldlM tree.step? place = some next) : tree.isDirectoryAt place = true := by
  cases segments with
  | nil => exact absurd rfl hne
  | cons segment segments =>
    rw [List.foldlM_cons] at h
    obtain ⟨middle, hstep, -⟩ := Option.bind_eq_some_iff.mp h
    exact (step?_cases hstep).1

/-- Empty segments can be put into a path to a directory. -/
theorem foldlM_step?_of_filter {segments : List String} (hdir : tree.isDirectoryAt next = true)
    (h : (segments.filter (· ≠ "")).foldlM tree.step? place = some next) :
    segments.foldlM tree.step? place = some next := by
  induction segments generalizing place with
  | nil => exact h
  | cons segment segments ih =>
    by_cases hempty : segment = ""
    · subst hempty
      rw [List.filter_cons_of_neg (by simp)] at h
      have hplace : tree.isDirectoryAt place = true := by
        by_cases hnil : segments.filter (· ≠ "") = []
        · rw [hnil] at h
          cases h
          exact hdir
        · exact isDirectoryAt_of_foldlM hnil h
      rw [List.foldlM_cons, step?_filler (by decide), if_pos hplace]
      exact ih h
    · rw [List.filter_cons_of_pos (by simpa using hempty), List.foldlM_cons] at h
      obtain ⟨middle, hstep, hrest⟩ := Option.bind_eq_some_iff.mp h
      rw [List.foldlM_cons, hstep]
      exact ih hrest

theorem mem_entries_of_entryAt? {kind : Entry} (hplace : place ≠ [])
    (h : tree.entryAt? place = some kind) : (place, kind) ∈ tree.entries.entries := by
  rw [entryAt?, if_neg hplace] at h
  obtain ⟨key, hkey, hmem⟩ := SortedTable.exists_mem_of_get? h
  rwa [Std.compare_eq_iff_eq.mp hkey]

theorem isFile_iff : tree.isFile p = true ↔
    ∃ place bytes, tree.locate? p = some place ∧ tree.entryAt? place = some (.file bytes) := by
  rw [isFile, read?, entry?]
  cases tree.locate? p with
  | none => simp
  | some place =>
    cases hentry : tree.entryAt? place with
    | none => simp [hentry]
    | some kind =>
      cases kind with
      | directory => simp [hentry]
      | file bytes => simp [hentry]

theorem isDirectory_iff : tree.isDirectory p = true ↔
    ∃ place, tree.locate? p = some place ∧ tree.isDirectoryAt place = true := by
  rw [isDirectory, entry?]
  cases tree.locate? p with
  | none => simp
  | some place => simp [isDirectoryAt]

theorem mem_descendants :
    names ∈ tree.descendants place ↔
      names ≠ [] ∧ ∃ kind, (place ++ names, kind) ∈ tree.entries.entries := by
  rw [descendants, List.mem_filterMap]
  constructor
  · rintro ⟨⟨other, kind⟩, hmem, hbelow⟩
    rw [below?] at hbelow
    split at hbelow
    · next h =>
      cases hbelow
      obtain ⟨rest, rfl⟩ := List.isPrefixOf_iff_prefix.mp h.1
      rw [List.drop_left]
      refine ⟨?_, kind, hmem⟩
      rintro rfl
      exact h.2 (List.append_nil _).symm
    · cases hbelow
  · rintro ⟨hne, kind, hmem⟩
    refine ⟨(place ++ names, kind), hmem, ?_⟩
    rw [below?, if_pos, List.drop_left]
    refine ⟨List.isPrefixOf_iff_prefix.mpr (List.prefix_append _ _), ?_⟩
    intro h
    exact hne (List.append_right_eq_self.mp h.symm)

/-! ### Names in a tree -/

/-- The entries of the tree have names of files. -/
def Named (tree : FileTree) : Prop :=
  ∀ entry ∈ tree.entries.entries, ∀ name ∈ entry.1, IsFileName name

theorem Named.of_mem_descendants (h : tree.Named) (hmem : names ∈ tree.descendants place) :
    ∀ name ∈ names, IsFileName name := by
  obtain ⟨-, kind, hentry⟩ := mem_descendants.mp hmem
  exact fun name hname => h _ hentry name (List.mem_append_right _ hname)

theorem named_empty : empty.Named := fun entry h => by cases h

theorem Named.insert (h : tree.Named) (hplace : ∀ name ∈ place, IsFileName name) (kind : Entry) :
    Named { tree with entries := tree.entries.insert place kind } := by
  intro entry hmem name hname
  rcases SortedTable.mem_insert hmem with hold | ⟨-, hkey⟩
  · exact h entry hold name hname
  · exact hplace name (Std.compare_eq_iff_eq.mp hkey ▸ hname)

theorem Named.makeDirectory (h : tree.Named) (hplace : ∀ name ∈ place, IsFileName name) :
    (tree.makeDirectory place).Named := by
  have hway : ∀ above ∈ onTheWay place, ∀ name ∈ above, IsFileName name := by
    intro above habove name hname
    obtain ⟨n, -, rfl⟩ := List.mem_map.mp habove
    exact hplace name (List.mem_of_mem_take hname)
  rw [FileTree.makeDirectory]
  -- one directory after the other is put on the way
  generalize onTheWay place = way at hway
  induction way generalizing tree with
  | nil => exact h
  | cons above way ih =>
    exact ih (h.insert (hway above List.mem_cons_self) .directory)
      fun other hother => hway other (List.mem_cons_of_mem _ hother)

theorem Named.write (h : tree.Named) (hplace : ∀ name ∈ place, IsFileName name)
    (bytes : List UInt8) : (tree.write place bytes).Named := by
  apply Named.insert _ hplace
  exact h.makeDirectory fun name hname => hplace name (List.dropLast_subset _ hname)

theorem Named.clear (h : tree.Named) (place : Place) : (tree.clear place).Named :=
  fun entry hmem => h entry (List.mem_filter.mp hmem).1

theorem Named.remove (h : tree.Named) (place : Place) : (tree.remove place).Named :=
  fun entry hmem => h entry (List.mem_filter.mp hmem).1

end CrossIndex.FileTree
