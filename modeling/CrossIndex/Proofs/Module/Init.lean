import CrossIndex.Proofs.Module.Folding
import CrossIndex.Proofs.Module.Stability

/-!
Package directories and their `__init__` modules. A graph leads a directory on just when the `__init__`
module below it has been recorded. Main statement: from a directory and from its `__init__` module every
expression leads to the same name, in modules that are led on to the same one.
-/

namespace CrossIndex.Resolver

variable {r : Resolver} {changes : List Change} {p q d init file : Path}

/-! ### Recorded documents -/

/-- A document was recorded for the module of the file. -/
def Records (changes : List Change) (file : Path) : Prop :=
  ∃ path lines, .document path lines ∈ changes ∧ (modulePath file == modulePath path) = true

theorem contains_foldl_change {m : Path} :
    (changes.foldl change r).bindings.contains m = true ↔
      (∃ path lines, .document path lines ∈ changes ∧ (m == modulePath path) = true) ∨
        r.bindings.contains m = true := by
  induction changes generalizing r with
  | nil => simp
  | cons c changes ih =>
    rw [List.foldl_cons, ih]
    cases c with
    | package name root => simp [change, addPackage]
    | document path lines =>
      simp only [change, contains_addDocument, Bool.or_eq_true, List.mem_cons, Change.document.injEq]
      constructor
      · rintro (⟨path', lines', hmem, hsame⟩ | hnew | hold)
        · exact Or.inl ⟨path', lines', Or.inr hmem, hsame⟩
        · exact Or.inl ⟨path, lines, Or.inl ⟨rfl, rfl⟩, hnew⟩
        · exact Or.inr hold
      · rintro (⟨path', lines', ⟨rfl, rfl⟩ | hmem, hsame⟩ | hold)
        · exact Or.inr (Or.inl hsame)
        · exact Or.inl ⟨path', lines', hmem, hsame⟩
        · exact Or.inr (Or.inr hold)

theorem records_iff :
    Records changes file ↔ (ofChanges changes).bindings.contains (modulePath file) = true := by
  have hempty : empty.bindings.contains (modulePath file) = false := rfl
  rw [ofChanges, contains_foldl_change, hempty, Bool.false_eq_true, or_false]
  exact Iff.rfl

instance : Decidable (Records changes file) :=
  decidable_of_iff _ records_iff.symm

/-! ### Directories that are led on -/

/-- A directory is led on to the `__init__` module below it, once that has been recorded. -/
structure LeadsInits (r : Resolver) : Prop where
  recorded : ∀ entry ∈ r.inits.entries,
    entry.2.components = entry.1.components ++ [.name initName] ∧ r.bindings.contains entry.2 = true
  noted : ∀ d init : Path, init.components = d.components ++ [.name initName] →
    r.bindings.contains init = true → r.inits.contains d = true

theorem leadsInits_empty : empty.LeadsInits where
  recorded := fun entry h => by cases h
  noted := fun d init _ h => by cases h

theorem LeadsInits.addDocument (h : r.LeadsInits) (path : Path) (lines : List String) :
    (r.addDocument path lines).LeadsInits := by
  constructor
  · intro entry hmem
    rw [contains_addDocument, Bool.or_eq_true]
    rcases mem_inits_addDocument hmem with hold | ⟨hinit, hkey, hvalue⟩
    · obtain ⟨hcomponents, hcontains⟩ := h.recorded entry hold
      exact ⟨hcomponents, Or.inr hcontains⟩
    · rw [hvalue, ← (Path.beq_iff _ _).mp hkey]
      exact ⟨Path.components_of_fileName? hinit, Or.inl BEq.rfl⟩
  · intro d init hcomponents hcontains
    rw [contains_addDocument, Bool.or_eq_true] at hcontains
    rw [addDocument_inits]
    rcases hcontains with hnew | hold
    · -- the new module is the one below the directory, which it is noted for
      have hmodule : (modulePath path).components = d.components ++ [.name initName] :=
        ((Path.beq_iff _ _).mp hnew).symm.trans hcomponents
      have hinit := Path.fileName?_of_components hmodule
      have hdirectory : (d == directory path) = true := by
        rw [Path.beq_iff]
        exact List.append_cancel_right (hmodule.symm.trans (Path.components_of_fileName? hinit))
      rw [if_pos hinit, SortedTable.contains_insert, Path.compare_eq_iff.mpr hdirectory]
      rfl
    · have hcontains := h.noted d init hcomponents hold
      split
      · rw [SortedTable.contains_insert, hcontains, Bool.or_true]
      · exact hcontains

theorem leadsInits_ofChanges (changes : List Change) : (ofChanges changes).LeadsInits := by
  have hfold : ∀ r : Resolver, r.LeadsInits → (changes.foldl change r).LeadsInits := by
    induction changes with
    | nil => exact fun r h => h
    | cons c changes ih =>
      intro r h
      apply ih
      cases c with
      | package name root => exact ⟨h.recorded, h.noted⟩
      | document path lines => exact h.addDocument path lines
  exact hfold empty leadsInits_empty

theorem LeadsInits.components_of_get? (h : r.LeadsInits) (hget : r.inits.get? d = some init) :
    init.components = d.components ++ [.name initName] ∧ r.bindings.contains init = true := by
  obtain ⟨key, hkey, hmem⟩ := SortedTable.exists_mem_of_get? hget
  rw [(Path.beq_iff _ _).mp (Path.compare_eq_iff.mp hkey)]
  exact h.recorded _ hmem

theorem LeadsInits.redirect_of_contains (h : r.LeadsInits)
    (hinit : init.components = d.components ++ [.name initName])
    (hcontains : r.bindings.contains init = true) : (r.redirect d == init) = true := by
  obtain ⟨found, hget⟩ := Option.isSome_iff_exists.mp (h.noted d init hinit hcontains)
  rw [redirect, hget, Option.getD_some, Path.beq_iff, hinit]
  exact (h.components_of_get? hget).1

theorem LeadsInits.redirect_of_not_contains (h : r.LeadsInits)
    (hinit : init.components = d.components ++ [.name initName])
    (hcontains : r.bindings.contains init = false) : r.redirect d = d := by
  cases hget : r.inits.get? d with
  | none => rw [redirect, hget, Option.getD_none]
  | some found =>
    obtain ⟨hcomponents, hfound⟩ := h.components_of_get? hget
    have hsame : compare found init = .eq := by
      rw [Path.compare_eq_iff, Path.beq_iff, hcomponents, hinit]
    rw [SortedTable.contains_congr hsame, hcontains] at hfound
    cases hfound

/-! ### Files of a plain directory -/

theorem components_joinText_name (hd : d.isAbsolute = true) {text : String} (hname : Path.IsName text)
    (hslash : '/' ∉ text.toList) :
    (d.joinText text).components = d.components ++ [.name text] := by
  have hslashes : ∀ t ∈ [text], '/' ∉ t.toList := List.forall_mem_singleton.mpr hslash
  have hjoin := Path.components_foldl_joinText hd hslashes
  rwa [List.foldl_cons, List.foldl_nil, List.filterMap_cons_some (Path.bodyComponent?_name hname),
    List.filterMap_nil] at hjoin

theorem components_joinText_init (hd : d.isAbsolute = true) :
    (d.joinText initName).components = d.components ++ [.name initName] :=
  components_joinText_name hd ⟨by decide, by decide, by decide⟩ (by decide)

theorem components_modulePath_init (hd : d.IsPlain) :
    (modulePath (d.joinText "__init__.py")).components = d.components ++ [.name initName] := by
  have hfile : (d.joinText "__init__.py").components = d.components ++ [.name "__init__.py"] :=
    components_joinText_name hd.1 ⟨by decide, by decide, by decide⟩ (by decide)
  have hfolded : (d.joinText "__init__.py").folded.components =
      d.components ++ [.name "__init__.py"] := by
    rw [(Path.components_folded (Path.isAbsolute_joinText hd.1 _)).2, hfile,
      foldComponents_append_name, ← List.cons_append, ← (Path.components_folded hd.1).2,
      hd.components_folded]
  have hcut : splitExtension? "__init__.py".toList = some (initName.toList, "py".toList) := by
    decide
  rw [components_modulePath_of_python hfolded hcut (Or.inl (by decide)), String.ofList_toList]
  rfl

/-! ### Resolution -/

/-- From modules that are led on to the same one, the parts of an expression lead to the same place, or
they are left where they stood. -/
theorem resolveParts_of_redirect (h : (r.redirect p == r.redirect q) = true) {parts : List String}
    (hparts : parts ≠ []) (steps : Nat) :
    (r.resolveParts p parts (steps + 1)).Same (r.resolveParts q parts (steps + 1)) ∨
      ∃ name?, r.resolveParts p parts (steps + 1) = ⟨p, name?⟩ ∧
        r.resolveParts q parts (steps + 1) = ⟨q, name?⟩ := by
  rcases parts with - | ⟨name, - | ⟨next, more⟩⟩
  · exact absurd rfl hparts
  · exact Or.inl (resolveName_of_redirect h name steps).1
  · obtain ⟨hsame, hleft⟩ := resolveName_of_redirect h name steps
    rw [resolveParts, resolveParts]
    rcases hp : r.resolveName p name false (steps + 1) with ⟨⟨inner, - | other⟩, left⟩
    · rcases hq : r.resolveName q name false (steps + 1) with ⟨⟨inner', other?⟩, left'⟩
      rw [hp, hq] at hsame hleft
      obtain ⟨hmodule, hname⟩ := hsame
      cases hname
      cases hleft
      exact Or.inl (resolveParts_congr hmodule (next :: more) left)
    · rcases hq : r.resolveName q name false (steps + 1) with ⟨⟨inner', other?⟩, left'⟩
      rw [hp, hq] at hsame
      cases hsame.name?
      exact Or.inr ⟨_, rfl, rfl⟩

/-- A plain directory whose `__init__` module has been recorded resolves like that module, which is led
on to no other one as long as none is recorded below it. -/
theorem resolve_init (hd : d.IsPlain) (hinit : Records changes (d.joinText "__init__.py"))
    (hdeeper : ¬Records changes ((d.joinText initName).joinText "__init__.py"))
    (expression : String) :
    let graph := ofChanges changes
    let fromDirectory := graph.resolve d expression
    let fromInit := graph.resolve (d.joinText initName) expression
    fromDirectory.name? = fromInit.name? ∧
      (graph.canonicalModule fromDirectory.module == graph.canonicalModule fromInit.module) = true := by
  intro graph fromDirectory fromInit
  have hm : (d.joinText initName).IsPlain :=
    Path.isPlain_joinText (fun _ => hd) (by decide) (Path.isAbsolute_joinText hd.1 _)
  have hinits : graph.LeadsInits := leadsInits_ofChanges changes
  rw [records_iff] at hinit hdeeper
  -- both are led on to the recorded module
  have hredirect : (graph.redirect d == graph.redirect (d.joinText initName)) = true := by
    have hcontains : graph.bindings.contains (d.joinText initName) = true := by
      rw [← hinit]
      refine SortedTable.contains_congr (Path.compare_eq_iff.mpr ?_) _
      rw [Path.beq_iff, components_joinText_init hd.1, components_modulePath_init hd]
    rw [hinits.redirect_of_not_contains (components_modulePath_init hm) (by simpa using hdeeper)]
    exact hinits.redirect_of_contains (components_joinText_init hd.1) hcontains
  have hmodules : (graph.redirect (modulePath d) ==
      graph.redirect (modulePath (d.joinText initName))) = true :=
    BEq.trans (redirect_congr hd.modulePath_beq)
      (BEq.trans hredirect (BEq.symm (redirect_congr hm.modulePath_beq)))
  have hpieces := Text.pieces_ne_nil '.' expression
  have hfromDirectory : fromDirectory =
      graph.resolveParts (modulePath d) (Text.pieces '.' expression) maxSteps := by
    rw [← rooted_of_isAbsolute (r := graph) hd.1]
    rfl
  have hfromInit : fromInit = graph.resolveParts (modulePath (d.joinText initName))
      (Text.pieces '.' expression) maxSteps := by
    rw [← rooted_of_isAbsolute (r := graph) hm.1]
    rfl
  rw [hfromDirectory, hfromInit]
  obtain hsame | ⟨name?, hp, hq⟩ := resolveParts_of_redirect hmodules hpieces 9
  · rw [maxSteps, canonicalModule_congr hsame.module]
    exact ⟨hsame.name?, BEq.rfl⟩
  · rw [maxSteps, hp, hq]
    have hplain := hd.congr (BEq.symm hd.modulePath_beq)
    have hplain' := hm.congr (BEq.symm hm.modulePath_beq)
    refine ⟨rfl, ?_⟩
    exact BEq.trans (BEq.symm (redirect_beq_canonicalModule hplain))
      (BEq.trans hmodules (redirect_beq_canonicalModule hplain'))

/-- The name leads out of the package from both; the attribute of that name is left where it stood,
once in the directory and once in its `__init__` module. -/
theorem resolve_init_reexport :
    let package := Path.ofString "/src/pkg"
    let graph := ofChanges reexport
    graph.resolve package "foo.attr" = ⟨package, some "foo.attr"⟩ ∧
      graph.resolve (package.joinText initName) "foo.attr" =
        ⟨.ofString "/src/pkg/__init__", some "foo.attr"⟩ ∧
      (graph.canonicalModule (graph.resolve package "foo.attr").module ==
        graph.canonicalModule (graph.resolve (package.joinText initName) "foo.attr").module) = true := by
  intro package graph
  have hplain : package.IsPlain := by decide +kernel
  have hinit : Records reexport (package.joinText "__init__.py") := by decide +kernel
  have hdeeper : ¬Records reexport ((package.joinText initName).joinText "__init__.py") := by
    decide +kernel
  have halike := resolve_init hplain hinit hdeeper "foo.attr"
  exact ⟨by decide +kernel, by decide +kernel, halike.2⟩

end CrossIndex.Resolver
