import CrossIndex.Index
import CrossIndex.Proofs.Path.Components
import CrossIndex.Proofs.Table

/-!
The index as facts are filed. Main statements: the index holds under each key and each module the facts
that were filed there, in their order and no others, its counts are those of the facts, and the modules
of its exports are those of the files that export keys.
-/

namespace CrossIndex

/-- The definition that a fact is, under its key. -/
def Fact.definitionRow? : Fact → Option (String × Definition)
  | .definition d => if d.key = "" then none else some (d.key, d)
  | _ => none

/-- The reference that a fact is, under its key. -/
def Fact.referenceRow? : Fact → Option (String × Reference)
  | .reference r => if r.key = "" then none else some (r.key, r)
  | _ => none

/-- The export that a fact is, under its module. -/
def Fact.exposureRow? : Fact → Option (Path × Export)
  | .exposure e => some (modulePath e.path, e)
  | _ => none

def Fact.definition? : Fact → Option Definition
  | .definition d => some d
  | _ => none

def Fact.reference? : Fact → Option Reference
  | .reference r => some r
  | _ => none

def Fact.exposure? : Fact → Option Export
  | .exposure e => some e
  | _ => none

namespace Index

/-- Filing a fact says whether it is accepted. -/
theorem file_eq (index : Index) (fact : Fact) :
    index.file fact = (accepts fact, index.insert fact) := by
  cases fact with
  | definition d =>
    rw [insert, file, accepts]
    by_cases hkey : d.key = "" <;> simp [hkey]
  | reference r =>
    rw [insert, file, accepts]
    by_cases hkey : r.key = "" <;> simp [hkey]
  | exposure e => rfl
  | symbol value => rfl

/-- A fact is filed as the rows that it is. -/
theorem insert_eq (index : Index) (fact : Fact) :
    index.insert fact =
      ⟨index.definitions.addAll fact.definitionRow?.toList,
        index.references.addAll fact.referenceRow?.toList,
        index.exposures.addAll fact.exposureRow?.toList⟩ := by
  cases fact with
  | definition d =>
    rw [insert, file, Fact.definitionRow?]
    by_cases hkey : d.key = ""
    · rw [if_neg (by simp [hkey]), if_pos hkey]
      rfl
    · rw [if_pos hkey, if_neg hkey]
      rfl
  | reference r =>
    rw [insert, file, Fact.referenceRow?]
    by_cases hkey : r.key = ""
    · rw [if_neg (by simp [hkey]), if_pos hkey]
      rfl
    · rw [if_pos hkey, if_neg hkey]
      rfl
  | exposure e => rfl
  | symbol value => rfl

/-- Facts are filed as the rows that they are, each table in their order. -/
theorem insertAll_eq (index : Index) (facts : List Fact) :
    index.insertAll facts =
      ⟨index.definitions.addAll (facts.filterMap Fact.definitionRow?),
        index.references.addAll (facts.filterMap Fact.referenceRow?),
        index.exposures.addAll (facts.filterMap Fact.exposureRow?)⟩ := by
  induction facts generalizing index with
  | nil => rfl
  | cons fact facts ih =>
    change (index.insert fact).insertAll facts = _
    rw [ih, insert_eq]
    simp only [GroupTable.addAll_filterMap_cons]

/-! ### What is filed under a key -/

theorem defs_insertAll (facts : List Fact) (key : String) :
    (empty.insertAll facts).defs key =
      ((facts.filterMap Fact.definitionRow?).filter fun entry => entry.1 == key).map Prod.snd := by
  rw [defs, insertAll_eq, GroupTable.get_addAll]
  exact List.nil_append _

/-- Definitions are filed under their own keys. -/
theorem key_of_mem_defs {facts : List Fact} {key : String} {d : Definition}
    (h : d ∈ (empty.insertAll facts).defs key) : d.key = key := by
  rw [defs_insertAll] at h
  obtain ⟨⟨filed, d'⟩, hmem, rfl⟩ := List.mem_map.mp h
  obtain ⟨hrow, hkey⟩ := List.mem_filter.mp hmem
  obtain ⟨fact, -, hfact⟩ := List.mem_filterMap.mp hrow
  cases fact with
  | definition d =>
    rw [Fact.definitionRow?] at hfact
    split at hfact
    · cases hfact
    · cases hfact
      exact eq_of_beq hkey
  | reference r => cases hfact
  | exposure e => cases hfact
  | symbol value => cases hfact

theorem refs_insertAll (facts : List Fact) (key : String) :
    (empty.insertAll facts).refs key =
      ((facts.filterMap Fact.referenceRow?).filter fun entry => entry.1 == key).map Prod.snd := by
  rw [refs, insertAll_eq, GroupTable.get_addAll]
  exact List.nil_append _

theorem exportsOf_insertAll (facts : List Fact) (module : Path) :
    (empty.insertAll facts).exportsOf module =
      ((facts.filterMap Fact.exposureRow?).filter fun entry => entry.1 == module).map Prod.snd := by
  rw [exportsOf, insertAll_eq, GroupTable.get_addAll]
  exact List.nil_append _

/-! ### Modules with exports -/

/-- A module with exports is that of an export that was filed. -/
theorem exists_exposure_of_mem_groups {facts : List Fact} {index : Index} {group : Path × List Export}
    (h : group ∈ (index.insertAll facts).exposures.groups) :
    (∃ e, .exposure e ∈ facts ∧ group.1 = modulePath e.path) ∨
      ∃ old ∈ index.exposures.groups, old.1 = group.1 := by
  induction facts generalizing index with
  | nil => exact Or.inr ⟨group, h, rfl⟩
  | cons fact facts ih =>
    rcases ih h with ⟨e, he, hmodule⟩ | ⟨old, hold, hsame⟩
    · exact Or.inl ⟨e, List.mem_cons_of_mem _ he, hmodule⟩
    · rw [insert_eq] at hold
      cases fact with
      | definition d => exact Or.inr ⟨old, hold, hsame⟩
      | reference r => exact Or.inr ⟨old, hold, hsame⟩
      | symbol value => exact Or.inr ⟨old, hold, hsame⟩
      | exposure e =>
        rcases GroupTable.mem_addTo hold with hkey | ⟨before, hbefore, hsame'⟩
        · exact Or.inl ⟨e, List.mem_cons_self, hsame ▸ hkey⟩
        · exact Or.inr ⟨before, hbefore, hsame'.trans hsame⟩

theorem exists_exposure_of_mem_allExports {facts : List Fact} {module : Path} {e : Export}
    (h : (module, e) ∈ (empty.insertAll facts).allExports) :
    ∃ e', .exposure e' ∈ facts ∧ module = modulePath e'.path := by
  obtain ⟨⟨key, values⟩, hmem, hv⟩ := List.mem_flatMap.mp h
  obtain ⟨value, -, hvalue⟩ := List.mem_map.mp hv
  cases hvalue
  obtain hfiled | ⟨old, hold, -⟩ := exists_exposure_of_mem_groups hmem
  · exact hfiled
  · cases hold

/-! ### All that is filed -/

/-- The rows of one kind are the facts of that kind that are accepted, each under its key. -/
theorem addAll_rows {κ α : Type} [BEq κ] {row? : Fact → Option (κ × α)} {kind? : Fact → Option α}
    {key : α → κ}
    (h : ∀ fact, row? fact = if accepts fact then (kind? fact).map fun x => (key x, x) else none)
    (facts : List Fact) :
    GroupTable.empty.addAll (facts.filterMap row?) =
      .ofValues key ((facts.filter accepts).filterMap kind?) := by
  rw [GroupTable.ofValues, List.map_filterMap, List.filterMap_filter]
  exact congrArg (fun row? => GroupTable.empty.addAll (facts.filterMap row?)) (funext h)

theorem definitionRow?_eq (fact : Fact) :
    fact.definitionRow? = if accepts fact then fact.definition?.map fun d => (d.key, d) else none := by
  cases fact with
  | definition d =>
    by_cases hkey : d.key = ""
    · simp [Fact.definitionRow?, accepts, hkey]
    · simp [Fact.definitionRow?, Fact.definition?, accepts, hkey]
  | reference r => simp [Fact.definitionRow?, Fact.definition?]
  | exposure e => rfl
  | symbol value => rfl

theorem referenceRow?_eq (fact : Fact) :
    fact.referenceRow? = if accepts fact then fact.reference?.map fun r => (r.key, r) else none := by
  cases fact with
  | definition d => simp [Fact.referenceRow?, Fact.reference?]
  | reference r =>
    by_cases hkey : r.key = ""
    · simp [Fact.referenceRow?, accepts, hkey]
    · simp [Fact.referenceRow?, Fact.reference?, accepts, hkey]
  | exposure e => rfl
  | symbol value => rfl

theorem exposureRow?_eq (fact : Fact) :
    fact.exposureRow? =
      if accepts fact then fact.exposure?.map fun e => (modulePath e.path, e) else none := by
  cases fact with
  | definition d => simp [Fact.exposureRow?, Fact.exposure?]
  | reference r => simp [Fact.exposureRow?, Fact.exposure?]
  | exposure e => rfl
  | symbol value => rfl

/-- The tables of the index are those of the facts that are accepted. -/
theorem insertAll_empty (facts : List Fact) :
    empty.insertAll facts =
      ⟨.ofValues Definition.key ((facts.filter accepts).filterMap Fact.definition?),
        .ofValues Reference.key ((facts.filter accepts).filterMap Fact.reference?),
        .ofValues (fun e => modulePath e.path) ((facts.filter accepts).filterMap Fact.exposure?)⟩ := by
  rw [insertAll_eq, ← addAll_rows definitionRow?_eq, ← addAll_rows referenceRow?_eq,
    ← addAll_rows exposureRow?_eq]
  rfl

theorem accepts_eq_false_iff {fact : Fact} :
    accepts fact = false ↔ (∃ value, fact = .symbol value) ∨ fact.key? = some "" := by
  cases fact with
  | definition d => simp [accepts, Fact.key?]
  | reference r => simp [accepts, Fact.key?]
  | exposure e => simp [accepts, Fact.key?]
  | symbol value => simp [accepts]

theorem insert_of_accepts_eq_false {fact : Fact} (h : accepts fact = false) (index : Index) :
    index.insert fact = index := by
  cases fact with
  | definition d =>
    rw [insert, file, if_neg (by simpa [accepts] using h)]
  | reference r =>
    rw [insert, file, if_neg (by simpa [accepts] using h)]
  | exposure e => cases h
  | symbol value => rfl

/-- A fact that is accepted has no empty key. -/
theorem key?_ne_of_mem {facts : List Fact} {fact : Fact} (h : fact ∈ facts.filter accepts) :
    fact.key? ≠ some "" := by
  intro hkey
  have haccepts := (List.mem_filter.mp h).2
  rw [accepts_eq_false_iff.mpr (Or.inr hkey)] at haccepts
  cases haccepts

/-- The index holds the facts, all of which are accepted, in their order, and nothing else. -/
structure Files (index : Index) (facts : List Fact) : Prop where
  defs : ∀ key, index.defs key = (facts.filterMap Fact.definition?).filter fun d => d.key == key
  refs : ∀ key, index.refs key = (facts.filterMap Fact.reference?).filter fun r => r.key == key
  exportsOf : ∀ module, index.exportsOf module =
    (facts.filterMap Fact.exposure?).filter fun e => modulePath e.path == module
  noEmptyKey : "" ∉ index.definitions.keys ∧ "" ∉ index.references.keys
  /-- Every export is listed once, with its own module. -/
  allExports : (index.allExports.map Prod.snd).Perm (facts.filterMap Fact.exposure?) ∧
    ∀ entry ∈ index.allExports, (entry.1 == modulePath entry.2.path) = true
  definitionKeys : index.definitionKeys =
    ((facts.filterMap Fact.definition?).map Definition.key).dedup.length
  referenceKeys : index.referenceKeys =
    ((facts.filterMap Fact.reference?).map Reference.key).dedup.length
  exportCount : index.exportCount = (facts.filterMap Fact.exposure?).length

theorem files_filter_accepts (facts : List Fact) :
    (empty.insertAll facts).Files (facts.filter accepts) := by
  have hkey : ∀ fact ∈ facts.filter accepts, fact.key? ≠ some "" := fun _ => key?_ne_of_mem
  rw [insertAll_empty]
  generalize facts.filter accepts = filed at hkey
  have hexports := GroupTable.toList_ofValues_perm (fun e : Export => modulePath e.path)
    (filed.filterMap Fact.exposure?)
  refine
    { defs := GroupTable.get_ofValues Definition.key _
      refs := GroupTable.get_ofValues Reference.key _
      exportsOf := GroupTable.get_ofValues (fun e : Export => modulePath e.path) _
      noEmptyKey := ⟨?_, ?_⟩
      allExports := ⟨hexports, fun _ => GroupTable.beq_of_mem_toList_ofValues⟩
      definitionKeys := GroupTable.keyCount_ofValues Definition.key _
      referenceKeys := GroupTable.keyCount_ofValues Reference.key _
      exportCount := ?_ }
  · intro hempty
    obtain ⟨d, hd, hnone⟩ := GroupTable.mem_keys_ofValues.mp hempty
    obtain ⟨fact, hfact, hsame⟩ := List.mem_filterMap.mp hd
    apply hkey fact hfact
    cases fact <;> cases hsame
    exact congrArg some hnone
  · intro hempty
    obtain ⟨r, hr, hnone⟩ := GroupTable.mem_keys_ofValues.mp hempty
    obtain ⟨fact, hfact, hsame⟩ := List.mem_filterMap.mp hr
    apply hkey fact hfact
    cases fact <;> cases hsame
    exact congrArg some hnone
  · exact (List.length_map _).symm.trans hexports.length_eq

/-- Of facts that are filed one after the other the index holds those that are accepted, and nothing
else. Filing a fact says whether it is accepted. One that is not is a symbol or has an empty key, and
leaves the index as it was. -/
theorem files_insertAll (facts : List Fact) :
    (empty.insertAll facts).Files (facts.filter accepts) ∧
      ∀ (index : Index) (fact : Fact), (index.file fact).1 = accepts fact ∧
        ((index.file fact).1 = false ↔ (∃ value, fact = .symbol value) ∨ fact.key? = some "") ∧
          ((index.file fact).1 = false → index.insert fact = index) := by
  refine ⟨files_filter_accepts facts, ?_⟩
  intro index fact
  rw [file_eq]
  exact ⟨rfl, accepts_eq_false_iff, fun h => insert_of_accepts_eq_false h index⟩

end Index

end CrossIndex
