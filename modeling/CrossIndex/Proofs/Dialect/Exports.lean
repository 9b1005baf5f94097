import CrossIndex.Dialect.Provider

/-!
Exports of a source. Main statement: only Python files export keys, and always for themselves.
-/

namespace CrossIndex

namespace Packed

variable {path : Path} {lines : List String} {w : Window} {e : Export}

theorem not_exposure_native (names : PackedNames) : .exposure e ∉ native names path lines w := by
  simp [native, Fact.define, Fact.refer]

theorem path_of_familyExport? {names : PackedNames} {paths : PackagePaths} {resolver : Resolver}
    {key : String} (h : familyExport? names paths resolver path key = some (.exposure e)) :
    e.path = path := by
  rw [familyExport?] at h
  split at h
  · cases h
    rfl
  · cases h

theorem functionDefinition?_ne_exposure {paths : PackagePaths} {resolver : Resolver}
    {hit : KeyHit} : functionDefinition? paths resolver path hit ≠ some (.exposure e) := by
  rw [functionDefinition?]
  split
  · nofun
  · nofun

/-- An export of a Python file is one of that file. -/
theorem path_of_exposure_python {names : PackedNames} {paths? : Option PackagePaths}
    {typeKeyOf : String → String → String} {resolver : Resolver}
    (h : .exposure e ∈ python names paths? typeKeyOf resolver path lines w) : e.path = path := by
  unfold python at h
  rw [List.mem_append, List.mem_append, List.mem_append] at h
  rcases h with ((hfamily | hobject) | hfunction) | hinternal
  · obtain ⟨hit, -, hf⟩ := List.mem_filterMap.mp hfamily
    obtain ⟨paths, -, hp⟩ := Option.bind_eq_some_iff.mp hf
    exact path_of_familyExport? hp
  · obtain ⟨hit, -, hf⟩ := List.mem_map.mp hobject
    cases hf
  · obtain ⟨hit, -, hf⟩ := List.mem_filterMap.mp hfunction
    obtain ⟨paths, -, hp⟩ := Option.bind_eq_some_iff.mp hf
    exact absurd hp functionDefinition?_ne_exposure
  · split at hinternal
    · split at hinternal
      · rw [List.mem_singleton] at hinternal
        cases hinternal
        rfl
      · cases hinternal
    · cases hinternal

end Packed

variable {path : Path} {lines : List String} {w : Window} {e : Export}

theorem Tvm.not_exposure_inFile (file space : String) (pattern : Pattern) :
    .exposure e ∉ inFile file space pattern path lines w := by
  rw [inFile]
  split
  · simp [Fact.define]
  · simp

/-- An export of a packed dialect comes from a Python file and is one of that file. -/
theorem Tvm.python_of_exposure {paths? : Option PackagePaths} {resolver : Resolver}
    (h : .exposure e ∈ extract paths? resolver path lines w) :
    SourceKind.of path = .python ∧ e.path = path := by
  rw [extract] at h
  split at h
  · rw [List.mem_append, List.mem_append] at h
    rcases h with (hnative | hmake) | hpass
    · exact absurd hnative (Packed.not_exposure_native _)
    · exact absurd hmake (not_exposure_inFile _ _ _)
    · exact absurd hpass (not_exposure_inFile _ _ _)
  · next hkind => exact ⟨hkind, Packed.path_of_exposure_python h⟩
  · cases h

theorem Dgl.python_of_exposure {paths? : Option PackagePaths} {resolver : Resolver}
    (h : .exposure e ∈ extract paths? resolver path lines w) :
    SourceKind.of path = .python ∧ e.path = path := by
  rw [extract] at h
  split at h
  · exact absurd h (Packed.not_exposure_native _)
  · next hkind => exact ⟨hkind, Packed.path_of_exposure_python h⟩
  · cases h

theorem Mxnet.not_exposure_extract : .exposure e ∉ extract path lines w := by
  rw [extract]
  split
  · simp [Fact.define]
  · simp

theorem Torch.not_exposure_extract : .exposure e ∉ extract path lines w := by
  rw [extract]
  split
  · split
    · simp [Fact.define]
    · simp [Fact.define]
  · simp

theorem Taichi.not_exposure_extract : .exposure e ∉ extract path lines w := by
  rw [extract]
  split
  · simp [Fact.define]
  · simp [Fact.refer]
  · simp

/-- Only Python files export keys, and always for themselves. -/
theorem Provider.python_of_exposure {p : Provider} {resolver : Resolver}
    (h : .exposure e ∈ p.extract resolver path lines w) :
    SourceKind.of path = .python ∧ e.path = path := by
  cases p with
  | tvm paths? => exact Tvm.python_of_exposure h
  | dgl paths? => exact Dgl.python_of_exposure h
  | mxnet => exact absurd h Mxnet.not_exposure_extract
  | torch => exact absurd h Torch.not_exposure_extract
  | taichi => exact absurd h Taichi.not_exposure_extract
  | noop => cases h

theorem Registry.python_of_exposure {registry : Registry} {resolver : Resolver}
    (h : .exposure e ∈ registry.extract resolver path lines w) :
    SourceKind.of path = .python ∧ e.path = path := by
  obtain ⟨p, -, hp⟩ := List.mem_flatMap.mp h
  exact Provider.python_of_exposure hp

end CrossIndex
