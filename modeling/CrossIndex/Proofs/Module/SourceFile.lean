import CrossIndex.Proofs.Module.Normal

/-!
Files of module paths. Main statements: the file of the module path of a Python file is that file just
when its path has no step up; and different Python files have one module path just when one of them is
called `..py` and lies in a directory with the name of the other one.
-/

namespace CrossIndex.Path

variable {p q : Path} {init init' : List Component} {stem stem' : String}

/-- An absolute path to a Python file, without steps up. -/
structure IsPythonFile (p : Path) : Prop where
  absolute : p.isAbsolute = true
  parent : .parent ∉ p.components
  python : SourceKind.of p = .python

instance (p : Path) : Decidable p.IsPythonFile :=
  decidable_of_iff (p.isAbsolute = true ∧ .parent ∉ p.components ∧ SourceKind.of p = .python)
    ⟨fun h => ⟨h.1, h.2.1, h.2.2⟩, fun h => ⟨h.absolute, h.parent, h.python⟩⟩

/-- The first file is called `..py`, and its directory has the name of the second file without `.py`. -/
def Hides (p q : Path) : Prop :=
  ∃ init name, p.components = init ++ [.name name, .name "..py"] ∧
    q.components = init ++ [.name (name ++ ".py")]

/-- An absolute path is normal when it has no step up. -/
theorem isNormal_iff_of_isAbsolute (h : p.isAbsolute = true) :
    p.IsNormal ↔ .parent ∉ p.components := by
  refine ⟨fun hnormal => hnormal.absolute h, ?_⟩
  intro hparent
  refine isNormal_iff_leading.mpr ⟨?_, ?_⟩
  · -- behind the root every component is a step up or a name
    obtain ⟨tail, -, -, hc⟩ := exists_tail_of_isAbsolute h
    rw [hc]
    intro hmem
    rcases List.mem_cons.mp hmem with hroot | hmem
    · cases hroot
    · obtain ⟨segment, -, hs⟩ := List.mem_filterMap.mp hmem
      obtain ⟨-, hup⟩ | ⟨-, hname⟩ := bodyComponent?_cases hs
      · cases hup
      · cases hname
  · exact List.pairwise_of_forall_mem_list fun before _ c hc hup => absurd (hup ▸ hc) hparent

/-- The file of the module path of a Python file is the file itself just when there is no step up. -/
theorem sourceFile_beq_iff (hp : p.isAbsolute = true) (hpy : SourceKind.of p = .python) :
    (sourceFile (modulePath p) == p) = true ↔ .parent ∉ p.components := by
  rw [sourceFile_modulePath_eq_folded hp hpy, ← isNormal_iff_folded, isNormal_iff_of_isAbsolute hp]

/-- The module path ends in what is left of the name of the file, which may be a dot and so no component
at all, or two dots and so a step up. -/
theorem IsPythonFile.exists_stem (h : p.IsPythonFile) :
    ∃ init stem, p.components = init ++ [.name (stem ++ ".py")] ∧ stem ≠ "" ∧
      (modulePath p).components = init ++ (bodyComponent? stem).toList := by
  obtain ⟨init, name, stem, hc, hcut⟩ := exists_of_python h.python
  have hfolded : p.folded.components = p.components :=
    (beq_iff _ _).mp (isNormal_iff_folded.mp ((isNormal_iff_of_isAbsolute h.absolute).mpr h.parent))
  have hinit : init ≠ [] := by
    rintro rfl
    obtain ⟨tail, -, -, hroot⟩ := exists_tail_of_isAbsolute h.absolute
    rw [hc] at hroot
    cases hroot
  have hstem : String.ofList stem ≠ "" := by
    intro hempty
    have hnil := congrArg String.toList hempty
    rw [String.toList_ofList] at hnil
    exact ne_nil_of_splitExtension? hcut hnil
  exact ⟨init, String.ofList stem, eq_append_of_python hcut ▸ hc, hstem,
    components_modulePath_of_python (hfolded.trans hc) hcut (Or.inr hinit)⟩

/-- The stem of a file is no component only as a dot. -/
theorem eq_dot_of_bodyComponent? (hne : stem ≠ "") (h : bodyComponent? stem = none) : stem = "." := by
  by_contra hdot
  have hfiller : isFiller stem = false := by simp [isFiller, hne, hdot]
  obtain ⟨c, hc⟩ := exists_bodyComponent? hfiller
  rw [h] at hc
  cases hc

theorem eq_of_bodyComponent? {c : Component} (h : bodyComponent? stem = some c)
    (h' : bodyComponent? stem' = some c) : stem = stem' := by
  obtain ⟨rfl, rfl⟩ | ⟨-, rfl⟩ := bodyComponent?_cases h
  · obtain ⟨rfl, -⟩ | ⟨-, hname⟩ := bodyComponent?_cases h'
    · rfl
    · cases hname
  · obtain ⟨-, hup⟩ | ⟨-, hname⟩ := bodyComponent?_cases h'
    · cases hup
    · exact Component.name.inj hname

/-- A file whose module path is its directory hides the file that has the same module path with a name
at its end. -/
theorem IsPythonFile.hides (h : p.IsPythonFile) {c : Component}
    (hp : p.components = (init ++ [c]) ++ [.name (stem ++ ".py")]) (hstem : stem = ".")
    (hq : q.components = init ++ [.name (stem' ++ ".py")]) (hc : bodyComponent? stem' = some c) :
    p.Hides q := by
  obtain ⟨-, rfl⟩ | ⟨-, rfl⟩ := bodyComponent?_cases hc
  · exact absurd (by simp [hp]) h.parent
  · refine ⟨init, stem', ?_, hq⟩
    rw [hp, hstem, List.append_assoc]
    rfl

theorem Hides.modulePath_beq (h : p.Hides q) (hp : p.IsPythonFile) (hq : q.IsPythonFile) :
    (modulePath p == modulePath q) = true := by
  obtain ⟨init, name, hhiding, hhidden⟩ := h
  obtain ⟨above, stem, hc, -, hm⟩ := hp.exists_stem
  obtain ⟨above', stem', hc', -, hm'⟩ := hq.exists_stem
  have hname : IsName name := isName_of_mem_components (p := p) (by simp [hhiding])
  have hsplit : (init ++ [.name name]) ++ [.name "..py"] = above ++ [.name (stem ++ ".py")] := by
    rw [← hc, hhiding, List.append_assoc]
    rfl
  obtain ⟨rfl, hlast⟩ := List.append_inj' hsplit rfl
  obtain ⟨rfl, hlast'⟩ := List.append_inj' (hhidden.symm.trans hc') rfl
  have hstem : stem = "." := by
    have hpy : "." ++ ".py" = stem ++ ".py" := Component.name.inj (List.cons.inj hlast).1
    exact ((String.append_left_inj ".py").mp hpy).symm
  have hstem' : stem' = name :=
    ((String.append_left_inj ".py").mp (Component.name.inj (List.cons.inj hlast').1)).symm
  rw [beq_iff, hm, hm', hstem, hstem', bodyComponent?_name hname]
  exact List.append_nil _

/-- Two Python files have one module path when they are the same file, or when one hides the other. -/
theorem modulePath_beq_iff (hp : p.IsPythonFile) (hq : q.IsPythonFile) :
    (modulePath p == modulePath q) = true ↔ (p == q) = true ∨ p.Hides q ∨ q.Hides p := by
  constructor
  · intro h
    obtain ⟨init, stem, hc, hne, hm⟩ := hp.exists_stem
    obtain ⟨init', stem', hc', hne', hm'⟩ := hq.exists_stem
    rw [beq_iff, hm, hm'] at h
    cases hs : bodyComponent? stem with
    | none =>
      have hstem := eq_dot_of_bodyComponent? hne hs
      cases hs' : bodyComponent? stem' with
      | none =>
        have hinit : init = init' := by simpa [hs, hs'] using h
        rw [beq_iff, hc, hc', hinit, hstem, eq_dot_of_bodyComponent? hne' hs']
        exact Or.inl rfl
      | some c =>
        have hinit : init = init' ++ [c] := by simpa [hs, hs'] using h
        exact Or.inr (Or.inl (hp.hides (hinit ▸ hc) hstem hc' hs'))
    | some c =>
      cases hs' : bodyComponent? stem' with
      | none =>
        have hinit : init' = init ++ [c] := by simpa [hs, hs'] using h.symm
        exact Or.inr (Or.inr (hq.hides (hinit ▸ hc') (eq_dot_of_bodyComponent? hne' hs') hc hs))
      | some c' =>
        rw [hs, hs'] at h
        obtain ⟨rfl, hlast⟩ := List.append_inj' h rfl
        obtain rfl : c = c' := (List.cons.inj hlast).1
        rw [beq_iff, hc, hc', eq_of_bodyComponent? hs hs']
        exact Or.inl rfl
  · rintro (hsame | hhides | hhides)
    · rw [modulePath_congr hsame]
      exact BEq.rfl
    · exact hhides.modulePath_beq hp hq
    · exact BEq.symm (hhides.modulePath_beq hq hp)

end CrossIndex.Path
