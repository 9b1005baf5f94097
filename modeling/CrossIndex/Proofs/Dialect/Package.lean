import CrossIndex.Dialect.Provider
import CrossIndex.Proofs.Module.Path

/-!
Package roots. A package is known from its `__init__.py`, a Python file whose module lies below the
root. Main statement: what the providers note in a graph are the roots of such packages and nothing
else.
-/

namespace CrossIndex

theorem Path.exists_components_joinText {text : String} (h : Path.IsName text)
    (hslash : '/' ∉ text.toList) (p : Path) :
    ∃ init, (p.joinText text).components = init ++ [.name text] := by
  have htext : Path.ofString text = ⟨[text]⟩ := by
    rw [Path.ofString, Text.pieces_of_not_mem hslash]
  have hrelative : (⟨[text]⟩ : Path).isAbsolute = false := by simp [Path.isAbsolute]
  rw [Path.joinText, htext, Path.join, if_neg (by simp [hrelative])]
  split
  · exact Path.components_concat h _
  · exact Path.components_concat h _

/-- A package root is the directory of an `__init__.py`. -/
theorem exists_components_of_packageRootOf? {path root : Path} {marker : String}
    (h : packageRootOf? path marker = some root) :
    path.parent? = some root ∧ ∃ init, path.components = init ++ [.name "__init__.py"] := by
  rw [packageRootOf?] at h
  split at h
  · next hends =>
    refine ⟨h, ?_⟩
    have hname : Path.IsName "__init__.py" := ⟨by decide, by decide, by decide⟩
    obtain ⟨init, hinit⟩ :=
      Path.exists_components_joinText hname (by decide) (Path.ofString marker)
    obtain ⟨before, hbefore⟩ := List.isSuffixOf_iff_suffix.mp hends
    rw [hinit, ← List.append_assoc] at hbefore
    exact ⟨before ++ init, hbefore.symm⟩
  · cases h

theorem python_of_packageRootOf? {path root : Path} {marker : String}
    (h : packageRootOf? path marker = some root) : SourceKind.of path = .python := by
  obtain ⟨-, init, hinit⟩ := exists_components_of_packageRootOf? h
  have hext : path.extension? = some "py" := by
    rw [Path.extension?_of_components hinit]
    decide
  rw [SourceKind.of, hext]
  decide

/-- When the `__init__` module of a package is plain, then its root is. -/
theorem isPlain_of_packageRootOf? {path root : Path} {marker : String}
    (h : packageRootOf? path marker = some root) (hm : (modulePath path).IsPlain) :
    (modulePath root).IsPlain := by
  obtain ⟨hparent, init, hinit⟩ := exists_components_of_packageRootOf? h
  have hpath := (isAbsolute_modulePath path).symm.trans hm.1
  obtain ⟨hroot, hcomponents⟩ := Path.components_parent? hpath hparent
  rw [hinit, List.dropLast_concat] at hcomponents
  -- the module of the file ends in `__init__`, and what comes before are the names of the root
  have hfold : foldComponents true path.components =
      foldComponents true init ++ [.name "__init__.py"] := by
    rw [hinit, foldComponents_append_name]
  have hmodule : (modulePath path).components =
      .root :: ((foldComponents true init).map Component.text ++ ["__init__"]).filterMap
        Path.bodyComponent? := by
    have hcut : splitExtension? "__init__.py".toList = some ("__init__".toList, "py".toList) := by
      decide
    rw [modulePath_of_python hpath hfold hcut, String.ofList_toList, Path.components_ofParts]
  have hnames : ((foldComponents true init).map Component.text).filterMap Path.bodyComponent? =
      foldComponents true init := by
    refine Path.filterMap_bodyComponent?_folded (p := root) ?_ isFolded_of_mem_foldComponents
    exact fun c hc => hcomponents ▸ mem_foldComponents hc
  have hplain : root.folded.IsPlain := by
    obtain ⟨habs, hfolded⟩ := Path.components_folded hroot
    refine ⟨habs, ?_⟩
    intro c hc
    apply hm.2
    rw [hmodule, List.filterMap_append, hnames]
    rw [hfolded, hcomponents] at hc
    rcases List.mem_cons.mp hc with rfl | hmem
    · exact List.mem_cons_self
    · exact List.mem_cons_of_mem _ (List.mem_append_left _ hmem)
  rw [Path.modulePath_eq_folded hplain]
  exact hplain

/-- A provider that sees a file leaves the graph as it was, or puts the root of its package there. -/
theorem Provider.see_cases (p : Provider) (r : Resolver) (path : Path) :
    (p.see r path).2 = r ∨ ∃ package marker root, packageRootOf? path marker = some root ∧
      (p.see r path).2 = r.addPackage package root := by
  rw [Provider.see]
  split
  · exact Or.inl rfl
  · next package marker _ =>
    split
    · exact Or.inl rfl
    · next root hroot => exact Or.inr ⟨package, marker, root, hroot, rfl⟩

namespace Registry

variable {motive : Resolver → Prop} {paths : List Path}
  (hstep : ∀ r package root path marker, path ∈ paths → packageRootOf? path marker = some root →
    motive r → motive (r.addPackage package root))

include hstep

theorem see_induction (registry : Registry) {path : Path} (hpath : path ∈ paths) {r : Resolver}
    (h : motive r) : motive (registry.see r path).2 := by
  -- the providers pass the graph on from one to the next, each with what the ones before have noted
  have hfold : ∀ (providers : List Provider) (seen : List Provider × Resolver), motive seen.2 →
      motive (providers.foldl (fun seen p =>
        (seen.1 ++ [(p.see seen.2 path).1], (p.see seen.2 path).2)) seen).2 := by
    intro providers
    induction providers with
    | nil => exact fun seen h => h
    | cons p providers ih =>
      intro seen hseen
      apply ih
      obtain hsame | ⟨package, marker, root, hroot, hadd⟩ := p.see_cases seen.2 path
      · exact hsame ▸ hseen
      · exact hadd ▸ hstep seen.2 package root path marker hpath hroot hseen
  exact hfold registry.providers ([], r) h

/-- What holds of a graph and is kept by package roots holds once the providers have seen the
files. -/
theorem seeAll_induction (registry : Registry) {r : Resolver} (h : motive r) :
    motive (registry.seeAll r paths).2 := by
  have hfold : ∀ rest : List Path, (∀ path ∈ rest, path ∈ paths) →
      ∀ seen : Registry × Resolver, motive seen.2 →
        motive (rest.foldl (fun seen path => seen.1.see seen.2 path) seen).2 := by
    intro rest
    induction rest with
    | nil => exact fun _ seen h => h
    | cons path rest ih =>
      intro hrest seen hseen
      exact ih (fun q hq => hrest q (List.mem_cons_of_mem _ hq)) _
        (see_induction hstep seen.1 (hrest path List.mem_cons_self) hseen)
  exact hfold paths (fun _ hpath => hpath) (registry, r) h

end Registry

end CrossIndex
