import CrossIndex.Module.Path
import CrossIndex.Proofs.Path.Extension
import CrossIndex.Proofs.Text.Split

/-!
Module paths by their components. A plain path is absolute and holds no dot. Main statements: a plain
path is its own module path, steps along texts without dots lead from one plain path to another, and the
file of the module path of a Python file is the folded path of that file.
-/

namespace CrossIndex

/-- A step up drops a name; where there is none it is lost below the root and kept elsewhere. -/
theorem foldComponent_parent_cases (rooted : Bool) (names : List Component) :
    (∃ text, names = .name text :: foldComponent rooted names .parent) ∨
      rooted = true ∧ foldComponent rooted names .parent = names ∨
        rooted = false ∧ foldComponent rooted names .parent = .parent :: names := by
  rcases names with - | ⟨c, rest⟩
  · cases rooted with
    | true => exact Or.inr (Or.inl ⟨rfl, rfl⟩)
    | false => exact Or.inr (Or.inr ⟨rfl, rfl⟩)
  · cases c with
    | name text => exact Or.inl ⟨text, rfl⟩
    | root | current | parent =>
      cases rooted with
      | true => exact Or.inr (Or.inl ⟨rfl, rfl⟩)
      | false => exact Or.inr (Or.inr ⟨rfl, rfl⟩)

/-- A step puts its component on top, or leaves a part of what was there. -/
theorem foldComponent_sublist (rooted : Bool) (names : List Component) (step : Component) :
    (foldComponent rooted names step).Sublist (step :: names) := by
  cases step with
  | root => exact List.sublist_cons_self _ _
  | current => exact List.sublist_cons_self _ _
  | name text => exact List.Sublist.refl _
  | parent =>
    obtain ⟨text, hn⟩ | ⟨-, hn⟩ | ⟨-, hn⟩ := foldComponent_parent_cases rooted names
    · have hpopped : (.name text :: foldComponent rooted names .parent).Sublist names :=
        hn ▸ List.Sublist.refl names
      exact (List.sublist_of_cons_sublist hpopped).cons _
    · rw [hn]
      exact List.sublist_cons_self _ _
    · simp only [hn, List.Sublist.refl]

theorem foldl_foldComponent_sublist (rooted : Bool) (components names : List Component) :
    (components.foldl (foldComponent rooted) names).Sublist (components.reverse ++ names) := by
  induction components generalizing names with
  | nil => exact List.Sublist.refl _
  | cons step components ih =>
    have hstep := (foldComponent_sublist rooted names step).append_left components.reverse
    rw [List.foldl_cons, List.reverse_cons, List.append_assoc, List.singleton_append]
    exact (ih _).trans hstep

/-- Folding takes components away and puts none in. -/
theorem foldComponents_sublist (rooted : Bool) (components : List Component) :
    (foldComponents rooted components).Sublist components := by
  have hfold := foldl_foldComponent_sublist rooted components []
  rw [List.append_nil] at hfold
  rw [foldComponents, ← List.reverse_reverse components]
  exact List.reverse_sublist.mpr (components.reverse_reverse.symm ▸ hfold)

theorem mem_foldComponents {rooted : Bool} {components : List Component} {c : Component}
    (h : c ∈ foldComponents rooted components) : c ∈ components :=
  (foldComponents_sublist rooted components).subset h

/-- A component that folding leaves: a name, or a step up that no name comes before. -/
def IsFolded (rooted : Bool) (c : Component) : Prop :=
  (rooted = false ∧ c = .parent) ∨ ∃ text, c = .name text

theorem isFolded_foldComponent {rooted : Bool} {names : List Component}
    (h : ∀ c ∈ names, IsFolded rooted c) (step : Component) :
    ∀ c ∈ foldComponent rooted names step, IsFolded rooted c := by
  intro c hc
  cases step with
  | root => exact h c hc
  | current => exact h c hc
  | name text =>
    rcases List.mem_cons.mp hc with rfl | hmem
    · exact Or.inr ⟨text, rfl⟩
    · exact h c hmem
  | parent =>
    obtain ⟨text, hn⟩ | ⟨-, hn⟩ | ⟨hr, hn⟩ := foldComponent_parent_cases rooted names
    · rw [hn] at h
      exact h c (List.mem_cons_of_mem _ hc)
    · rw [hn] at hc
      exact h c hc
    · rw [hn] at hc
      rcases List.mem_cons.mp hc with rfl | hmem
      · exact Or.inl ⟨hr, rfl⟩
      · exact h c hmem

/-- Neither the root nor a dot is left after folding, and below the root no step up. -/
theorem isFolded_of_mem_foldComponents {rooted : Bool} {components : List Component} :
    ∀ c ∈ foldComponents rooted components, IsFolded rooted c := by
  -- what has been folded so far is kept in reverse, which changes no membership
  have hfold : ∀ names : List Component, (∀ c ∈ names, IsFolded rooted c) →
      ∀ c ∈ components.foldl (foldComponent rooted) names, IsFolded rooted c := by
    induction components with
    | nil => exact fun names h => h
    | cons step components ih => exact fun names h => ih _ (isFolded_foldComponent h step)
  intro c hc
  exact hfold [] (by simp) c (List.mem_reverse.mp hc)

theorem foldComponents_concat (rooted : Bool) (components : List Component) (c : Component) :
    foldComponents rooted (components ++ [c]) =
      (foldComponent rooted (foldComponents rooted components).reverse c).reverse := by
  rw [foldComponents, foldComponents, List.foldl_append, List.reverse_reverse]
  rfl

theorem foldComponents_append_name (rooted : Bool) (components : List Component) (text : String) :
    foldComponents rooted (components ++ [.name text]) =
      foldComponents rooted components ++ [.name text] := by
  rw [foldComponents_concat, foldComponent, List.reverse_cons, List.reverse_reverse]

/-- Names are kept as they are. -/
theorem foldl_names (rooted : Bool) {names : List Component}
    (h : ∀ c ∈ names, ∃ text, c = .name text) (start : List Component) :
    names.foldl (foldComponent rooted) start = names.reverse ++ start := by
  induction names generalizing start with
  | nil => rfl
  | cons c names ih =>
    obtain ⟨text, rfl⟩ := h c List.mem_cons_self
    rw [List.foldl_cons, ih fun c hc => h c (List.mem_cons_of_mem _ hc), foldComponent,
      List.reverse_cons, List.append_assoc]
    rfl

theorem foldComponents_root_names (rooted : Bool) {components : List Component}
    (h : ∀ c ∈ components, ∃ text, c = .name text) :
    foldComponents rooted (.root :: components) = components := by
  rw [foldComponents, List.foldl_cons, foldComponent, foldl_names rooted h, List.append_nil,
    List.reverse_reverse]

namespace Path

theorem filterMap_bodyComponent?_folded {p : Path} {components : List Component}
    (hp : ∀ c ∈ components, c ∈ p.components) {rooted : Bool}
    (h : ∀ c ∈ components, IsFolded rooted c) :
    (components.map Component.text).filterMap bodyComponent? = components := by
  induction components with
  | nil => rfl
  | cons c components ih =>
    have hrest := ih (fun c hc => hp c (List.mem_cons_of_mem _ hc))
      fun c hc => h c (List.mem_cons_of_mem _ hc)
    have hc : bodyComponent? c.text = some c := by
      obtain ⟨-, rfl⟩ | ⟨text, rfl⟩ := h c List.mem_cons_self
      · rfl
      · exact bodyComponent?_name (isName_of_mem_components (hp _ List.mem_cons_self))
    rw [List.map_cons, List.filterMap_cons_some hc, hrest]

theorem components_folded {p : Path} (h : p.isAbsolute = true) :
    p.folded.isAbsolute = true ∧
      p.folded.components = .root :: foldComponents true p.components := by
  rw [folded, h]
  refine ⟨isAbsolute_ofParts _, ?_⟩
  rw [if_pos rfl, components_ofParts, filterMap_bodyComponent?_folded (fun c => mem_foldComponents)
    isFolded_of_mem_foldComponents]

theorem text_of_isFolded {p : Path} {c : Component} (hmem : c ∈ p.components) {rooted : Bool}
    (h : IsFolded rooted c) : c.text ≠ "" ∧ c.text ≠ "." := by
  obtain ⟨-, rfl⟩ | ⟨text, rfl⟩ := h
  · decide
  · have hname := isName_of_mem_components hmem
    exact ⟨hname.1, hname.2.1⟩

theorem isAbsolute_folded (p : Path) : p.folded.isAbsolute = p.isAbsolute := by
  cases h : p.isAbsolute with
  | true => exact (components_folded h).1
  | false =>
    rw [folded, h]
    change (ofParts [] ((foldComponents false p.components).map Component.text)).isAbsolute = false
    cases hc : foldComponents false p.components with
    | nil => rfl
    | cons c rest =>
      -- an absolute path would begin with an empty segment, and no component is written as one
      have hmem : c ∈ foldComponents false p.components := hc ▸ List.mem_cons_self
      have hne :=
        (text_of_isFolded (mem_foldComponents hmem) (isFolded_of_mem_foldComponents c hmem)).1
      simp [ofParts, isAbsolute, hne]

theorem components_folded_relative {p : Path} (h : p.isAbsolute = false) :
    p.folded.components = foldComponents false p.components := by
  have hrelative : p.folded.isAbsolute = false := p.isAbsolute_folded.trans h
  have hfilter := filterMap_bodyComponent?_folded (fun c => mem_foldComponents)
    (@isFolded_of_mem_foldComponents false p.components)
  have hfolded : p.folded = ofParts [] ((foldComponents false p.components).map Component.text) := by
    rw [folded, h]
    rfl
  rw [hfolded] at hrelative ⊢
  cases hc : foldComponents false p.components with
  | nil => rfl
  | cons c rest =>
    -- the first segment is no dot, which would count at the front of a path
    have hmem : c ∈ foldComponents false p.components := hc ▸ List.mem_cons_self
    have hdot := (text_of_isFolded (mem_foldComponents hmem) (isFolded_of_mem_foldComponents c hmem)).2
    rw [hc] at hrelative hfilter
    rw [components_of_segments hrelative, front_of_segments hrelative rfl, if_neg hdot]
    exact hfilter

theorem components_folded_eq (p : Path) :
    p.folded.components =
      (if p.isAbsolute then [.root] else []) ++ foldComponents p.isAbsolute p.components := by
  cases h : p.isAbsolute with
  | true => exact (components_folded h).2
  | false => exact components_folded_relative h

theorem folded_congr {p q : Path} (h : (p == q) = true) : p.folded = q.folded := by
  rw [folded, folded, isAbsolute_congr h, (beq_iff p q).mp h]

end Path

/-- Paths that are the same have one module path. -/
theorem modulePath_congr {p q : Path} (h : (p == q) = true) : modulePath p = modulePath q := by
  rw [modulePath, modulePath, Path.folded_congr h]

theorem isAbsolute_modulePath (p : Path) : (modulePath p).isAbsolute = p.isAbsolute := by
  rw [← p.isAbsolute_folded]
  by_cases hpy : p.folded.extension? = some "py"
  · rw [modulePath, if_pos hpy, Path.withoutExtension_isAbsolute]
  · rw [modulePath, if_neg hpy]

/-- The module path of a Python file. -/
theorem modulePath_of_python {p : Path} (hp : p.isAbsolute = true) {names : List Component}
    {text : String} {stem : List Char}
    (hc : foldComponents true p.components = names ++ [.name text])
    (hcut : splitExtension? text.toList = some (stem, "py".toList)) :
    modulePath p = .ofParts [""] (names.map Component.text ++ [String.ofList stem]) := by
  -- folding leaves the name of the file at the end, where its ending is cut off
  have hfolded : p.folded = .ofParts [""] (names.map Component.text ++ [text]) := by
    rw [Path.folded, hp, hc, List.map_append]
    rfl
  have hname : Path.IsName text := by
    have hmem : Component.name text ∈ foldComponents true p.components := hc ▸ by simp
    exact Path.isName_of_mem_components (mem_foldComponents hmem)
  have hpy : p.folded.extension? = some "py" := by
    have hcomponents : p.folded.components = (.root :: names) ++ [.name text] := by
      rw [(Path.components_folded hp).2, hc, List.cons_append]
    rw [Path.extension?_of_components hcomponents, hcut, Option.map_some, String.ofList_toList]
  rw [modulePath, if_pos hpy, hfolded, Path.withoutExtension_ofParts hname hcut]

/-- The file of the module path of a Python file is the file, with `.` and `..` folded away. -/
theorem sourceFile_modulePath_eq_folded {p : Path} (hp : p.isAbsolute = true)
    (hpy : SourceKind.of p = .python) : sourceFile (modulePath p) = p.folded := by
  obtain ⟨init, name, stem, hinit, hcut⟩ := Path.exists_of_python hpy
  have hfold : foldComponents true p.components = foldComponents true init ++ [.name name] := by
    rw [hinit, foldComponents_append_name]
  have hfolded : p.folded =
      .ofParts [""] ((foldComponents true init).map Component.text ++ [name]) := by
    rw [Path.folded, hp, hfold, List.map_append]
    rfl
  -- the cut takes from the last segment what is put there again
  rw [modulePath_of_python hp hfold hcut, hfolded, Path.ofParts_concat, Path.ofParts_concat,
    sourceFile, Path.append, List.getLast?_concat]
  simp only [List.dropLast_concat, ← eq_append_of_python hcut]

namespace Path

variable {p q : Path}

/-- The path is absolute and holds no dot. -/
def IsPlain (p : Path) : Prop :=
  p.isAbsolute = true ∧ ∀ c ∈ p.components, '.' ∉ c.text.toList

/-- The path is relative, or holds no dots but those of its steps up. -/
def FoldsPlain (p : Path) : Prop :=
  p.isAbsolute = true → ∀ c ∈ p.components, c = .parent ∨ '.' ∉ c.text.toList

instance (p : Path) : Decidable p.IsPlain :=
  inferInstanceAs (Decidable (_ ∧ _))

theorem foldsPlain_of_isPlain (h : p.isAbsolute = true → p.IsPlain) : p.FoldsPlain :=
  fun habs c hc => Or.inr ((h habs).2 c hc)

theorem IsPlain.congr (hp : p.IsPlain) (h : (p == q) = true) : q.IsPlain := by
  rw [IsPlain, ← isAbsolute_congr h, ← (beq_iff p q).mp h]
  exact hp

/-- A plain path goes from the root through names. -/
theorem IsPlain.exists_names (h : p.IsPlain) :
    ∃ names, p.components = .root :: names ∧ ∀ c ∈ names, ∃ text, c = .name text := by
  obtain ⟨tail, -, -, ht⟩ := exists_tail_of_isAbsolute h.1
  refine ⟨_, ht, ?_⟩
  intro c hc
  obtain ⟨s, -, hs⟩ := List.mem_filterMap.mp hc
  obtain ⟨-, rfl⟩ | ⟨-, hname⟩ := bodyComponent?_cases hs
  · -- a step up is written with dots
    have hplain := h.2 .parent (ht ▸ List.mem_cons_of_mem _ hc)
    exact absurd (by decide) hplain
  · exact ⟨s, hname⟩

theorem IsPlain.components_folded (h : p.IsPlain) : p.folded.components = p.components := by
  obtain ⟨names, hp, hnames⟩ := h.exists_names
  rw [(Path.components_folded h.1).2, hp, foldComponents_root_names true hnames]

theorem FoldsPlain.isPlain_folded (h : p.FoldsPlain) (hp : p.isAbsolute = true) :
    p.folded.IsPlain := by
  obtain ⟨habs, hc⟩ := Path.components_folded hp
  refine ⟨habs, ?_⟩
  intro c hmem
  rw [hc] at hmem
  rcases List.mem_cons.mp hmem with rfl | hmem
  · decide
  · obtain ⟨hr, -⟩ | ⟨text, rfl⟩ := isFolded_of_mem_foldComponents c hmem
    · cases hr
    · rcases h hp _ (mem_foldComponents hmem) with hparent | hdot
      · cases hparent
      · exact hdot

theorem IsPlain.extension? (h : p.IsPlain) : p.extension? = none := by
  rw [Path.extension?]
  cases hf : p.fileName? with
  | none => rfl
  | some name =>
    have hdot : '.' ∉ name.toList := by
      rw [fileName?] at hf
      split at hf
      · next text hlast =>
        cases hf
        exact h.2 _ (List.mem_of_getLast? hlast)
      · cases hf
    simp [splitExtension?_of_not_mem hdot]

/-- Where folding leads to a plain path, there is no ending to drop. -/
theorem modulePath_eq_folded (h : p.folded.IsPlain) : modulePath p = p.folded := by
  rw [modulePath, h.extension?]
  exact if_neg (by simp)

theorem FoldsPlain.isPlain_modulePath (h : p.FoldsPlain)
    (habs : (modulePath p).isAbsolute = true) : (modulePath p).IsPlain := by
  have hplain := h.isPlain_folded ((isAbsolute_modulePath p).symm.trans habs)
  rw [modulePath_eq_folded hplain]
  exact hplain

/-- A plain path is its own module path. -/
theorem IsPlain.modulePath_beq (h : p.IsPlain) : (modulePath p == p) = true := by
  have hplain := (foldsPlain_of_isPlain fun _ => h).isPlain_folded h.1
  rw [beq_iff, modulePath_eq_folded hplain, h.components_folded]

theorem IsPlain.isPlain_parent? (h : p.IsPlain) {d : Path} (hd : p.parent? = some d) :
    d.IsPlain := by
  obtain ⟨habs, hc⟩ := components_parent? h.1 hd
  refine ⟨habs, ?_⟩
  intro c hmem
  rw [hc] at hmem
  exact h.2 c (List.dropLast_subset _ hmem)

/-- A step along a text goes on from the path, or from the root, through components of the text. -/
theorem joinText_cases (text : String) (h : (p.joinText text).isAbsolute = true) :
    ∀ c ∈ (p.joinText text).components,
      p.isAbsolute = true ∧ c ∈ p.components ∨ c = .root ∨
        ∃ s ∈ Text.pieces '/' text, bodyComponent? s = some c := by
  intro c hc
  cases hq : (ofString text).isAbsolute with
  | true =>
    obtain ⟨tail, hs, -, hcomponents⟩ := exists_tail_of_isAbsolute hq
    rw [Path.joinText, join, if_pos hq, hcomponents] at hc
    rcases List.mem_cons.mp hc with rfl | hmem
    · exact Or.inr (Or.inl rfl)
    · obtain ⟨s, hin, hcs⟩ := List.mem_filterMap.mp hmem
      have hpiece : s ∈ (ofString text).segments := hs ▸ List.mem_cons_of_mem _ hin
      exact Or.inr (Or.inr ⟨s, hpiece, hcs⟩)
  | false =>
    cases hp : p.isAbsolute with
    | false =>
      rw [Path.joinText, isAbsolute_join hp hq] at h
      cases h
    | true =>
      rw [Path.joinText, (components_join hp hq (Text.pieces_ne_nil '/' text)).2] at hc
      rcases List.mem_append.mp hc with hold | hnew
      · exact Or.inl ⟨rfl, hold⟩
      · exact Or.inr (Or.inr (List.mem_filterMap.mp hnew))

theorem not_mem_of_bodyComponent? {text s : String} {c : Component} (ht : '.' ∉ text.toList)
    (hs : s ∈ Text.pieces '/' text) (hc : bodyComponent? s = some c) : '.' ∉ c.text.toList := by
  have hdot : '.' ∉ s.toList := fun hmem => ht (Text.mem_of_mem_pieces hs hmem).1
  obtain ⟨rfl, -⟩ | ⟨-, rfl⟩ := bodyComponent?_cases hc
  · exact absurd (by decide) hdot
  · exact hdot

theorem isPlain_joinText (h : p.isAbsolute = true → p.IsPlain) {text : String}
    (ht : '.' ∉ text.toList) (habs : (p.joinText text).isAbsolute = true) :
    (p.joinText text).IsPlain := by
  refine ⟨habs, ?_⟩
  intro c hc
  rcases joinText_cases text habs c hc with ⟨hp, hold⟩ | rfl | ⟨s, hs, hcs⟩
  · exact (h hp).2 c hold
  · decide
  · exact not_mem_of_bodyComponent? ht hs hcs

theorem FoldsPlain.foldsPlain_joinText (h : p.FoldsPlain) {text : String}
    (ht : text = ".." ∨ '.' ∉ text.toList) : (p.joinText text).FoldsPlain := by
  intro habs c hc
  rcases joinText_cases text habs c hc with ⟨hp, hold⟩ | rfl | ⟨s, hs, hcs⟩
  · exact h hp c hold
  · exact Or.inr (by decide)
  · rcases ht with rfl | hdot
    · have hup : s = ".." := by
        rw [Text.pieces_of_not_mem (by decide)] at hs
        exact List.mem_singleton.mp hs
      subst hup
      cases hcs
      exact Or.inl rfl
    · exact Or.inr (not_mem_of_bodyComponent? hdot hs hcs)

end Path

end CrossIndex
