import CrossIndex.Proofs.Module.Path
import Mathlib.Data.List.ModifyLast

/-!
Folding in parts, and the ending of a module path. A part of a path can be folded before the path is,
and the module path differs from the folded path in the last name alone. Main statement: paths have one
module path when their folded components are the same up to a last name with the same module.
-/

namespace CrossIndex

/-! ### Folding in parts -/

theorem reverse_foldComponent (rooted : Bool) (names start : List Component) (step : Component) :
    (foldComponent false names step).reverse.foldl (foldComponent rooted) start =
      foldComponent rooted (names.reverse.foldl (foldComponent rooted) start) step := by
  cases step with
  | root => rfl
  | current => rfl
  | name text => rw [foldComponent, List.reverse_cons, List.foldl_append]; rfl
  | parent =>
    obtain ⟨text, hn⟩ | ⟨hr, -⟩ | ⟨-, hn⟩ := foldComponent_parent_cases false names
    · -- the step up takes back the name before it, here and after any start
      have hback : names.reverse = (foldComponent false names .parent).reverse ++ [.name text] :=
        (congrArg List.reverse hn).trans List.reverse_cons
      rw [hback, List.foldl_append]
      rfl
    · cases hr
    · rw [hn, List.reverse_cons, List.foldl_append]
      rfl

/-- A part of a path can be folded before the path is. -/
theorem foldl_foldComponents (rooted : Bool) (components start : List Component) :
    (foldComponents false components).foldl (foldComponent rooted) start =
      components.foldl (foldComponent rooted) start := by
  have hfold : ∀ names : List Component,
      (components.foldl (foldComponent false) names).reverse.foldl (foldComponent rooted) start =
        components.foldl (foldComponent rooted)
          (names.reverse.foldl (foldComponent rooted) start) := by
    induction components with
    | nil => exact fun names => rfl
    | cons step components ih =>
      intro names
      rw [List.foldl_cons, ih, reverse_foldComponent, List.foldl_cons]
  exact hfold []

theorem foldComponent_steps (steps : Nat) :
    foldComponent false (List.replicate steps .parent) .parent =
      List.replicate (steps + 1) .parent := by
  cases steps with
  | zero => rfl
  | succ steps => rfl

/-- A relative path folds into steps up and names after them. -/
theorem exists_steps_names (components : List Component) :
    ∃ steps names, foldComponents false components = List.replicate steps .parent ++ names ∧
      ∀ c ∈ names, ∃ text, c = .name text := by
  have hfold : ∀ steps (names : List Component), (∀ c ∈ names, ∃ text, c = .name text) →
      ∃ steps' names', components.foldl (foldComponent false)
          (names ++ List.replicate steps .parent) = names' ++ List.replicate steps' .parent ∧
        ∀ c ∈ names', ∃ text, c = .name text := by
    induction components with
    | nil => exact fun steps names h => ⟨steps, names, rfl, h⟩
    | cons step components ih =>
      intro steps names h
      rw [List.foldl_cons]
      cases step with
      | root => exact ih steps names h
      | current => exact ih steps names h
      | name text =>
        refine ih steps (.name text :: names) ?_
        intro c hc
        rcases List.mem_cons.mp hc with rfl | hmem
        · exact ⟨text, rfl⟩
        · exact h c hmem
      | parent =>
        cases names with
        | nil =>
          rw [List.nil_append, foldComponent_steps]
          exact ih (steps + 1) [] h
        | cons c names =>
          obtain ⟨text, rfl⟩ := h c List.mem_cons_self
          exact ih steps names fun c hc => h c (List.mem_cons_of_mem _ hc)
  obtain ⟨steps, names, hnames, hall⟩ := hfold 0 [] (by simp)
  refine ⟨steps, names.reverse, ?_, fun c hc => hall c (List.mem_reverse.mp hc)⟩
  rw [foldComponents]
  rw [List.replicate_zero, List.append_nil] at hnames
  rw [hnames, List.reverse_append, List.reverse_replicate]

theorem foldl_steps (steps more : Nat) :
    (List.replicate steps Component.parent).foldl (foldComponent false)
      (List.replicate more .parent) = List.replicate (steps + more) .parent := by
  induction steps generalizing more with
  | zero => rw [Nat.zero_add]; rfl
  | succ steps ih =>
    rw [List.replicate_succ, List.foldl_cons, foldComponent_steps, ih]
    congr 1
    omega

/-- A first name stays before names. -/
theorem foldComponents_cons_names (first : String) {components names : List Component}
    (h : foldComponents false components = names) (hnames : ∀ c ∈ names, ∃ text, c = .name text) :
    foldComponents false (.name first :: components) = .name first :: names := by
  rw [foldComponents, List.foldl_cons, ← foldl_foldComponents, h, foldl_names false hnames,
    List.reverse_append, List.reverse_reverse]
  rfl

/-- A step up takes a first name back. -/
theorem foldComponents_cons_steps (first : String) {components names : List Component} {steps : Nat}
    (h : foldComponents false components = .parent :: (List.replicate steps .parent ++ names))
    (hnames : ∀ c ∈ names, ∃ text, c = .name text) :
    foldComponents false (.name first :: components) = List.replicate steps .parent ++ names := by
  have hsteps := foldl_steps steps 0
  rw [List.replicate_zero, Nat.add_zero] at hsteps
  rw [foldComponents, List.foldl_cons, ← foldl_foldComponents, h, List.foldl_cons,
    List.foldl_append]
  change (names.foldl _ ((List.replicate steps Component.parent).foldl _ [])).reverse = _
  rw [hsteps, foldl_names false hnames, List.reverse_append, List.reverse_reverse,
    List.reverse_replicate]

/-! ### The ending -/

/-- The name of the module in a file of a name. -/
def moduleName (text : String) : String :=
  match splitExtension? text.toList with
  | some (stem, extension) => if extension = "py".toList then String.ofList stem else text
  | none => text

/-- The last component of a module path, for the last component of the folded path. -/
def Component.module : Component → Component
  | .name text => .name (moduleName text)
  | c => c

theorem Component.module_cases {c d : Component} (h : c.module = d.module) :
    c = d ∨ ∃ a b, c = .name a ∧ d = .name b ∧ moduleName a = moduleName b := by
  cases c with
  | name a =>
    cases d with
    | name b => exact Or.inr ⟨a, b, rfl, rfl, Component.name.inj h⟩
    | root | current | parent => cases h
  | root | current | parent =>
    cases d with
    | name b => cases h
    | root | current | parent => exact Or.inl h

/-- Without `.py` the last name of the path is a name still. Of all names only `..py` and `...py` are
none then. -/
def Path.NamesModule (p : Path) : Prop :=
  p.folded.fileName? ≠ some "..py" ∧ p.folded.fileName? ≠ some "...py"

theorem moduleName_of_python {text : String} {stem : List Char}
    (h : splitExtension? text.toList = some (stem, "py".toList)) :
    moduleName text = String.ofList stem := by
  rw [moduleName, h]
  exact if_pos rfl

/-- A name is that of its module, or it ends in `.py`. -/
theorem moduleName_cases (text : String) :
    (∃ stem, splitExtension? text.toList = some (stem, "py".toList)) ∨
      (splitExtension? text.toList).map (fun cut => String.ofList cut.2) ≠ some "py" ∧
        moduleName text = text := by
  cases hcut : splitExtension? text.toList with
  | none => exact Or.inr ⟨by simp, by rw [moduleName, hcut]⟩
  | some cut =>
    obtain ⟨stem, extension⟩ := cut
    by_cases hpy : extension = "py".toList
    · exact Or.inl ⟨stem, by rw [hpy]⟩
    · refine Or.inr ⟨?_, ?_⟩
      · intro hmap
        have hchars := congrArg String.toList (Option.some.inj hmap)
        rw [String.toList_ofList] at hchars
        exact hpy hchars
      · rw [moduleName, hcut]
        exact if_neg hpy

theorem isName_moduleName {text : String} (h : Path.IsName text) (hdot : text ≠ "..py")
    (hdots : text ≠ "...py") : Path.IsName (moduleName text) := by
  obtain ⟨stem, hcut⟩ | ⟨-, hsame⟩ := moduleName_cases text
  · have htext := eq_append_of_python hcut
    rw [moduleName_of_python hcut]
    refine ⟨?_, ?_, ?_⟩
    · intro hempty
      have hnil := congrArg String.toList hempty
      rw [String.toList_ofList] at hnil
      exact ne_nil_of_splitExtension? hcut hnil
    · intro hstem
      rw [hstem] at htext
      exact hdot htext
    · intro hstem
      rw [hstem] at htext
      exact hdots htext
  · rw [hsame]
    exact h

theorem Path.NamesModule.isName {p : Path} (h : p.NamesModule) {text : String}
    (htext : p.folded.fileName? = some text) : Path.IsName (moduleName text) := by
  obtain ⟨init, hinit⟩ := exists_of_fileName? htext
  have hname : IsName text := isName_of_mem_components (p := p.folded) (by simp [hinit])
  refine isName_moduleName hname ?_ ?_
  · rintro rfl
    exact h.1 htext
  · rintro rfl
    exact h.2 htext

theorem modulePath_of_fileName?_eq_none {p : Path} (h : p.folded.fileName? = none) :
    modulePath p = p.folded := by
  rw [modulePath, if_neg (by simp [Path.extension?, h])]

/-- The module path of a Python file ends in what is left of the name of the file. -/
theorem components_modulePath_of_python {p : Path} {init : List Component} {text : String}
    {stem : List Char} (hc : p.folded.components = init ++ [.name text])
    (hcut : splitExtension? text.toList = some (stem, "py".toList))
    (hstem : String.ofList stem ≠ "." ∨ init ≠ []) :
    (modulePath p).components = init ++ (Path.bodyComponent? (String.ofList stem)).toList := by
  have hpy : p.folded.extension? = some "py" := by
    rw [Path.extension?_of_components hc, hcut, Option.map_some, String.ofList_toList]
  rw [modulePath, if_pos hpy, Path.components_withoutExtension hc hcut hstem]

theorem components_modulePath_of_name {p : Path} {init : List Component} {text : String}
    (hc : p.folded.components = init ++ [.name text]) (hname : Path.IsName (moduleName text)) :
    (modulePath p).components = init ++ [.name (moduleName text)] := by
  obtain ⟨stem, hcut⟩ | ⟨hother, hsame⟩ := moduleName_cases text
  · rw [moduleName_of_python hcut] at hname ⊢
    rw [components_modulePath_of_python hc hcut (Or.inl hname.2.1), Path.bodyComponent?_name hname]
    rfl
  · rw [← Path.extension?_of_components hc] at hother
    rw [modulePath, if_neg hother, hc, hsame]

/-- A module path differs from the folded path in its last name alone. -/
theorem components_modulePath {p : Path}
    (h : ∀ text, p.folded.fileName? = some text → Path.IsName (moduleName text)) :
    (modulePath p).components = p.folded.components.modifyLast Component.module := by
  rcases List.eq_nil_or_concat p.folded.components with hnil | ⟨init, c, hc⟩
  · rw [modulePath_of_fileName?_eq_none (by simp [Path.fileName?, hnil]), hnil]
    rfl
  · rw [List.concat_eq_append] at hc
    rw [hc, List.modifyLast_concat]
    cases c with
    | root | current | parent =>
      rw [modulePath_of_fileName?_eq_none (by simp [Path.fileName?, hc]), hc]
      rfl
    | name text => exact components_modulePath_of_name hc (h text (Path.fileName?_of_components hc))

/-- Two folded paths are the same, or differ in a last name that stands for the same module. -/
def EndAlike (left right : List Component) : Prop :=
  left = right ∨ ∃ init a b, left = init ++ [.name a] ∧ right = init ++ [.name b] ∧
    moduleName a = moduleName b ∧ Path.IsName (moduleName a)

variable {left right : List Component} {p q root : Path}

theorem EndAlike.cons (h : EndAlike left right) (c : Component) :
    EndAlike (c :: left) (c :: right) := by
  rcases h with rfl | ⟨init, a, b, rfl, rfl, hab, hname⟩
  · exact Or.inl rfl
  · exact Or.inr ⟨c :: init, a, b, rfl, rfl, hab, hname⟩

theorem EndAlike.of_cons {c : Component} (h : EndAlike (c :: left) (c :: right)) :
    EndAlike left right := by
  rcases h with heq | ⟨init, a, b, hleft, hright, hab, hname⟩
  · exact Or.inl (List.cons.inj heq).2
  · cases init with
    | nil =>
      -- nothing follows the one component that both have
      obtain ⟨-, rfl⟩ := List.cons.inj hleft
      obtain ⟨-, rfl⟩ := List.cons.inj hright
      exact Or.inl rfl
    | cons first init =>
      exact Or.inr ⟨init, a, b, (List.cons.inj hleft).2, (List.cons.inj hright).2, hab, hname⟩

/-- What comes before folded paths may be anything. -/
theorem EndAlike.foldl (h : EndAlike left right) (rooted : Bool) (start : List Component) :
    EndAlike (left.foldl (foldComponent rooted) start).reverse
      (right.foldl (foldComponent rooted) start).reverse := by
  rcases h with rfl | ⟨init, a, b, rfl, rfl, hab, hname⟩
  · exact Or.inl rfl
  · refine Or.inr ⟨(init.foldl (foldComponent rooted) start).reverse, a, b, ?_, ?_, hab, hname⟩
    · rw [List.foldl_append, ← List.reverse_cons]
      rfl
    · rw [List.foldl_append, ← List.reverse_cons]
      rfl

theorem endAlike_of_modifyLast (hname : ∀ init a, left = init ++ [.name a] → Path.IsName (moduleName a))
    (h : left.modifyLast Component.module = right.modifyLast Component.module) :
    EndAlike left right := by
  rcases List.eq_nil_or_concat left with rfl | ⟨init, c, rfl⟩
  · rcases List.eq_nil_or_concat right with rfl | ⟨others, d, rfl⟩
    · exact Or.inl rfl
    · rw [List.concat_eq_append, List.modifyLast_concat] at h
      exact absurd h.symm (by simp [List.modifyLast, List.modifyLast.go])
  · rcases List.eq_nil_or_concat right with rfl | ⟨others, d, rfl⟩
    · rw [List.concat_eq_append, List.modifyLast_concat] at h
      exact absurd h (by simp [List.modifyLast, List.modifyLast.go])
    · simp only [List.concat_eq_append] at hname h ⊢
      rw [List.modifyLast_concat, List.modifyLast_concat] at h
      obtain ⟨rfl, hlast⟩ := List.append_inj' h rfl
      rcases Component.module_cases (List.cons.inj hlast).1 with rfl | ⟨a, b, rfl, rfl, hab⟩
      · exact Or.inl rfl
      · exact Or.inr ⟨init, a, b, rfl, rfl, hab, hname init a rfl⟩

/-- Folded paths that end alike have one module path. -/
theorem modulePath_beq_of_endAlike (habs : p.isAbsolute = q.isAbsolute)
    (h : EndAlike (foldComponents p.isAbsolute p.components)
      (foldComponents q.isAbsolute q.components)) : (modulePath p == modulePath q) = true := by
  have hp := p.components_folded_eq
  have hq := q.components_folded_eq
  rcases h with heq | ⟨init, a, b, hleft, hright, hab, hname⟩
  · have hfolded : p.folded = q.folded := by rw [Path.folded, Path.folded, heq, habs]
    rw [modulePath, modulePath, hfolded]
    exact BEq.rfl
  · rw [hleft, ← List.append_assoc] at hp
    rw [hright, ← List.append_assoc, ← habs] at hq
    rw [Path.beq_iff, components_modulePath_of_name hp hname,
      components_modulePath_of_name hq (hab ▸ hname), hab]

theorem endAlike_of_modulePath (hp : p.isAbsolute = false) (hq : q.isAbsolute = false)
    (hpname : p.NamesModule) (hqname : q.NamesModule) (h : (modulePath p == modulePath q) = true) :
    EndAlike (foldComponents false p.components) (foldComponents false q.components) := by
  rw [Path.beq_iff, components_modulePath fun _ => hpname.isName,
    components_modulePath fun _ => hqname.isName, Path.components_folded_relative hp,
    Path.components_folded_relative hq] at h
  refine endAlike_of_modifyLast ?_ h
  intro init a hinit
  apply hpname.isName
  rw [← Path.components_folded_relative hp] at hinit
  exact Path.fileName?_of_components hinit

end CrossIndex
