import CrossIndex.Proofs.Module.Chain

/-!
Import graphs of plain modules, change by change. Every import leads to a plain module and to a name
without dots, and an `__init__` module is led on to no other one. Main statement: a name that an
expression has led to leads to itself from its module.
-/

namespace CrossIndex.Resolver

/-- A change of the import graph. -/
inductive Change where
  | package (name : String) (root : Path)
  | document (path : Path) (lines : List String)

def change (r : Resolver) : Change → Resolver
  | .package name root => r.addPackage name root
  | .document path lines => r.addDocument path lines

/-- The import graph after changes, from no import and no package on. -/
def ofChanges (changes : List Change) : Resolver := changes.foldl change empty

/-- Modules and package roots are plain, no directory has the name of an `__init__` module, and no
name that is imported from a module holds a dot. -/
def Change.IsPlain : Change → Prop
  | .package _ root => (modulePath root).IsPlain
  | .document path lines =>
    (modulePath path).IsPlain ∧ .name initName ∉ (directory path).components ∧
      ∀ i ∈ Python.imports lines, i.module?.isSome = true → '.' ∉ i.name.toList

/-- A document lies in a directory, so that its path is not the root. -/
def Change.InDirectory : Change → Prop
  | .package _ _ => True
  | .document path _ => (modulePath path).parent?.isSome = true

instance (c : Change) : Decidable c.IsPlain :=
  match c with
  | .package _ _ => inferInstanceAs (Decidable (Path.IsPlain _))
  | .document _ _ => inferInstanceAs (Decidable (_ ∧ _))

instance (c : Change) : Decidable c.InDirectory :=
  match c with
  | .package _ _ => inferInstanceAs (Decidable True)
  | .document _ _ => inferInstanceAs (Decidable (_ = true))

/-- An import graph in which resolution settles. -/
structure Settled (r : Resolver) : Prop extends r.Plain where
  absolute : ∀ i ∈ r.imports, i.target.module.isAbsolute = true
  names : ∀ i ∈ r.imports, ∀ name, i.target.name? = some name → '.' ∉ name.toList
  directories : ∀ entry ∈ r.inits.entries, .name initName ∉ entry.1.components
  initModules : ∀ entry ∈ r.inits.entries, entry.2.IsPlain ∧ .name initName ∈ entry.2.components

variable {r : Resolver} {module path : Path} {name : String} {parts : List String}
  {imported : Bool} {steps : Nat} {result : Resolved}

/-! ### Changes -/

theorem settled_empty : empty.Settled where
  packages := fun entry h => by cases h
  inits := fun entry h => by cases h
  targets := fun i h => by cases h
  absolute := fun i h => by cases h
  names := fun i h => by cases h
  directories := fun entry h => by cases h
  initModules := fun entry h => by cases h

theorem Settled.addPackage (h : r.Settled) {root : Path} (hroot : (modulePath root).IsPlain)
    (name : String) : (r.addPackage name root).Settled where
  packages := by
    intro entry hmem
    rcases SortedTable.mem_insert hmem with hold | ⟨hnew, -⟩
    · exact h.packages entry hold
    · rw [hnew]
      exact hroot
  inits := h.inits
  targets := h.targets
  absolute := h.absolute
  names := h.names
  directories := h.directories
  initModules := h.initModules

theorem isAbsolute_directory_of_parent? (hm : (modulePath path).isAbsolute = true)
    (hparent : (modulePath path).parent?.isSome = true) : (directory path).isAbsolute = true := by
  obtain ⟨d, hd⟩ := Option.isSome_iff_exists.mp hparent
  rw [directory, hd]
  exact (Path.components_parent? hm hd).1

theorem importTarget_name? {directory : Path} {i : Python.Import}
    (h : (r.importTarget directory i).name? = some name) :
    i.module?.isSome = true ∧ name = i.name := by
  rw [importTarget] at h
  cases hmodule : i.module? with
  | none =>
    rw [hmodule] at h
    cases h
  | some text =>
    rw [hmodule] at h
    cases h
    exact ⟨rfl, rfl⟩

theorem Settled.addDocument (h : r.Settled) {lines : List String}
    (hplain : (Change.document path lines).IsPlain)
    (hfile : (Change.document path lines).InDirectory) : (r.addDocument path lines).Settled := by
  obtain ⟨hm, hdirectory, himported⟩ := hplain
  have habs := isAbsolute_directory_of_parent? hm.1 hfile
  refine ⟨h.toPlain.addDocument hm lines, ?_, ?_, ?_, ?_⟩
  · intro i hi
    rcases mem_imports_addDocument hi with hold | ⟨found, -, hfound⟩
    · exact h.absolute i hold
    · obtain ⟨text, htext⟩ := r.exists_importTarget_module (directory path) found
      rw [hfound, htext]
      exact isAbsolute_target habs (fun entry hmem => (h.packages entry hmem).1) text
  · intro i hi name hname
    rcases mem_imports_addDocument hi with hold | ⟨found, hmem, hfound⟩
    · exact h.names i hold name hname
    · rw [hfound] at hname
      obtain ⟨hsome, rfl⟩ := importTarget_name? hname
      exact himported found hmem hsome
  · intro entry hmem
    rcases mem_inits_addDocument hmem with hold | ⟨-, hkey, -⟩
    · exact h.directories entry hold
    · rw [← (Path.beq_iff _ _).mp hkey]
      exact hdirectory
  · intro entry hmem
    rcases mem_inits_addDocument hmem with hold | ⟨hinit, -, hvalue⟩
    · exact h.initModules entry hold
    · obtain ⟨init, hcomponents⟩ := Path.exists_of_fileName? hinit
      rw [hvalue, hcomponents]
      exact ⟨hm, by simp⟩

theorem Settled.change (h : r.Settled) {c : Change} (hplain : c.IsPlain) (hfile : c.InDirectory) :
    (r.change c).Settled := by
  cases c with
  | package name root => exact h.addPackage hplain name
  | document path lines => exact h.addDocument hplain hfile

theorem settled_ofChanges {changes : List Change} (hplain : ∀ c ∈ changes, c.IsPlain)
    (hfile : ∀ c ∈ changes, c.InDirectory) : (ofChanges changes).Settled := by
  have hfold : ∀ r : Resolver, r.Settled → (changes.foldl Resolver.change r).Settled := by
    induction changes with
    | nil => exact fun r h => h
    | cons c changes ih =>
      intro r h
      exact ih (fun d hd => hplain d (List.mem_cons_of_mem _ hd))
        (fun d hd => hfile d (List.mem_cons_of_mem _ hd)) _
        (h.change (hplain c List.mem_cons_self) (hfile c List.mem_cons_self))
  exact hfold empty settled_empty

/-! ### Ways in a settled graph -/

/-- An `__init__` module is no directory, and so it is led on to no other module. -/
theorem Settled.redirect_redirect (h : r.Settled) (module : Path) :
    r.redirect (r.redirect module) = r.redirect module := by
  cases hinit : r.inits.get? module with
  | none =>
    have hsame : r.redirect module = module := by rw [redirect, hinit, Option.getD_none]
    rw [hsame, hsame]
  | some init =>
    have hled : r.redirect module = init := by rw [redirect, hinit, Option.getD_some]
    obtain ⟨directory, -, hmem⟩ := SortedTable.exists_mem_of_get? hinit
    have hlast : r.inits.get? init = none := by
      cases hnext : r.inits.get? init with
      | none => rfl
      | some next =>
        obtain ⟨other, hother, hin⟩ := SortedTable.exists_mem_of_get? hnext
        have hcomponents := (Path.beq_iff _ _).mp (Path.compare_eq_iff.mp hother)
        exact absurd (hcomponents ▸ (h.initModules _ hmem).2) (h.directories _ hin)
    rw [hled, redirect, hlast, Option.getD_none]

theorem Settled.isPlain_redirect (h : r.Settled) (hm : module.IsPlain) :
    (r.redirect module).IsPlain := by
  rw [redirect]
  cases hinit : r.inits.get? module with
  | none => exact hm
  | some init =>
    obtain ⟨directory, -, hmem⟩ := SortedTable.exists_mem_of_get? hinit
    exact (h.initModules _ hmem).1

theorem Settled.isPlain_of_binding? (h : r.Settled) {target : ImportTarget}
    (hb : r.binding? module name = some target) :
    target.module.IsPlain ∧ ∀ other, target.name? = some other → '.' ∉ other.toList := by
  obtain ⟨i, hi, rfl⟩ := exists_import_of_binding? hb
  exact ⟨h.targets i hi (h.absolute i hi), h.names i hi⟩

/-- A way ends at a plain module. Where it ends at a name, one step over that name in that module
comes to the same end. -/
theorem Leads.settles (hs : r.Settled) (h : r.Leads module name imported steps result)
    (hm : module.IsPlain) (hname : '.' ∉ name.toList) :
    result.module.IsPlain ∧ ∀ last, result.name? = some last →
      '.' ∉ last.toList ∧ 1 ≤ steps ∧ r.Leads result.module last false 1 result := by
  induction h with
  | submodule hknows =>
    refine ⟨Path.isPlain_joinText (fun _ => hm) hname (Path.isAbsolute_joinText hm.1 _), ?_⟩
    intro last hlast
    cases hlast
  | @here module name _ hbelow hb =>
    refine ⟨hs.isPlain_redirect hm, ?_⟩
    rintro last ⟨⟩
    have hagain : r.binding? (r.redirect (r.redirect module)) name = none := by
      rwa [hs.redirect_redirect]
    have hend := Leads.here (Bool.false_and _) hagain
    rw [hs.redirect_redirect] at hend
    exact ⟨hname, Nat.le_refl 1, hend⟩
  | wholeModule hbelow hb =>
    refine ⟨(hs.isPlain_of_binding? hb).1, ?_⟩
    intro last hlast
    cases hlast
  | onward hbelow hb _ ih =>
    obtain ⟨hsource, hother⟩ := hs.isPlain_of_binding? hb
    obtain ⟨hplain, hend⟩ := ih hsource (hother _ rfl)
    refine ⟨hplain, ?_⟩
    intro last hlast
    obtain ⟨hdot, hsteps, hleads⟩ := hend last hlast
    exact ⟨hdot, Nat.le_succ_of_le hsteps, hleads⟩

/-- A dotted expression that ends at a name, dotted or not, is led from there to the same end. -/
theorem LeadsThrough.settles (hs : r.Settled) (h : r.LeadsThrough module parts steps result)
    (hm : module.IsPlain) (hparts : ∀ part ∈ parts, '.' ∉ part.toList) :
    result.module.IsPlain ∧ ∀ last, result.name? = some last →
      ∃ needed, needed ≤ steps ∧
        r.LeadsThrough result.module (Text.pieces '.' last) needed result := by
  induction h with
  | last hleads =>
    obtain ⟨hplain, hend⟩ := hleads.settles hs hm (hparts _ List.mem_cons_self)
    refine ⟨hplain, ?_⟩
    intro last hlast
    obtain ⟨hdot, hsteps, hagain⟩ := hend last hlast
    rw [Text.pieces_of_not_mem hdot]
    exact ⟨1, hsteps, .last hagain⟩
  | inside hleads _ ih =>
    obtain ⟨hinner, -⟩ := hleads.settles hs hm (hparts _ List.mem_cons_self)
    obtain ⟨hplain, hend⟩ := ih hinner fun part hp => hparts part (List.mem_cons_of_mem _ hp)
    refine ⟨hplain, ?_⟩
    intro last hlast
    obtain ⟨needed, hneeded, hagain⟩ := hend last hlast
    exact ⟨needed, Nat.le_add_left_of_le hneeded, hagain⟩
  | beyond hleads =>
    -- the whole expression was left where it stood, and its pieces are the parts it was joined from
    refine ⟨hm, ?_⟩
    rintro last ⟨⟩
    have hpieces := Text.pieces_intercalate (List.cons_ne_nil _ _) hparts
    refine ⟨_, Nat.le_refl _, ?_⟩
    rw [show "." = String.singleton '.' from rfl, hpieces]
    exact .beyond hleads

/-! ### Resolution -/

/-- Resolution comes to its end before the cap on its steps. -/
def WithinCap (r : Resolver) (path : Path) (expression : String) : Prop :=
  ∃ needed result, needed ≤ maxSteps ∧
    r.LeadsThrough (modulePath (r.rooted path)) (Text.pieces '.' expression) needed result

variable {changes : List Change} {expression : String} {target : Path}

/-- Where an expression has led to a name of a module, that name leads there again from that
module. -/
theorem resolve_resolved (hplain : ∀ c ∈ changes, c.IsPlain)
    (hfile : ∀ c ∈ changes, c.InDirectory) (hm : (modulePath path).IsPlain)
    (hcap : (ofChanges changes).WithinCap path expression)
    (h : (ofChanges changes).resolve path expression = ⟨target, some name⟩) :
    ((ofChanges changes).resolve target name).Same ⟨target, some name⟩ := by
  have hsettled := settled_ofChanges hplain hfile
  have habs : path.isAbsolute = true := (isAbsolute_modulePath path).symm.trans hm.1
  obtain ⟨needed, result, hneeded, hway⟩ := hcap
  have hresult : result = ⟨target, some name⟩ := by
    rw [← h, resolve, hway.resolveParts_eq hneeded]
  subst hresult
  rw [rooted_of_isAbsolute habs] at hway
  have hparts : ∀ part ∈ Text.pieces '.' expression, '.' ∉ part.toList :=
    fun part hp hdot => (Text.mem_of_mem_pieces hp hdot).2 rfl
  obtain ⟨htarget, hend⟩ := hway.settles hsettled hm hparts
  obtain ⟨again, hagain, hback⟩ := hend name rfl
  -- the target may be spelt in another way than its module path, which resolution does not see
  have hsame := resolveParts_congr (r := ofChanges changes) htarget.modulePath_beq
    (Text.pieces '.' name) maxSteps
  rw [resolve, rooted_of_isAbsolute htarget.1]
  rwa [hback.resolveParts_eq (Nat.le_trans hagain hneeded)] at hsame

/-- A package whose `__init__` module passes a name on that it has from a module below, which has it
from another one. -/
def reexport : List Change :=
  [.package "pkg" (.ofString "/src/pkg"),
    .document (.ofString "/src/pkg/__init__.py") ["from .sub import _foo as foo"],
    .document (.ofString "/src/pkg/sub.py") ["from .impl import foo as _foo"],
    .document (.ofString "/src/main.py") ["import pkg"]]

/-- The name leads through the package to the module that defines it, and stays there. -/
theorem resolve_resolved_reexport :
    let defining := Path.ofString "/src/pkg/impl"
    (ofChanges reexport).resolve (.ofString "/src/main.py") "pkg.foo" = ⟨defining, some "foo"⟩ ∧
      ((ofChanges reexport).resolve defining "foo").Same ⟨defining, some "foo"⟩ := by
  intro defining
  have hplain : ∀ c ∈ reexport, c.IsPlain := by decide +kernel
  have hfile : ∀ c ∈ reexport, c.InDirectory := by decide +kernel
  have hmain : (modulePath (.ofString "/src/main.py")).IsPlain := by decide +kernel
  have hresult : (ofChanges reexport).resolve (.ofString "/src/main.py") "pkg.foo" =
      ⟨defining, some "foo"⟩ := by
    decide +kernel
  have hpackage : (ofChanges reexport).resolveName (.ofString "/src/main") "pkg" false maxSteps =
      (⟨.ofString "/src/pkg", none⟩, 9) := by
    decide +kernel
  have hname : (ofChanges reexport).resolveName (.ofString "/src/pkg") "foo" false 9 =
      (⟨defining, some "foo"⟩, 6) := by
    decide +kernel
  -- one step to the package, and three from there
  obtain ⟨first, hfirst, hone⟩ := exists_leads hpackage
  obtain ⟨rest, hrest, hthree⟩ := exists_leads hname
  have hcap : (ofChanges reexport).WithinCap (.ofString "/src/main.py") "pkg.foo" := by
    refine ⟨first + rest, ⟨defining, some "foo"⟩, ?_, .inside hfirst (.last hrest)⟩
    rw [maxSteps] at hone ⊢
    omega
  exact ⟨hresult, resolve_resolved hplain hfile hmain hcap hresult⟩

/-- A document at the root, where an import has no directory to start from. -/
def rootDocument : List Change :=
  [.document (.ofString "/") ["from pkg import x"], .package "pkg" (.ofString "/src/pkg")]

/-- The name leads to a relative module, which is then looked for in a package. -/
theorem resolve_resolved_rootDocument :
    let graph := ofChanges rootDocument
    let relative := Path.ofString "pkg"
    (∀ c ∈ rootDocument, c.IsPlain) ∧ (modulePath (.ofString "/")).IsPlain ∧
      graph.WithinCap (.ofString "/") "x" ∧
        graph.resolve (.ofString "/") "x" = ⟨relative, some "x"⟩ ∧
          ¬(graph.resolve relative "x").Same ⟨relative, some "x"⟩ := by
  intro graph relative
  have hway : graph.resolveName (modulePath (.ofString "/")) "x" false maxSteps =
      (⟨relative, some "x"⟩, 8) := by
    decide +kernel
  obtain ⟨needed, hleads, hneeded⟩ := exists_leads hway
  have hmoved : (graph.resolve relative "x").module = .ofString "/src/pkg" := by decide +kernel
  refine ⟨by decide +kernel, by decide +kernel, ⟨needed, _, by omega, .last hleads⟩,
    by decide +kernel, ?_⟩
  intro hsame
  have hmodule := hsame.module
  rw [hmoved] at hmodule
  exact absurd hmodule (by decide +kernel)

end CrossIndex.Resolver
