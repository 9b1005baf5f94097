import CrossIndex.Proofs.Module.Chain
import CrossIndex.Proofs.Module.Folding

/-!
The spellings of a module. Main statement: paths with one module path are resolved alike when they
start alike, so that the root of a package comes before both of them or before none.
-/

namespace CrossIndex

variable {p q root : Path} {first : String} {ps qs : List Component}

theorem components_join_afterFirst (root : Path) (h : p.components = .name first :: ps) :
    (root.join p.afterFirst).isAbsolute = root.isAbsolute ∧
      (root.join p.afterFirst).components = root.components ++ ps := by
  obtain ⟨hrelative, hfront, hne, hrest⟩ := Path.components_afterFirst h
  cases hroot : root.isAbsolute with
  | true =>
    rw [← hrest]
    exact Path.components_join hroot hrelative hne
  | false =>
    rw [← hrest]
    exact ⟨Path.isAbsolute_join hroot hrelative,
      Path.components_join_relative hroot hrelative hfront⟩

/-- What follows one first name ends alike when the whole paths do, and when steps up lead out of the
first name in both of them or in none. -/
theorem EndAlike.of_first
    (hup : .parent ∈ foldComponents false ps ↔ .parent ∈ foldComponents false qs)
    (h : EndAlike (foldComponents false (.name first :: ps))
      (foldComponents false (.name first :: qs))) :
    EndAlike (foldComponents false ps) (foldComponents false qs) := by
  obtain ⟨steps, names, hps, hnames⟩ := exists_steps_names ps
  obtain ⟨others, rest, hqs, hrest⟩ := exists_steps_names qs
  have hparent : ∀ {names : List Component}, (∀ c ∈ names, ∃ text, c = .name text) →
      .parent ∉ names := by
    intro names hall hmem
    obtain ⟨text, htext⟩ := hall _ hmem
    cases htext
  rw [hps, hqs] at hup ⊢
  cases steps with
  | zero =>
    cases others with
    | zero =>
      rw [List.replicate_zero, List.nil_append] at hps hqs ⊢
      rw [foldComponents_cons_names first hps hnames, foldComponents_cons_names first hqs hrest] at h
      exact h.of_cons
    | succ others => exact absurd (hup.mpr (by simp [List.replicate_succ])) (by simp [hparent hnames])
  | succ steps =>
    cases others with
    | zero => exact absurd (hup.mp (by simp [List.replicate_succ])) (by simp [hparent hrest])
    | succ others =>
      rw [List.replicate_succ, List.cons_append] at hps hqs ⊢
      rw [foldComponents_cons_steps first hps hnames, foldComponents_cons_steps first hqs hrest] at h
      rw [List.replicate_succ, List.cons_append]
      exact h.cons .parent

theorem modulePath_join_beq (root : Path) (hp : p.components = .name first :: ps)
    (hq : q.components = .name first :: qs)
    (hup : .parent ∈ foldComponents false ps ↔ .parent ∈ foldComponents false qs)
    (hpname : p.NamesModule) (hqname : q.NamesModule) (h : (modulePath p == modulePath q) = true) :
    (modulePath (root.join p.afterFirst) == modulePath (root.join q.afterFirst)) = true := by
  obtain ⟨hpabs, hpc⟩ := components_join_afterFirst root hp
  obtain ⟨hqabs, hqc⟩ := components_join_afterFirst root hq
  have hwhole := endAlike_of_modulePath (Path.isAbsolute_of_name hp) (Path.isAbsolute_of_name hq)
    hpname hqname h
  rw [hp, hq] at hwhole
  have hrest := EndAlike.of_first hup hwhole
  -- after the root both go on as they fold alone
  have hjoined := hrest.foldl root.isAbsolute (root.components.foldl (foldComponent root.isAbsolute) [])
  rw [foldl_foldComponents, foldl_foldComponents, ← List.foldl_append, ← List.foldl_append] at hjoined
  refine modulePath_beq_of_endAlike (hpabs.trans hqabs.symm) ?_
  rw [hpabs, hqabs, hpc, hqc]
  exact hjoined

namespace Resolver

variable {r : Resolver}

/-- The root of the package that the first component of a relative path names. -/
def rootBefore? (r : Resolver) (p : Path) : Option Path :=
  if p.isAbsolute then none else p.components.head?.bind fun first => r.packageRoot? first.text

theorem rooted_of_rootBefore? (h : r.rootBefore? p = some root) :
    r.rooted p = root.join p.afterFirst := by
  rw [rootBefore?] at h
  split at h
  · cases h
  · next habs =>
    rw [rooted, if_neg habs]
    cases hc : p.components with
    | nil =>
      rw [hc] at h
      cases h
    | cons first rest =>
      rw [hc] at h
      have hroot : r.packageRoot? first.text = some root := h
      simp [hroot]

theorem rooted_of_rootBefore?_eq_none (h : r.rootBefore? p = none) : r.rooted p = p := by
  rw [rootBefore?] at h
  split at h
  · next habs => exact if_pos habs
  · next habs =>
    rw [rooted, if_neg habs]
    cases hc : p.components with
    | nil => rfl
    | cons first rest =>
      rw [hc] at h
      have hroot : r.packageRoot? first.text = none := h
      simp [hroot]

/-- Two paths start alike: no package comes before them, or they start with one name, and steps up
lead out of it again in both of them or in none. -/
inductive StartAlike (r : Resolver) (p q : Path) : Prop
  | plainly : r.rootBefore? p = none → r.rootBefore? q = none → StartAlike r p q
  | named {first : String} {ps qs : List Component} : p.components = .name first :: ps →
      q.components = .name first :: qs →
      (.parent ∈ foldComponents false ps ↔ .parent ∈ foldComponents false qs) →
      p.NamesModule → q.NamesModule → StartAlike r p q

theorem StartAlike.modulePath_rooted (hstart : r.StartAlike p q)
    (h : (modulePath p == modulePath q) = true) :
    (modulePath (r.rooted p) == modulePath (r.rooted q)) = true := by
  cases hstart with
  | plainly hp hq =>
    rw [rooted_of_rootBefore?_eq_none hp, rooted_of_rootBefore?_eq_none hq]
    exact h
  | @named first ps qs hp hq hup hpname hqname =>
    have hroots : ∀ {p : Path} {ps : List Component}, p.components = .name first :: ps →
        r.rootBefore? p = r.packageRoot? first := by
      intro p ps hp
      rw [rootBefore?, if_neg (by simp [Path.isAbsolute_of_name hp]), hp]
      rfl
    cases hroot : r.packageRoot? first with
    | none =>
      rw [rooted_of_rootBefore?_eq_none ((hroots hp).trans hroot),
        rooted_of_rootBefore?_eq_none ((hroots hq).trans hroot)]
      exact h
    | some root =>
      rw [rooted_of_rootBefore? ((hroots hp).trans hroot),
        rooted_of_rootBefore? ((hroots hq).trans hroot)]
      exact modulePath_join_beq root hp hq hup hpname hqname h

/-- Paths with one module path are resolved alike when they start alike, and a path below a package as
the absolute path that it stands for. -/
theorem resolve_spelling (h : (modulePath p == modulePath q) = true) (hstart : r.StartAlike p q)
    (expression : String) :
    (r.resolve p expression).Same (r.resolve q expression) ∧
      ((r.rooted p).isAbsolute = true →
        r.resolve (r.rooted p) expression = r.resolve p expression) := by
  refine ⟨resolveParts_congr (hstart.modulePath_rooted h) _ _, ?_⟩
  intro habs
  rw [resolve, rooted_of_isAbsolute habs, resolve]

/-- A graph of one package. -/
def onePackage : Resolver := empty.addPackage "pkg" (.ofString "/src/pkg")

/-- A file and its module, with a detour and a dot in their paths, are one module of the package. -/
theorem resolve_spelling_detour :
    let file := Path.ofString "pkg/lib/../ops.py"
    let module := Path.ofString "pkg/./ops"
    (modulePath file == modulePath module) = true ∧
      (onePackage.resolve file "f").Same (onePackage.resolve module "f") ∧
        onePackage.resolve (.ofString "/src/pkg/lib/../ops.py") "f" = onePackage.resolve file "f" := by
  intro file module
  have hsame : (modulePath file == modulePath module) = true := by decide +kernel
  have hfile : file.components = [.name "pkg", .name "lib", .parent, .name "ops.py"] := by
    decide +kernel
  have hmodule : module.components = [.name "pkg", .name "ops"] := by decide +kernel
  have hstart : onePackage.StartAlike file module :=
    .named hfile hmodule (by decide +kernel) ⟨by decide +kernel, by decide +kernel⟩
      ⟨by decide +kernel, by decide +kernel⟩
  have hrooted : onePackage.rooted file = .ofString "/src/pkg/lib/../ops.py" := by decide +kernel
  obtain ⟨hresolve, habsolute⟩ := resolve_spelling hsame hstart "f"
  rw [hrooted] at habsolute
  exact ⟨hsame, hresolve, habsolute (by decide +kernel)⟩

/-- Behind a leading dot the package is not found. -/
theorem resolve_spelling_leading_dot :
    let plain := Path.ofString "pkg/x"
    let dotted := Path.ofString "./pkg/x"
    (modulePath plain == modulePath dotted) = true ∧
      onePackage.resolve plain "f" = ⟨.ofString "/src/pkg/x", some "f"⟩ ∧
        onePackage.resolve dotted "f" = ⟨.ofString "pkg/x", some "f"⟩ ∧
          ¬(onePackage.resolve plain "f").Same (onePackage.resolve dotted "f") := by
  intro plain dotted
  have hplain : onePackage.resolve plain "f" = ⟨.ofString "/src/pkg/x", some "f"⟩ := by
    decide +kernel
  have hdotted : onePackage.resolve dotted "f" = ⟨.ofString "pkg/x", some "f"⟩ := by decide +kernel
  refine ⟨by decide +kernel, hplain, hdotted, ?_⟩
  intro hsame
  have hmodule := hsame.module
  rw [hplain, hdotted] at hmodule
  exact absurd hmodule (by decide +kernel)

end Resolver

end CrossIndex
