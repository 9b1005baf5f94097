import CrossIndex.Proofs.Module.Folding
import Mathlib.Data.List.Induction

/-!
Module paths as normal forms. A path is normal when folding changes nothing in it. Main statement: a
module path is normal unless the cut of `.py` leaves dots of a name, and a normal module path is its own
module path unless its last name ends in `.py` once more.
-/

namespace CrossIndex

/-! ### Normal paths -/

/-- Steps up that only steps up come before are kept, and so are all names. -/
theorem foldComponents_eq_self {rooted : Bool} {components : List Component}
    (hroot : .root ∉ components) (hcurrent : .current ∉ components)
    (hparent : rooted = true → .parent ∉ components)
    (hleading : components.Pairwise fun before c => c = .parent → before = .parent) :
    foldComponents rooted components = components := by
  induction components using List.reverseRecOn with
  | nil => rfl
  | append_singleton init c ih =>
    simp only [List.mem_append, List.mem_singleton, not_or] at hroot hcurrent hparent
    obtain ⟨hinit, -, hlast⟩ := List.pairwise_append.mp hleading
    rw [foldComponents_concat, ih hroot.1 hcurrent.1 (fun hr => (hparent hr).1) hinit]
    cases c with
    | root => exact absurd rfl hroot.2
    | current => exact absurd rfl hcurrent.2
    | name text => rw [foldComponent, List.reverse_cons, List.reverse_reverse]
    | parent =>
      cases rooted with
      | true => exact absurd rfl (hparent rfl).2
      | false =>
        -- all that comes before is steps up, which the new one does not take back
        have hsteps : init = List.replicate init.length .parent :=
          List.eq_replicate_of_mem fun before hb => hlast before hb _ List.mem_cons_self rfl
        rw [hsteps, List.reverse_replicate, foldComponent_steps, List.reverse_replicate,
          List.replicate_succ']

namespace Path

variable {p q : Path}

/-- No `.` is left in the path, and `..` only at the start of a relative path. -/
structure IsNormal (p : Path) : Prop where
  current : .current ∉ p.components
  absolute : p.isAbsolute = true → .parent ∉ p.components
  leading : p.components.Pairwise fun before c => c = .parent → before = .parent

theorem isNormal_iff_leading : p.IsNormal ↔ .current ∉ p.components ∧
    p.components.Pairwise fun before c => c = .parent → before = .parent := by
  refine ⟨fun h => ⟨h.current, h.leading⟩, ?_⟩
  rintro ⟨hcurrent, hleading⟩
  refine ⟨hcurrent, ?_, hleading⟩
  -- the root comes first, and no step up can stand behind it
  intro habs hparent
  obtain ⟨tail, -, -, hc⟩ := exists_tail_of_isAbsolute habs
  rw [hc] at hparent hleading
  rcases List.mem_cons.mp hparent with hroot | hmem
  · cases hroot
  · cases (List.pairwise_cons.mp hleading).1 _ hmem rfl

theorem IsNormal.congr (h : p.IsNormal) (hpq : (p == q) = true) : q.IsNormal := by
  rw [isNormal_iff_leading, ← (beq_iff p q).mp hpq]
  exact isNormal_iff_leading.mp h

theorem folded_sublist (p : Path) : p.folded.components.Sublist p.components := by
  rw [components_folded_eq]
  cases habs : p.isAbsolute with
  | false => exact foldComponents_sublist false p.components
  | true =>
    obtain ⟨tail, -, -, hc⟩ := exists_tail_of_isAbsolute habs
    rw [hc]
    exact (foldComponents_sublist true (tail.filterMap bodyComponent?)).cons_cons .root

theorem isNormal_folded (p : Path) : p.folded.IsNormal := by
  have hnames : ∀ {names : List Component}, (∀ c ∈ names, ∃ text, c = .name text) →
      .current ∉ names ∧ ∀ c ∈ names, c ≠ .parent := by
    intro names hall
    refine ⟨?_, ?_⟩
    · intro hmem
      obtain ⟨text, htext⟩ := hall _ hmem
      cases htext
    · rintro c hmem rfl
      obtain ⟨text, htext⟩ := hall _ hmem
      cases htext
  cases habs : p.isAbsolute with
  | true =>
    have hall : ∀ c ∈ foldComponents true p.components, ∃ text, c = .name text := by
      intro c hmem
      obtain ⟨hr, -⟩ | hname := isFolded_of_mem_foldComponents c hmem
      · cases hr
      · exact hname
    obtain ⟨hcurrent, hparent⟩ := hnames hall
    refine isNormal_iff_leading.mpr ⟨?_, ?_⟩
    · rw [(components_folded habs).2]
      simpa using hcurrent
    · rw [(components_folded habs).2, List.pairwise_cons]
      refine ⟨fun c hc hp => absurd hp (hparent c hc), ?_⟩
      exact List.pairwise_of_forall_mem_list fun before _ c hc hp => absurd hp (hparent c hc)
  | false =>
    obtain ⟨steps, names, hsplit, hall⟩ := exists_steps_names p.components
    obtain ⟨hcurrent, hparent⟩ := hnames hall
    refine isNormal_iff_leading.mpr ⟨?_, ?_⟩
    · rw [components_folded_relative habs, hsplit]
      simp [hcurrent]
    · rw [components_folded_relative habs, hsplit, List.pairwise_append]
      refine ⟨List.pairwise_replicate.mpr (Or.inr fun _ => rfl), ?_, ?_⟩
      · exact List.pairwise_of_forall_mem_list fun before _ c hc hp => absurd hp (hparent c hc)
      · exact fun before hb _ _ _ => List.eq_of_mem_replicate hb

/-- The normal paths are those that folding leaves as they are. -/
theorem isNormal_iff_folded : p.IsNormal ↔ (p.folded == p) = true := by
  refine ⟨?_, p.isNormal_folded.congr⟩
  intro h
  rw [beq_iff, components_folded_eq]
  cases habs : p.isAbsolute with
  | false =>
    have hroot : .root ∉ p.components := by simp [root_mem_components, habs]
    exact foldComponents_eq_self hroot h.current (fun hr => absurd hr (by simp)) h.leading
  | true =>
    obtain ⟨tail, -, -, hc⟩ := exists_tail_of_isAbsolute habs
    have hcurrent := h.current
    have hparent := h.absolute habs
    have hleading := h.leading
    rw [hc] at hcurrent hparent hleading ⊢
    -- the root folds to nothing, and what follows it is kept
    refine congrArg (Component.root :: ·)
      (foldComponents_eq_self (root_not_mem_filterMap tail) ?_ ?_ ?_)
    · exact fun hmem => hcurrent (List.mem_cons_of_mem _ hmem)
    · exact fun _ hmem => hparent (List.mem_cons_of_mem _ hmem)
    · exact (List.pairwise_cons.mp hleading).2

theorem extension?_congr (h : (p == q) = true) : p.extension? = q.extension? := by
  rw [extension?, extension?, fileName?, fileName?, (beq_iff p q).mp h]

/-- Without `.py` the folded path is a dot, or ends in two dots that come after something else than
steps up. -/
def LeavesDots (p : Path) : Prop :=
  p.folded.components = [.name "..py"] ∨
    ∃ init, p.folded.components = init ++ [.name "...py"] ∧ ∃ c ∈ init, c ≠ .parent

theorem LeavesDots.extension? (h : p.LeavesDots) : p.folded.extension? = some "py" := by
  rcases h with hdot | ⟨init, hdots, -⟩
  · have hconcat : p.folded.components = [] ++ [.name "..py"] := hdot
    rw [extension?_of_components hconcat]
    decide
  · rw [extension?_of_components hdots]
    decide

variable {init : List Component} {stem : String}

theorem leavesDots_iff (hc : p.folded.components = init ++ [.name (stem ++ ".py")])
    (hplace : stem ≠ "." ∨ init ≠ []) : p.LeavesDots ↔ stem = ".." ∧ ∃ c ∈ init, c ≠ .parent := by
  have hcancel : ∀ {dots : String},
      [Component.name (stem ++ ".py")] = [.name (dots ++ ".py")] → stem = dots := by
    intro dots h
    exact (String.append_left_inj ".py").mp (Component.name.inj (List.cons.inj h).1)
  rw [LeavesDots, hc]
  constructor
  · rintro (hdot | ⟨others, hdots, hmem⟩)
    · have hconcat : init ++ [.name (stem ++ ".py")] = [] ++ [Component.name "..py"] := hdot
      obtain ⟨hinit, hlast⟩ := List.append_inj' hconcat rfl
      have hstem : stem = "." := hcancel hlast
      exact absurd hinit (hplace.resolve_left (not_not_intro hstem))
    · obtain ⟨rfl, hlast⟩ := List.append_inj' hdots rfl
      exact ⟨hcancel hlast, hmem⟩
  · rintro ⟨rfl, hmem⟩
    exact Or.inr ⟨init, rfl, hmem⟩

/-- What the cut leaves of a name is another component, if it is one. -/
theorem bodyComponent?_ne_append (stem : String) :
    bodyComponent? stem ≠ some (.name (stem ++ ".py")) := by
  intro h
  obtain ⟨-, hup⟩ | ⟨-, hname⟩ := bodyComponent?_cases h
  · cases hup
  · have hlength := congrArg String.length (Component.name.inj hname)
    have hpy : ".py".length = 3 := rfl
    rw [String.length_append] at hlength
    omega

end Path

variable {p : Path}

theorem modulePath_of_dot (h : p.folded.components = [.name "..py"]) :
    (modulePath p).components = [.current] := by
  have habs : p.isAbsolute = false :=
    p.isAbsolute_folded.symm.trans (Path.isAbsolute_of_name h)
  have hfolded : p.folded = .ofParts [] ["..py"] := by
    rw [Path.components_folded_relative habs] at h
    rw [Path.folded, habs, h]
    rfl
  rw [modulePath, hfolded]
  decide

/-- A module path is the folded path, a lone dot, or the folded path with what the cut leaves of its
last name. -/
theorem modulePath_cases (p : Path) :
    (p.folded.extension? ≠ some "py" ∧ modulePath p = p.folded) ∨
      (p.folded.components = [.name "..py"] ∧ (modulePath p).components = [.current]) ∨
        ∃ init stem, p.folded.components = init ++ [.name (stem ++ ".py")] ∧
          (stem ≠ "." ∨ init ≠ []) ∧
            (modulePath p).components = init ++ (Path.bodyComponent? stem).toList := by
  by_cases hpy : p.folded.extension? = some "py"
  · obtain ⟨init, name, stem, hc, hcut⟩ := Path.exists_of_extension? hpy
    have hname := eq_append_of_python hcut
    by_cases hplace : String.ofList stem ≠ "." ∨ init ≠ []
    · exact Or.inr (Or.inr ⟨init, String.ofList stem, hname ▸ hc, hplace,
        components_modulePath_of_python hc hcut hplace⟩)
    · obtain ⟨hstem, hinit⟩ := not_or.mp hplace
      have hdot : p.folded.components = [.name "..py"] := by
        rw [hc, hname, not_not.mp hstem, not_not.mp hinit]
        rfl
      exact Or.inr (Or.inl ⟨hdot, modulePath_of_dot hdot⟩)
  · exact Or.inl ⟨hpy, if_neg hpy⟩

theorem isNormal_modulePath_iff (p : Path) : (modulePath p).IsNormal ↔ ¬p.LeavesDots := by
  obtain ⟨hext, hm⟩ | ⟨hdot, hm⟩ | ⟨init, stem, hc, hplace, hm⟩ := modulePath_cases p
  · rw [hm]
    exact iff_of_true p.isNormal_folded fun h => hext h.extension?
  · refine iff_of_false ?_ (not_not_intro (Or.inl hdot))
    intro h
    exact h.current (hm ▸ List.mem_singleton_self _)
  · have hfolded := Path.isNormal_iff_leading.mp p.isNormal_folded
    rw [hc, List.mem_append, List.pairwise_append, not_or] at hfolded
    obtain ⟨⟨hcurrent, -⟩, hleading, -, -⟩ := hfolded
    rw [Path.leavesDots_iff hc hplace, Path.isNormal_iff_leading, hm]
    cases hlast : Path.bodyComponent? stem with
    | none =>
      have hstem : stem ≠ ".." := by
        rintro rfl
        cases hlast
      simp [hcurrent, hleading, hstem]
    | some last =>
      obtain ⟨rfl, rfl⟩ | ⟨hname, rfl⟩ := Path.bodyComponent?_cases hlast
      · -- two dots are a step up, which only steps up may come before
        simp [List.pairwise_append, hcurrent, hleading]
      · simp [List.pairwise_append, hcurrent, hleading, hname.2.2]

/-- The module path of a path is that path just when folding changes nothing and no `.py` is there to
cut off. -/
theorem modulePath_beq_self_iff (p : Path) :
    (modulePath p == p) = true ↔ p.IsNormal ∧ p.extension? ≠ some "py" := by
  constructor
  · intro h
    have hsame := (Path.beq_iff _ _).mp h
    have hsub := p.folded_sublist
    rw [← hsame] at hsub
    obtain ⟨hext, hm⟩ | ⟨hdot, hm⟩ | ⟨init, stem, hc, hplace, hm⟩ := modulePath_cases p
    · rw [hm] at h
      exact ⟨Path.isNormal_iff_folded.mpr h, Path.extension?_congr h ▸ hext⟩
    · rw [hdot, hm] at hsub
      cases hsub.eq_of_length rfl
    · -- no more components are left than folding leaves, so that the two lists would be the same
      rw [hc, hm] at hsub
      have hlast := List.append_cancel_left (hsub.eq_of_length_le (by simp [Option.length_toList_le]))
      exact absurd (Option.toList_eq_singleton_iff.mp hlast.symm) (Path.bodyComponent?_ne_append stem)
  · rintro ⟨hnormal, hext⟩
    have hfolded := Path.isNormal_iff_folded.mp hnormal
    rw [modulePath, if_neg (Path.extension?_congr hfolded ▸ hext)]
    exact hfolded

/-- A module path is normal just when the cut of `.py` leaves no dots, and then it is its own module
path just when its last name does not end in `.py` once more. -/
theorem modulePath_normal_iff (p : Path) :
    ((modulePath p).IsNormal ↔ ¬p.LeavesDots) ∧
      ((modulePath (modulePath p) == modulePath p) = true ↔
        ¬p.LeavesDots ∧ (modulePath p).extension? ≠ some "py") := by
  have hnormal := isNormal_modulePath_iff p
  refine ⟨hnormal, ?_⟩
  rw [modulePath_beq_self_iff, hnormal]

/-- The cut leaves a step up below the root, a dot, and a name that can be cut again. -/
theorem modulePath_not_normal :
    let above := Path.ofString "/a/...py"
    let dot := Path.ofString "..py"
    let twice := Path.ofString "a.py.py"
    ¬(modulePath above).IsNormal ∧ modulePath above = .ofString "/a/.." ∧
      modulePath (modulePath above) = .ofString "/" ∧
        (modulePath dot).components = [.current] ∧ modulePath twice = .ofString "a.py" ∧
          modulePath (modulePath twice) = .ofString "a" ∧
            (modulePath (modulePath twice) == modulePath twice) = false := by
  intro above dot twice
  have hup : modulePath above = .ofString "/a/.." := by decide +kernel
  refine ⟨?_, hup, by decide +kernel, by decide +kernel, by decide +kernel, by decide +kernel,
    by decide +kernel⟩
  intro hnormal
  rw [hup] at hnormal
  exact hnormal.absolute (by decide +kernel) (by decide +kernel)

end CrossIndex
