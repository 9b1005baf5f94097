import CrossIndex.Proofs.Module.Stability

/-!
The cap on the steps of resolution. The steps are shared by all parts of an expression, and each looks
up one name of one module at most. Main statement: resolution makes no more look-ups than the cap allows,
follows a name to the end of its way when the cap suffices, and else stops at the name that the
last import within the cap has led to.
-/

namespace CrossIndex.Resolver

section Lookups

variable {m : Type → Type} [Monad m]

/-- Follows a name as resolution does, where `look` looks up what a name denotes in a module. -/
def resolveNameBy (r : Resolver) (look : Path → String → m (Option ImportTarget)) (module : Path)
    (name : String) (imported : Bool) : (steps : Nat) → m (Resolved × Nat)
  | 0 => pure (⟨module, some name⟩, 0)
  | steps + 1 =>
    if imported && r.knows (module.joinText name) then
      pure (⟨module.joinText name, none⟩, steps)
    else do
      match ← look (r.redirect module) name with
      | none => pure (⟨r.redirect module, some name⟩, steps)
      | some ⟨source, none⟩ => pure (⟨source, none⟩, steps)
      | some ⟨source, some other⟩ => r.resolveNameBy look source other true steps

def resolvePartsBy (r : Resolver) (look : Path → String → m (Option ImportTarget))
    (module : Path) : (parts : List String) → (steps : Nat) → m Resolved
  | [], _ => pure ⟨module, none⟩
  | [name], steps => do return (← r.resolveNameBy look module name false steps).1
  | name :: next :: more, steps => do
    match ← r.resolveNameBy look module name false steps with
    | (⟨inner, none⟩, steps) => r.resolvePartsBy look inner (next :: more) steps
    | (⟨_, some _⟩, _) => pure ⟨module, some (".".intercalate (name :: next :: more))⟩

/-- Resolves an expression, with all look-ups in the import tables made by `look`. -/
def resolveBy (r : Resolver) (look : Path → String → m (Option ImportTarget)) (path : Path)
    (expression : String) : m Resolved :=
  r.resolvePartsBy look (modulePath (r.rooted path)) (Text.pieces '.' expression) maxSteps

end Lookups

/-- Looks up a name of a module, and notes that it does. -/
def noting (r : Resolver) (module : Path) (name : String) :
    StateM (List (Path × String)) (Option ImportTarget) := do
  modify ((module, name) :: ·)
  return r.binding? module name

variable {r : Resolver} {module target : Path} {name last : String} {imported : Bool} {steps : Nat}

/-- Every step notes one look-up at most, so that the look-ups and the steps that are left are no more
than the steps given. -/
theorem exists_run_resolveNameBy (r : Resolver) (module : Path) (name : String) (imported : Bool)
    (steps : Nat) (noted : List (Path × String)) :
    ∃ lookups, (r.resolveNameBy r.noting module name imported steps).run noted =
        (r.resolveName module name imported steps, lookups ++ noted) ∧
      lookups.length + (r.resolveName module name imported steps).2 ≤ steps := by
  induction steps generalizing module name imported noted with
  | zero => exact ⟨[], rfl, Nat.le_refl 0⟩
  | succ steps ih =>
    cases hbelow : imported && r.knows (module.joinText name) with
    | true =>
      obtain ⟨rfl, hknows⟩ := Bool.and_eq_true_iff.mp hbelow
      rw [resolveName_below hknows, resolveNameBy, if_pos hbelow]
      refine ⟨[], rfl, ?_⟩
      simp
    | false =>
      -- this step notes its look-up, and the steps behind an import note theirs after it
      have hlook : (r.resolveNameBy r.noting module name imported (steps + 1)).run noted =
          (match r.binding? (r.redirect module) name with
            | none => pure (⟨r.redirect module, some name⟩, steps)
            | some ⟨source, none⟩ => pure (⟨source, none⟩, steps)
            | some ⟨source, some other⟩ => r.resolveNameBy r.noting source other true steps
            : StateM _ _).run ((r.redirect module, name) :: noted) := by
        rw [resolveNameBy, hbelow]
        rfl
      rcases hb : r.binding? (r.redirect module) name with - | ⟨source, - | other⟩
      · rw [hlook, hb, resolveName_unbound hbelow hb]
        exact ⟨[_], rfl, by simp [Nat.add_comm]⟩
      · rw [hlook, hb, resolveName_module hbelow hb]
        exact ⟨[_], rfl, by simp [Nat.add_comm]⟩
      · obtain ⟨lookups, hrun, hlength⟩ := ih source other true ((r.redirect module, name) :: noted)
        rw [hlook, hb, resolveName_import hbelow hb]
        refine ⟨lookups ++ [(r.redirect module, name)], ?_, ?_⟩
        · rw [List.append_assoc]
          exact hrun
        · rw [List.length_append, List.length_singleton]
          omega

theorem exists_run_resolvePartsBy (r : Resolver) (module : Path) (parts : List String) (steps : Nat)
    (noted : List (Path × String)) :
    ∃ lookups, (r.resolvePartsBy r.noting module parts steps).run noted =
        (r.resolveParts module parts steps, lookups ++ noted) ∧ lookups.length ≤ steps := by
  induction parts generalizing module steps noted with
  | nil => exact ⟨[], rfl, Nat.zero_le steps⟩
  | cons name more ih =>
    obtain ⟨lookups, hrun, hlength⟩ := exists_run_resolveNameBy r module name false steps noted
    cases more with
    | nil =>
      refine ⟨lookups, ?_, Nat.le_of_add_right_le hlength⟩
      rw [resolvePartsBy, resolveParts, StateT.run_bind, hrun]
      rfl
    | cons next more =>
      rcases hname : r.resolveName module name false steps with ⟨⟨inner, - | other⟩, left⟩
      · -- the parts that follow have the steps that the first one has left
        rw [hname] at hrun hlength
        obtain ⟨later, hrun', hlength'⟩ := ih inner left (lookups ++ noted)
        refine ⟨later ++ lookups, ?_, ?_⟩
        · rw [resolvePartsBy, resolveParts, hname, StateT.run_bind, hrun, List.append_assoc]
          exact hrun'
        · rw [List.length_append]
          omega
      · rw [hname] at hrun
        refine ⟨lookups, ?_, Nat.le_of_add_right_le hlength⟩
        rw [resolvePartsBy, resolveParts, hname, StateT.run_bind, hrun]
        rfl

/-! ### The way of a name -/

/-- The first so many steps over a name all meet imports, the last of which leads to the name `last` of
the module `target`. -/
inductive Passes (r : Resolver) : Path → String → Bool → Nat → Path → String → Prop where
  | start {module : Path} {name : String} {imported : Bool} :
      Passes r module name imported 0 module name
  | onward {module source target : Path} {name other last : String} {imported : Bool} {steps : Nat} :
      (imported && r.knows (module.joinText name)) = false →
      r.binding? (r.redirect module) name = some ⟨source, some other⟩ →
      Passes r source other true steps target last →
      Passes r module name imported (steps + 1) target last

theorem Passes.resolveName_eq (h : r.Passes module name imported steps target last) :
    r.resolveName module name imported steps = (⟨target, some last⟩, 0) := by
  induction h with
  | start => rw [resolveName]
  | onward hbelow hb _ ih => rw [resolveName_import hbelow hb, ih]

theorem exists_leads_or_passes (r : Resolver) (module : Path) (name : String) (imported : Bool)
    (steps : Nat) :
    (∃ needed result, needed ≤ steps ∧ r.Leads module name imported needed result) ∨
      ∃ target last, r.Passes module name imported steps target last := by
  induction steps generalizing module name imported with
  | zero => exact Or.inr ⟨module, name, .start⟩
  | succ steps ih =>
    have hone : 1 ≤ steps + 1 := Nat.le_add_left 1 steps
    cases hbelow : imported && r.knows (module.joinText name) with
    | true =>
      obtain ⟨rfl, hknows⟩ := Bool.and_eq_true_iff.mp hbelow
      exact Or.inl ⟨1, _, hone, .submodule hknows⟩
    | false =>
      rcases hb : r.binding? (r.redirect module) name with - | ⟨source, - | other⟩
      · exact Or.inl ⟨1, _, hone, .here hbelow hb⟩
      · exact Or.inl ⟨1, _, hone, .wholeModule hbelow hb⟩
      · rcases ih source other true with ⟨needed, result, hle, hleads⟩ | ⟨target, last, hpasses⟩
        · exact Or.inl ⟨needed + 1, result, Nat.succ_le_succ hle, .onward hbelow hb hleads⟩
        · exact Or.inr ⟨target, last, .onward hbelow hb hpasses⟩

/-- Resolution makes no more look-ups in the import tables than the cap. A name without dots leads to the
end of its way when that comes within the cap, and otherwise to the name that the import met in the last
step of the cap stands for, with its module as the import names it. -/
theorem resolve_within_cap (r : Resolver) (path : Path) (expression : String) :
    (∃ lookups, (r.resolveBy r.noting path expression).run [] =
        (r.resolve path expression, lookups) ∧ lookups.length ≤ maxSteps) ∧
      ('.' ∉ expression.toList →
        (∀ needed result, needed ≤ maxSteps →
          r.Leads (modulePath (r.rooted path)) expression false needed result →
            r.resolve path expression = result) ∧
        ((∀ needed result, r.Leads (modulePath (r.rooted path)) expression false needed result →
            maxSteps < needed) →
          ∃ target last,
            r.Passes (modulePath (r.rooted path)) expression false maxSteps target last ∧
              r.resolve path expression = ⟨target, some last⟩)) := by
  constructor
  · obtain ⟨lookups, hrun, hlength⟩ := exists_run_resolvePartsBy r (modulePath (r.rooted path))
      (Text.pieces '.' expression) maxSteps []
    rw [List.append_nil] at hrun
    exact ⟨lookups, hrun, hlength⟩
  · intro hdot
    have hresolve : r.resolve path expression =
        (r.resolveName (modulePath (r.rooted path)) expression false maxSteps).1 := by
      rw [resolve, Text.pieces_of_not_mem hdot, resolveParts]
    constructor
    · intro needed result hle hleads
      rw [hresolve, hleads.resolveName_eq hle]
    · intro hlong
      rcases exists_leads_or_passes r (modulePath (r.rooted path)) expression false maxSteps with
        ⟨needed, result, hle, hleads⟩ | ⟨target, last, hpasses⟩
      · exact absurd hle (Nat.not_le_of_lt (hlong needed result hleads))
      · exact ⟨target, last, hpasses, by rw [hresolve, hpasses.resolveName_eq]⟩

/-- A package and a module in it that each have a name from the other one. -/
def importCycle : List Change :=
  [.document (.ofString "/src/pkg/__init__.py") ["from .m import x"],
    .document (.ofString "/src/pkg/m.py") ["from . import x"]]

/-- The name goes around until the cap, where the import in the module has led to the directory of the
package. -/
theorem resolve_within_cap_importCycle :
    let graph := ofChanges importCycle
    let package := Path.ofString "/src/pkg/__init__.py"
    (∀ needed result, graph.Leads (modulePath (graph.rooted package)) "x" false needed result →
        maxSteps < needed) ∧
      graph.resolve package "x" = ⟨.ofString "/src/pkg", some "x"⟩ ∧
        ∃ lookups, (graph.resolveBy graph.noting package "x").run [] =
          (⟨.ofString "/src/pkg", some "x"⟩, lookups) ∧ lookups.length ≤ maxSteps := by
  intro graph package
  have hten : graph.resolveName (modulePath (graph.rooted package)) "x" false maxSteps =
      (⟨.ofString "/src/pkg", some "x"⟩, 0) := by
    decide +kernel
  have heleven : graph.resolveName (modulePath (graph.rooted package)) "x" false (maxSteps + 1) =
      (⟨.ofString "/src/pkg/m", some "x"⟩, 0) := by
    decide +kernel
  have hlong : ∀ needed result,
      graph.Leads (modulePath (graph.rooted package)) "x" false needed result →
        maxSteps < needed := by
    -- the end of a way is the same for all numbers of steps that suffice
    intro needed result hleads
    refine Nat.lt_of_not_le fun hle => ?_
    have hshort := hten.symm.trans (hleads.resolveName_eq hle)
    have hlonger := heleven.symm.trans (hleads.resolveName_eq (Nat.le_succ_of_le hle))
    rw [Prod.mk.injEq] at hshort hlonger
    exact absurd (hshort.1.trans hlonger.1.symm) (by decide +kernel)
  obtain ⟨⟨lookups, hrun, hlength⟩, hname⟩ := resolve_within_cap graph package "x"
  obtain ⟨target, last, hpasses, hresolve⟩ := (hname (by decide)).2 hlong
  have hend := hten.symm.trans hpasses.resolveName_eq
  rw [Prod.mk.injEq] at hend
  have hresult : graph.resolve package "x" = ⟨.ofString "/src/pkg", some "x"⟩ :=
    hresolve.trans hend.1.symm
  rw [hresult] at hrun
  exact ⟨hlong, hresult, lookups, hrun, hlength⟩

end CrossIndex.Resolver
