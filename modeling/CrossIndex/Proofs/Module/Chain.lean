import CrossIndex.Proofs.Module.Resolution

/-!
Where imports lead, with no cap on the steps. A name leads through any number of imports to the module
that it stands for, or to the place where no import binds it. Main statements: resolution follows the
way to its end when its steps suffice, it has come to the end of one when steps are left over, and
modules that are the same are resolved alike.
-/

namespace CrossIndex

/-- Two ways end at the same place, however its module is spelt. -/
structure Resolved.Same (a b : Resolved) : Prop where
  module : (a.module == b.module) = true
  name? : a.name? = b.name?

theorem Resolved.Same.refl (a : Resolved) : a.Same a := ⟨BEq.rfl, rfl⟩

theorem Resolved.Same.trans {a b c : Resolved} (h : a.Same b) (h' : b.Same c) : a.Same c :=
  ⟨BEq.trans h.module h'.module, h.name?.trans h'.name?⟩

namespace Resolver

/-- A name of a module leads to a place in so many steps. A name that was imported may be a module
below the one that it was imported from. -/
inductive Leads (r : Resolver) : Path → String → Bool → Nat → Resolved → Prop where
  | submodule {module name} : r.knows (module.joinText name) = true →
      Leads r module name true 1 ⟨module.joinText name, none⟩
  | here {module name imported} : (imported && r.knows (module.joinText name)) = false →
      r.binding? (r.redirect module) name = none →
      Leads r module name imported 1 ⟨r.redirect module, some name⟩
  | wholeModule {module name imported source} : (imported && r.knows (module.joinText name)) = false →
      r.binding? (r.redirect module) name = some ⟨source, none⟩ →
      Leads r module name imported 1 ⟨source, none⟩
  | onward {module name imported source other steps result} :
      (imported && r.knows (module.joinText name)) = false →
      r.binding? (r.redirect module) name = some ⟨source, some other⟩ →
      Leads r source other true steps result →
      Leads r module name imported (steps + 1) result

/-- The parts of a dotted expression lead to a place in so many steps. Only the attributes of modules
are followed. -/
inductive LeadsThrough (r : Resolver) : Path → List String → Nat → Resolved → Prop where
  | last {module name steps result} : r.Leads module name false steps result →
      LeadsThrough r module [name] steps result
  | inside {module inner name next more steps rest result} :
      r.Leads module name false steps ⟨inner, none⟩ →
      LeadsThrough r inner (next :: more) rest result →
      LeadsThrough r module (name :: next :: more) (steps + rest) result
  | beyond {module source name other next more steps} :
      r.Leads module name false steps ⟨source, some other⟩ →
      LeadsThrough r module (name :: next :: more) steps
        ⟨module, some (".".intercalate (name :: next :: more))⟩

variable {r : Resolver} {p q module : Path} {name : String} {parts : List String}
  {imported : Bool} {needed steps : Nat} {result : Resolved}

/-- Resolution comes to the end of a way for which its steps suffice. -/
theorem Leads.resolveName_eq (h : r.Leads module name imported needed result)
    (hsteps : needed ≤ steps) :
    r.resolveName module name imported steps = (result, steps - needed) := by
  induction h generalizing steps with
  | submodule hknows =>
    obtain ⟨left, rfl⟩ := Nat.exists_eq_add_of_le' hsteps
    exact resolveName_below hknows left
  | here hbelow hb =>
    obtain ⟨left, rfl⟩ := Nat.exists_eq_add_of_le' hsteps
    exact resolveName_unbound hbelow hb left
  | wholeModule hbelow hb =>
    obtain ⟨left, rfl⟩ := Nat.exists_eq_add_of_le' hsteps
    exact resolveName_module hbelow hb left
  | @onward _ _ _ _ _ rest _ hbelow hb _ ih =>
    obtain ⟨left, rfl⟩ := Nat.exists_eq_add_of_le' hsteps
    have hleft : left + (rest + 1) = (left + rest) + 1 := by omega
    rw [hleft, resolveName_import hbelow hb, ih (Nat.le_add_left rest left)]
    congr 1
    omega

/-- Resolution that has steps left over has come to the end of a way. -/
theorem exists_leads {left : Nat}
    (h : r.resolveName module name imported steps = (result, left + 1)) :
    ∃ needed, r.Leads module name imported needed result ∧ needed + (left + 1) = steps := by
  induction steps generalizing module name imported with
  | zero =>
    rw [resolveName] at h
    cases h
  | succ steps ih =>
    cases hbelow : imported && r.knows (module.joinText name) with
    | true =>
      obtain ⟨rfl, hknows⟩ := Bool.and_eq_true_iff.mp hbelow
      rw [resolveName_below hknows] at h
      cases h
      exact ⟨1, .submodule hknows, Nat.add_comm 1 _⟩
    | false =>
      rcases hb : r.binding? (r.redirect module) name with - | ⟨source, - | other⟩
      · rw [resolveName_unbound hbelow hb] at h
        cases h
        exact ⟨1, .here hbelow hb, Nat.add_comm 1 _⟩
      · rw [resolveName_module hbelow hb] at h
        cases h
        exact ⟨1, .wholeModule hbelow hb, Nat.add_comm 1 _⟩
      · rw [resolveName_import hbelow hb] at h
        obtain ⟨needed, hway, hsteps⟩ := ih h
        exact ⟨needed + 1, .onward hbelow hb hway, by omega⟩

theorem LeadsThrough.resolveParts_eq (h : r.LeadsThrough module parts needed result)
    (hsteps : needed ≤ steps) : r.resolveParts module parts steps = result := by
  induction h generalizing steps with
  | last hleads => rw [resolveParts, hleads.resolveName_eq hsteps]
  | inside hleads _ ih =>
    rw [resolveParts, hleads.resolveName_eq (by omega)]
    exact ih (by omega)
  | beyond hleads => rw [resolveParts, hleads.resolveName_eq hsteps]

/-- The first step over a name asks only for the module that the one it starts from is led on to. -/
theorem resolveName_of_redirect (h : (r.redirect p == r.redirect q) = true) (name : String)
    (steps : Nat) :
    (r.resolveName p name false (steps + 1)).1.Same (r.resolveName q name false (steps + 1)).1 ∧
      (r.resolveName p name false (steps + 1)).2 = (r.resolveName q name false (steps + 1)).2 := by
  have hbinding : r.binding? (r.redirect p) name = r.binding? (r.redirect q) name :=
    binding?_congr h name
  -- after the first step both go on from one and the same module
  rcases hb : r.binding? (r.redirect q) name with - | ⟨source, - | other⟩
  · rw [resolveName_unbound (Bool.false_and _) (hbinding.trans hb),
      resolveName_unbound (Bool.false_and _) hb]
    exact ⟨⟨h, rfl⟩, rfl⟩
  · rw [resolveName_module (Bool.false_and _) (hbinding.trans hb),
      resolveName_module (Bool.false_and _) hb]
    exact ⟨.refl _, rfl⟩
  · rw [resolveName_import (Bool.false_and _) (hbinding.trans hb),
      resolveName_import (Bool.false_and _) hb]
    exact ⟨.refl _, rfl⟩

/-- Resolution asks for a module only up to its spelling. -/
theorem resolveName_congr (h : (p == q) = true) (name : String) (steps : Nat) :
    (r.resolveName p name false steps).1.Same (r.resolveName q name false steps).1 ∧
      (r.resolveName p name false steps).2 = (r.resolveName q name false steps).2 := by
  cases steps with
  | zero => exact ⟨⟨h, rfl⟩, rfl⟩
  | succ steps => exact resolveName_of_redirect (redirect_congr h) name steps

theorem resolveParts_congr (h : (p == q) = true) (parts : List String) (steps : Nat) :
    (r.resolveParts p parts steps).Same (r.resolveParts q parts steps) := by
  induction parts generalizing p q steps with
  | nil => exact ⟨h, rfl⟩
  | cons name more ih =>
    obtain ⟨hsame, hleft⟩ := resolveName_congr (r := r) h name steps
    cases more with
    | nil =>
      rw [resolveParts, resolveParts]
      exact hsame
    | cons next more =>
      rw [resolveParts, resolveParts]
      rcases hp : r.resolveName p name false steps with ⟨⟨a, - | other⟩, left⟩
      · rcases hq : r.resolveName q name false steps with ⟨⟨b, other?⟩, left'⟩
        rw [hp, hq] at hsame hleft
        obtain ⟨hmodule, hname⟩ := hsame
        cases hname
        cases hleft
        exact ih hmodule left
      · rcases hq : r.resolveName q name false steps with ⟨⟨b, other?⟩, left'⟩
        rw [hp, hq] at hsame
        cases hsame.name?
        exact ⟨h, rfl⟩

end Resolver

end CrossIndex
