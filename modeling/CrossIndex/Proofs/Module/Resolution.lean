import CrossIndex.Proofs.Module.Graph

/-!
Resolution step by step. A step over a name stops at a module below, at the module that the name is
bound to, or where it is not bound, and goes on to another name otherwise. Main statements: a name
that an import binds leads to the name that it was imported as, and an attribute of an imported module
to the name in that module.
-/

namespace CrossIndex.Resolver

variable {r : Resolver} {p module source : Path} {name other : String} {imported : Bool} {steps : Nat}

theorem resolveName_below (h : r.knows (module.joinText name) = true) (steps : Nat) :
    r.resolveName module name true (steps + 1) = (⟨module.joinText name, none⟩, steps) := by
  rw [resolveName, Bool.true_and]
  exact if_pos h

theorem resolveName_unbound (h : (imported && r.knows (module.joinText name)) = false)
    (hb : r.binding? (r.redirect module) name = none) (steps : Nat) :
    r.resolveName module name imported (steps + 1) = (⟨r.redirect module, some name⟩, steps) := by
  rw [resolveName, h]
  simp [hb]

theorem resolveName_module (h : (imported && r.knows (module.joinText name)) = false)
    (hb : r.binding? (r.redirect module) name = some ⟨source, none⟩) (steps : Nat) :
    r.resolveName module name imported (steps + 1) = (⟨source, none⟩, steps) := by
  rw [resolveName, h]
  simp [hb]

theorem resolveName_import (h : (imported && r.knows (module.joinText name)) = false)
    (hb : r.binding? (r.redirect module) name = some ⟨source, some other⟩) (steps : Nat) :
    r.resolveName module name imported (steps + 1) = r.resolveName source other true steps := by
  rw [resolveName, h]
  simp [hb]

theorem rooted_of_isAbsolute (h : p.isAbsolute = true) : r.rooted p = p := if_pos h

/-- A plain path leads to the module that it stands for. -/
theorem redirect_beq_canonicalModule (h : p.IsPlain) :
    (r.redirect p == r.canonicalModule p) = true :=
  redirect_congr (BEq.symm h.modulePath_beq)

/-- A plain path that stands for a recorded module is known. -/
theorem knows_of_canonicalModule (h : p.IsPlain)
    (hm : r.bindings.contains module = true) (hc : (r.canonicalModule p == module) = true) :
    r.knows p = true := by
  rw [← knows_congr h.modulePath_beq, knows, Bool.or_eq_true]
  rw [canonicalModule, redirect] at hc
  -- the path is known through its `__init__` module or is the recorded module itself
  cases hinit : r.inits.get? (modulePath p) with
  | some init => exact Or.inr (by rw [SortedTable.contains, hinit]; rfl)
  | none =>
    rw [hinit] at hc
    have hsame : r.bindings.contains (modulePath p) = r.bindings.contains module :=
      SortedTable.contains_congr (Path.compare_eq_iff.mpr hc) _
    exact Or.inl (hsame.trans hm)

variable {bound : String}

theorem resolve_of_not_mem (habs : p.isAbsolute = true) (hbound : '.' ∉ bound.toList) :
    r.resolve p bound = (r.resolveName (modulePath p) bound false maxSteps).1 := by
  rw [resolve, rooted_of_isAbsolute habs, Text.pieces_of_not_mem hbound, resolveParts]

/-- An attribute of a name that denotes a module is looked for in that module. -/
theorem resolve_attribute (habs : p.isAbsolute = true) (hbound : '.' ∉ bound.toList)
    (hname : '.' ∉ name.toList)
    (h : r.resolveName (modulePath p) bound false maxSteps = (⟨module, none⟩, steps)) :
    r.resolve p (bound ++ "." ++ name) = (r.resolveName module name false steps).1 := by
  have hpieces : Text.pieces '.' (bound ++ "." ++ name) = [bound, name] := by
    have happend := Text.pieces_append hbound name
    rwa [Text.pieces_of_not_mem hname] at happend
  rw [resolve, rooted_of_isAbsolute habs, hpieces, resolveParts, h]
  simp only [resolveParts]

/-- A name that was imported from a module and is not bound there stands for that name. -/
theorem resolve_imported_name (habs : p.isAbsolute = true) (hbound : '.' ∉ bound.toList)
    (hb : r.binding? (r.canonicalModule p) bound = some ⟨source, some name⟩)
    (hknows : r.knows (source.joinText name) = false)
    (hfree : r.binding? (r.redirect source) name = none) :
    r.resolve p bound = ⟨r.redirect source, some name⟩ := by
  rw [resolve_of_not_mem habs hbound, maxSteps, resolveName_import (Bool.false_and _) hb,
    resolveName_unbound (by rw [hknows, Bool.and_false]) hfree]

/-- An attribute of an imported module is a name of that module. -/
theorem resolve_imported_submodule (habs : p.isAbsolute = true) (hbound : '.' ∉ bound.toList)
    (hname : '.' ∉ name.toList)
    (hb : r.binding? (r.canonicalModule p) bound = some ⟨source, some other⟩)
    (hknows : r.knows (source.joinText other) = true)
    (hfree : r.binding? (r.redirect (source.joinText other)) name = none) :
    r.resolve p (bound ++ "." ++ name) = ⟨r.redirect (source.joinText other), some name⟩ := by
  -- one step for the bound name and one for the module below, of ten
  have hwalk : r.resolveName (modulePath p) bound false maxSteps =
      (⟨source.joinText other, none⟩, 8) := by
    rw [maxSteps, resolveName_import (Bool.false_and _) hb, resolveName_below hknows]
  rw [resolve_attribute habs hbound hname hwalk, resolveName_unbound (Bool.false_and _) hfree]

/-- An attribute of a module that was imported plainly is a name of that module. -/
theorem resolve_imported_module (habs : p.isAbsolute = true) (hbound : '.' ∉ bound.toList)
    (hname : '.' ∉ name.toList)
    (hb : r.binding? (r.canonicalModule p) bound = some ⟨source, none⟩)
    (hfree : r.binding? (r.redirect source) name = none) :
    r.resolve p (bound ++ "." ++ name) = ⟨r.redirect source, some name⟩ := by
  have hwalk : r.resolveName (modulePath p) bound false maxSteps = (⟨source, none⟩, 9) := by
    rw [maxSteps, resolveName_module (Bool.false_and _) hb]
  rw [resolve_attribute habs hbound hname hwalk, resolveName_unbound (Bool.false_and _) hfree]

end CrossIndex.Resolver
