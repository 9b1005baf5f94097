import CrossIndex.Proofs.Dialect.Cursor

/-!
Uses under a cursor. Two dialects look for other things under a cursor than in a scan: a scan of theirs
finds registrations in native sources, and a cursor the uses in a Python source. Main statement: a cursor
finds the first use of the whole file that it touches, and no registration.
-/

namespace CrossIndex

open CrossIndex.Fact

theorem Mxnet.cursorLocal_uses (path : Path) (lines : List String) :
    CursorLocal fun w => uses path lines w := by
  simp only [uses, ← List.filterMap_eq_map']
  exact cursorLocal_foundInLines _ lines (keepsRange_refer _ path _)

theorem Torch.cursorLocal_uses (path : Path) (lines : List String) :
    CursorLocal fun w => uses path lines w := by
  simp only [uses, ← List.filterMap_eq_map']
  apply CursorLocal.append
  · exact cursorLocal_foundInLines _ lines (keepsRange_refer _ path _)
  · exact cursorLocal_foundInLines _ lines (keepsRange_refer _ path _)

/-- What a scan finds is a registration in a native source. -/
theorem Mxnet.native_of_mem_extract {path : Path} {lines : List String} {w : Window} {fact : Fact}
    (h : fact ∈ extract path lines w) :
    SourceKind.of path = .native ∧ ∃ d, fact = .definition d := by
  rw [extract] at h
  split at h
  · next hkind =>
    obtain ⟨found, -, rfl⟩ := List.mem_map.mp h
    exact ⟨hkind.1, _, rfl⟩
  · cases h

theorem Torch.native_of_isScanned {path : Path} (h : isScanned path = true) :
    SourceKind.of path = .native := by
  have hextension : path.extension? = some "cpp" := by
    rw [isScanned, Bool.and_eq_true, decide_eq_true_eq] at h
    exact h.1
  rw [SourceKind.of, hextension]
  rfl

theorem Torch.native_of_mem_extract {path : Path} {lines : List String} {w : Window} {fact : Fact}
    (h : fact ∈ extract path lines w) :
    SourceKind.of path = .native ∧ ∃ d, fact = .definition d := by
  rw [extract] at h
  split at h
  · next hscanned =>
    refine ⟨native_of_isScanned hscanned, ?_⟩
    rcases List.mem_append.mp h with hregistration | hbinding
    · obtain ⟨found, -, rfl⟩ := List.mem_map.mp hregistration
      exact ⟨_, rfl⟩
    · -- the tables of bindings are scanned in generated files only
      split at hbinding
      · obtain ⟨found, -, rfl⟩ := List.mem_map.mp hbinding
        exact ⟨_, rfl⟩
      · cases hbinding
  · cases h

/-- Every use is a reference. -/
theorem Mxnet.refers_of_mem_uses {path : Path} {lines : List String} {w : Window} {fact : Fact}
    (h : fact ∈ uses path lines w) : ∃ r, fact = .reference r := by
  obtain ⟨found, -, rfl⟩ := List.mem_map.mp h
  exact ⟨_, rfl⟩

theorem Torch.refers_of_mem_uses {path : Path} {lines : List String} {w : Window} {fact : Fact}
    (h : fact ∈ uses path lines w) : ∃ r, fact = .reference r := by
  rcases List.mem_append.mp h with hoperator | hmethod
  · obtain ⟨found, -, rfl⟩ := List.mem_map.mp hoperator
    exact ⟨_, rfl⟩
  · obtain ⟨found, -, rfl⟩ := List.mem_map.mp hmethod
    exact ⟨_, rfl⟩

namespace Provider

/-- The uses in a Python source that a provider looks for under a cursor only. -/
def uses : Provider → Path → List String → Window → List Fact
  | mxnet => Mxnet.uses
  | torch => Torch.uses
  | _ => fun _ _ _ => []

/-- The provider looks for its uses under a cursor, and for nothing else there. -/
def SeeksUses (p : Provider) : Prop := p = .mxnet ∨ p = .torch

variable {p : Provider}

theorem SeeksUses.native_of_mem_extract (hp : p.SeeksUses) {resolver : Resolver} {path : Path}
    {lines : List String} {w : Window} {fact : Fact} (h : fact ∈ p.extract resolver path lines w) :
    SourceKind.of path = .native ∧ ∃ d, fact = .definition d := by
  rcases hp with rfl | rfl
  · exact Mxnet.native_of_mem_extract h
  · exact Torch.native_of_mem_extract h

theorem SeeksUses.refers_of_mem_uses (hp : p.SeeksUses) {path : Path} {lines : List String} {w : Window}
    {fact : Fact} (h : fact ∈ p.uses path lines w) : ∃ r, fact = .reference r := by
  rcases hp with rfl | rfl
  · exact Mxnet.refers_of_mem_uses h
  · exact Torch.refers_of_mem_uses h

theorem SeeksUses.cursorLocal_uses (hp : p.SeeksUses) (path : Path) (lines : List String) :
    CursorLocal fun w => p.uses path lines w := by
  rcases hp with rfl | rfl
  · exact Mxnet.cursorLocal_uses path lines
  · exact Torch.cursorLocal_uses path lines

theorem SeeksUses.factAt_eq (hp : p.SeeksUses) (resolver : Resolver) (path : Path)
    (lines : List String) (cursor : Position) :
    p.factAt resolver path lines cursor =
      if SourceKind.of path = .python then firstTouching (p.uses path lines .all) cursor else none := by
  have hlocal : firstTouching (p.uses path lines (.around cursor.line)) cursor =
      firstTouching (p.uses path lines .all) cursor := hp.cursorLocal_uses path lines cursor
  rw [← hlocal]
  rcases hp with rfl | rfl <;> simp only [factAt, cursorUses, uses] <;>
    cases SourceKind.of path <;> rfl

/-- A scan finds registrations in native sources only, where a cursor finds nothing. In a Python source
a scan finds nothing, and a cursor finds the first use of the whole file that it touches: whenever it
touches one, it finds one. -/
theorem factAt_eq_firstTouching_uses (hp : p.SeeksUses) (resolver : Resolver) (path : Path)
    (lines : List String) (cursor : Position) :
    (∀ fact ∈ p.extract resolver path lines .all,
        SourceKind.of path = .native ∧ ∃ d, fact = .definition d) ∧
      (SourceKind.of path ≠ .python → p.factAt resolver path lines cursor = none) ∧
      (SourceKind.of path = .python →
        p.extract resolver path lines .all = [] ∧
          p.factAt resolver path lines cursor = firstTouching (p.uses path lines .all) cursor ∧
          ∀ use ∈ p.uses path lines .all, use.range?.any (·.touches cursor) = true →
            ∃ r, p.factAt resolver path lines cursor = some (.reference r) ∧
              r.range.touches cursor = true) := by
  have hfact := hp.factAt_eq resolver path lines cursor
  refine ⟨fun fact h => hp.native_of_mem_extract h, ?_, ?_⟩
  · intro hkind
    rw [hfact, if_neg hkind]
  · intro hkind
    rw [if_pos hkind] at hfact
    refine ⟨?_, hfact, ?_⟩
    · apply List.eq_nil_iff_forall_not_mem.mpr
      intro fact h
      have hnative := (hp.native_of_mem_extract h).1
      rw [hkind] at hnative
      cases hnative
    · intro use huse htouches
      have hsome : (firstTouching (p.uses path lines .all) cursor).isSome = true :=
        List.find?_isSome.mpr ⟨use, huse, htouches⟩
      obtain ⟨found, hfound⟩ := Option.isSome_iff_exists.mp hsome
      obtain ⟨r, rfl⟩ := hp.refers_of_mem_uses (List.mem_of_find?_eq_some hfound)
      exact ⟨r, hfact.trans hfound, touches_of_firstTouching hfound⟩

/-- A use of an operator two lines above a call of a method, which the cursor is in. -/
theorem factAt_eq_firstTouching_uses_method :
    let path : Path := .ofString "/torch/conv.py"
    let lines := ["y = torch.ops.quantized.conv2d(x)", "", "z = torch.nn.functional.relu(y)"]
    torch.SeeksUses ∧ SourceKind.of path = .python ∧
      torch.factAt .empty path lines ⟨2, 26⟩ = firstTouching (torch.uses path lines .all) ⟨2, 26⟩ ∧
        torch.factAt .empty path lines ⟨2, 26⟩ =
          some (.refer "aten:relu" path (Range.onLine 2 4 28)) := by
  intro path lines
  have hp : torch.SeeksUses := Or.inr rfl
  have hkind : SourceKind.of path = .python := by decide +kernel
  exact ⟨hp, hkind, ((factAt_eq_firstTouching_uses hp .empty path lines ⟨2, 26⟩).2.2 hkind).2.1,
    by decide +kernel⟩

/-- A registration that a scan finds is not found by a cursor on its key. -/
theorem factAt_on_registration :
    let path : Path := .ofString "/aten/src/ATen/q.cpp"
    let lines := ["  .op(\"quantized::conv2d(Tensor qx) -> Tensor\", &conv);"]
    let registration : Fact := .define "quantized::conv2d" path (Range.onLine 0 7 24)
    registration ∈ torch.extract .empty path lines .all ∧
      registration.range?.any (·.touches ⟨0, 10⟩) = true ∧
        torch.factAt .empty path lines ⟨0, 10⟩ = none := by
  decide +kernel

end Provider

end CrossIndex
