import CrossIndex.Dialect.Provider
import CrossIndex.Proofs.Matcher.Window

/-!
Facts under a cursor. A matcher reports a key on the line that it looks at or on the line below, so
the three lines around a cursor hold everything that can touch it. Main statement: a provider that
scans only these lines finds the fact that a scan of the whole file finds.
-/

namespace CrossIndex

/-- The range lies on the line with the index or on the one below it. -/
def Range.Near (r : Range) (i : Nat) : Prop :=
  i ≤ r.start.line ∧ r.stop.line ≤ i + 1

theorem Range.near_onLine (i first last : Nat) : (onLine i first last).Near i :=
  ⟨Nat.le_refl i, Nat.le_succ i⟩

theorem Range.near_onLine_below (i first last : Nat) : (onLine (i + 1) first last).Near i :=
  ⟨Nat.le_succ i, Nat.le_refl (i + 1)⟩

theorem Range.line_of_touches {r : Range} {cursor : Position} (h : r.touches cursor = true) :
    r.start.line ≤ cursor.line ∧ cursor.line ≤ r.stop.line := by
  simp only [touches, decide_eq_true_eq, Position.le_def] at h
  omega

/-- A cursor that touches a range near a line is on that line or on the one below. -/
theorem Range.Near.line_of_touches {r : Range} {i : Nat} {cursor : Position} (hr : r.Near i)
    (h : r.touches cursor = true) : i ≤ cursor.line ∧ cursor.line ≤ i + 1 := by
  have hl := Range.line_of_touches h
  exact ⟨Nat.le_trans hr.1 hl.1, Nat.le_trans hl.2 hr.2⟩

namespace Fact

theorem firstTouching_append (a b : List Fact) (cursor : Position) :
    firstTouching (a ++ b) cursor = (firstTouching a cursor).or (firstTouching b cursor) :=
  List.find?_append

theorem firstTouching_eq_none {facts : List Fact} {cursor : Position}
    (h : ∀ fact ∈ facts, ∀ r, fact.range? = some r → ¬r.touches cursor = true) :
    firstTouching facts cursor = none := by
  apply List.find?_eq_none.mpr
  intro fact hm ht
  obtain ⟨r, hr, htouch⟩ := (Option.any_eq_true _ _).mp ht
  exact h fact hm r hr htouch

theorem touches_of_firstTouching {facts : List Fact} {cursor : Position} {fact : Fact}
    (h : firstTouching facts cursor = some fact) : fact.range?.any (·.touches cursor) = true := by
  have hfound := List.find?_some h
  exact hfound

/-- The facts of a file, which depend on the window that is scanned, need only the lines around a
cursor to show what it touches first. -/
def CursorLocal (facts : Window → List Fact) : Prop :=
  ∀ cursor : Position,
    firstTouching (facts (.around cursor.line)) cursor = firstTouching (facts .all) cursor

theorem cursorLocal_const (facts : List Fact) : CursorLocal fun _ => facts :=
  fun _ => rfl

theorem CursorLocal.append {a b : Window → List Fact} (ha : CursorLocal a) (hb : CursorLocal b) :
    CursorLocal fun w => a w ++ b w := by
  intro cursor
  simp only [firstTouching_append, ha cursor, hb cursor]

/-- A scan that finds facts near the line that it looks at is local: no line before the one above
the cursor, and none after the one below it, has a fact that the cursor touches. -/
theorem cursorLocal_scan (lines : List String) (f : Nat → String → Option String → List Fact)
    (hf : ∀ i line below? fact r, fact ∈ f i line below? → fact.range? = some r → r.Near i) :
    CursorLocal fun w => w.scan lines f := by
  intro cursor
  have hfar (w : Window) (hw : ∀ i, w.Holds i → ¬(i ≤ cursor.line ∧ cursor.line ≤ i + 1)) :
      firstTouching (w.scan lines f) cursor = none := by
    apply firstTouching_eq_none
    intro fact hm r hr htouch
    obtain ⟨i, line, below?, hi, hfact⟩ := Window.mem_scan hm
    exact hw i hi ((hf i line below? fact r hfact hr).line_of_touches htouch)
  -- the file is cut above and below the three lines, and the outer parts lie too far away
  have hcut : Window.all.scan lines f =
      (⟨0, some (cursor.line - 1)⟩ : Window).scan lines f ++
        ((Window.around cursor.line).scan lines f ++
          (⟨cursor.line + 2, none⟩ : Window).scan lines f) := by
    have hmiddle : cursor.line - 1 ≤ cursor.line + 2 := by omega
    rw [Window.all, Window.around,
      Window.scan_cut lines f (Nat.zero_le (cursor.line - 1)) (by simp),
      Window.scan_cut lines f hmiddle (by simp)]
  have habove := hfar ⟨0, some (cursor.line - 1)⟩ fun i hi => by
    have := hi.2 (cursor.line - 1) rfl
    omega
  have hbelow := hfar ⟨cursor.line + 2, none⟩ fun i hi => by
    have : cursor.line + 2 ≤ i := hi.1
    omega
  calc firstTouching ((Window.around cursor.line).scan lines f) cursor
      = (none : Option Fact).or
          ((firstTouching ((Window.around cursor.line).scan lines f) cursor).or none) := by
        rw [Option.none_or, Option.or_none]
    _ = firstTouching (Window.all.scan lines f) cursor := by
        rw [hcut, firstTouching_append, firstTouching_append, habove, hbelow]

variable {β : Type}

/-- What is found is turned into facts that keep its range. -/
def KeepsRange (range : β → Range) (create : β → Option Fact) : Prop :=
  ∀ b fact r, create b = some fact → fact.range? = some r → r = range b

theorem keepsRange_define (key : β → String) (path : Path) (range : β → Range) :
    KeepsRange range fun b => some (define (key b) path (range b)) := by
  rintro b _ r ⟨⟩ ⟨⟩
  rfl

theorem keepsRange_refer (key : β → String) (path : Path) (range : β → Range) :
    KeepsRange range fun b => some (refer (key b) path (range b)) := by
  rintro b _ r ⟨⟩ ⟨⟩
  rfl

theorem cursorLocal_filterMap {range : β → Range} {create : β → Option Fact}
    (hc : KeepsRange range create) (lines : List String)
    (f : Nat → String → Option String → List β)
    (hf : ∀ i line below? b, b ∈ f i line below? → (range b).Near i) :
    CursorLocal fun w => (w.scan lines f).filterMap create := by
  simp only [Window.scan_filterMap]
  apply cursorLocal_scan
  intro i line below? fact r hm hr
  obtain ⟨b, hb, hfact⟩ := List.mem_filterMap.mp hm
  rw [hc b fact r hfact hr]
  exact hf i line below? b hb

end Fact

namespace Pattern

theorem near_of_foundIn {p : Pattern} {i : Nat} {line : String} {found : Found}
    (h : found ∈ (p.foundIn i line).toList) : found.range.Near i := by
  simp only [foundIn, Option.mem_toList, Option.bind_eq_bind,
    Option.bind_eq_some_iff, Option.pure_def, Option.some.injEq] at h
  obtain ⟨place, -, rfl⟩ := h
  exact Range.near_onLine i _ _

theorem near_of_keyHit? {p : Pattern} {i : Nat} {text : List Char} {place : Match} {hit : KeyHit}
    (h : p.keyHit? i text place = some hit) : hit.range.Near i := by
  simp only [keyHit?, Option.bind_eq_bind, Option.bind_eq_some_iff, Option.pure_def,
    Option.some.injEq] at h
  obtain ⟨-, -, -, -, rfl⟩ := h
  exact Range.near_onLine i _ _

end Pattern

theorem DecoratorMatcher.near_of_hit? {d : DecoratorMatcher} {i : Nat} {line : String}
    {below? : Option String} {hit : KeyHit} (h : d.hit? i line below? = some hit) :
    hit.range.Near i := by
  simp only [hit?, Option.bind_eq_bind, Option.bind_eq_some_iff] at h
  obtain ⟨place, -, ⟨nameFirst, nameLast⟩, -, h⟩ := h
  cases hk : d.decorator.named? place "key" with
  | some span =>
    rw [hk] at h
    cases h
    exact Range.near_onLine i _ _
  | none =>
    -- a bare decorator has its key on the line below
    simp only [hk, Option.bind_eq_some_iff, Option.pure_def, Option.some.injEq] at h
    obtain ⟨-, -, -, -, -, -, rfl⟩ := h
    exact Range.near_onLine_below i _ _

namespace Fact

theorem cursorLocal_foundInLines (p : Pattern) (lines : List String) {create : Found → Option Fact}
    (hc : KeepsRange Found.range create) :
    CursorLocal fun w => (p.foundInLines lines w).filterMap create :=
  cursorLocal_filterMap hc lines _ fun _ _ _ _ => Pattern.near_of_foundIn

theorem cursorLocal_lineKeys (p : Pattern) (lines : List String) {create : KeyHit → Option Fact}
    (hc : KeepsRange KeyHit.range create) :
    CursorLocal fun w => (p.lineKeys lines w).filterMap create := by
  apply cursorLocal_filterMap hc
  intro i line below? hit hm
  obtain ⟨place, -, hhit⟩ := Option.bind_eq_some_iff.mp (Option.mem_toList.mp hm)
  exact Pattern.near_of_keyHit? hhit

theorem cursorLocal_allKeys (p : Pattern) (lines : List String) {create : KeyHit → Option Fact}
    (hc : KeepsRange KeyHit.range create) :
    CursorLocal fun w => (p.allKeys lines w).filterMap create := by
  apply cursorLocal_filterMap hc
  intro i line below? hit hm
  obtain ⟨place, -, hhit⟩ := List.mem_filterMap.mp hm
  exact Pattern.near_of_keyHit? hhit

theorem cursorLocal_hits (d : DecoratorMatcher) (lines : List String)
    {create : KeyHit → Option Fact} (hc : KeepsRange KeyHit.range create) :
    CursorLocal fun w => (d.hits lines w).filterMap create := by
  apply cursorLocal_filterMap hc
  intro i line below? hit hm
  exact DecoratorMatcher.near_of_hit? (Option.mem_toList.mp hm)

end Fact

open CrossIndex.Fact

namespace Packed

theorem keepsRange_familyExport? (names : PackedNames) (paths? : Option PackagePaths)
    (resolver : Resolver) (path : Path) :
    KeepsRange KeyHit.range fun hit =>
      paths?.bind fun paths => familyExport? names paths resolver path hit.key := by
  intro hit fact r h hr
  obtain ⟨paths, -, h⟩ := Option.bind_eq_some_iff.mp h
  obtain ⟨-, ⟨⟩⟩ := Option.ite_none_right_eq_some.mp h
  -- an export has no range, so that there is none to keep
  cases hr

theorem keepsRange_functionDefinition? (paths? : Option PackagePaths) (resolver : Resolver)
    (path : Path) :
    KeepsRange KeyHit.range fun hit =>
      paths?.bind fun paths => functionDefinition? paths resolver path hit := by
  intro hit fact r h hr
  obtain ⟨paths, -, h⟩ := Option.bind_eq_some_iff.mp h
  obtain ⟨-, ⟨⟩⟩ := Option.ite_none_right_eq_some.mp h
  cases hr
  rfl

theorem cursorLocal_native (names : PackedNames) (path : Path) (lines : List String) :
    CursorLocal fun w => native names path lines w := by
  simp only [native, ← List.filterMap_eq_map']
  apply CursorLocal.append (CursorLocal.append ?_ ?_) ?_
  · exact cursorLocal_lineKeys _ lines (keepsRange_define _ path _)
  · exact cursorLocal_foundInLines _ lines (keepsRange_define _ path _)
  · exact cursorLocal_allKeys _ lines (keepsRange_refer _ path _)

theorem cursorLocal_python (names : PackedNames) (paths? : Option PackagePaths)
    (typeKeyOf : String → String → String) (resolver : Resolver) (path : Path)
    (lines : List String) :
    CursorLocal fun w => python names paths? typeKeyOf resolver path lines w := by
  simp only [python, ← List.filterMap_eq_map']
  apply CursorLocal.append (CursorLocal.append (CursorLocal.append ?_ ?_) ?_) ?_
  · exact cursorLocal_lineKeys _ lines (keepsRange_familyExport? names paths? resolver path)
  · exact cursorLocal_hits _ lines (keepsRange_refer _ path _)
  · exact cursorLocal_hits _ lines (keepsRange_functionDefinition? paths? resolver path)
  · exact cursorLocal_const _

end Packed

theorem Tvm.cursorLocal_inFile (file space : String) (pattern : Pattern) (path : Path)
    (lines : List String) : CursorLocal fun w => inFile file space pattern path lines w := by
  simp only [inFile, ← List.filterMap_eq_map']
  split
  · exact cursorLocal_foundInLines _ lines (keepsRange_define _ path _)
  · exact cursorLocal_const _

theorem Tvm.cursorLocal_extract (paths? : Option PackagePaths) (resolver : Resolver) (path : Path)
    (lines : List String) : CursorLocal fun w => extract paths? resolver path lines w := by
  unfold extract
  cases SourceKind.of path with
  | native =>
    exact ((Packed.cursorLocal_native names path lines).append
      (cursorLocal_inFile _ _ _ path lines)).append (cursorLocal_inFile _ _ _ path lines)
  | python => exact Packed.cursorLocal_python names paths? typeKeyOf resolver path lines
  | other => exact cursorLocal_const _

theorem Dgl.cursorLocal_extract (paths? : Option PackagePaths) (resolver : Resolver) (path : Path)
    (lines : List String) : CursorLocal fun w => extract paths? resolver path lines w := by
  unfold extract
  cases SourceKind.of path with
  | native => exact Packed.cursorLocal_native names path lines
  | python => exact Packed.cursorLocal_python names paths? _ resolver path lines
  | other => exact cursorLocal_const _

theorem Taichi.cursorLocal_extract (path : Path) (lines : List String) :
    CursorLocal fun w => extract path lines w := by
  simp only [extract, ← List.filterMap_eq_map']
  cases SourceKind.of path with
  | native =>
    -- bindings cross lines, so that the window makes no difference to them
    exact cursorLocal_const _
  | python => exact cursorLocal_foundInLines _ lines (keepsRange_refer _ path _)
  | other => exact cursorLocal_const _

namespace Provider

/-- A provider that looks for the same facts at a cursor as in a scan finds at the cursor, from the
lines around it, the first fact of the whole file that touches it. -/
theorem factAt_eq_firstTouching (p : Provider) (hm : p ≠ .mxnet) (ht : p ≠ .torch)
    (resolver : Resolver) (path : Path) (lines : List String) (cursor : Position) :
    p.factAt resolver path lines cursor =
      firstTouching (p.extract resolver path lines .all) cursor := by
  cases p with
  | tvm paths? => exact Tvm.cursorLocal_extract paths? resolver path lines cursor
  | dgl paths? => exact Dgl.cursorLocal_extract paths? resolver path lines cursor
  | mxnet => exact absurd rfl hm
  | torch => exact absurd rfl ht
  | taichi => exact Taichi.cursorLocal_extract path lines cursor
  | noop => rfl

/-- A bare decorator whose class is declared on the line of the cursor, and a call after it. -/
theorem factAt_bare_decorator :
    (tvm none ≠ .mxnet ∧ tvm none ≠ .torch) ∧
      (tvm none).factAt .empty (.ofString "/a.py") ["@register_object", "class Foo:", "f()"] ⟨1, 7⟩ =
        firstTouching ((tvm none).extract .empty (.ofString "/a.py")
          ["@register_object", "class Foo:", "f()"] .all) ⟨1, 7⟩ ∧
      (tvm none).factAt .empty (.ofString "/a.py") ["@register_object", "class Foo:", "f()"] ⟨1, 7⟩ =
        some (.refer "t:Foo" (.ofString "/a.py") (Range.onLine 1 6 9)) :=
  ⟨⟨nofun, nofun⟩, factAt_eq_firstTouching (tvm none) nofun nofun _ _ _ _, by decide +kernel⟩

end Provider

end CrossIndex
