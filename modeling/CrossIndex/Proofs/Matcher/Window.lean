import CrossIndex.Matcher.Window

/-!
Scans through windows. A scan finds just the items of the lines of its window, in their order, and it may
be cut at any line of its window without losing or doubling an item.
-/

namespace CrossIndex

variable {β γ : Type}

theorem scanLines_filterMap (f : Nat → String → Option String → List β) (g : β → Option γ)
    (index count : Nat) (lines : List String) :
    (scanLines f index count lines).filterMap g =
      scanLines (fun i line below? => (f i line below?).filterMap g) index count lines := by
  induction count generalizing index lines with
  | zero => rfl
  | succ count ih =>
    cases lines with
    | nil => rfl
    | cons line below => simp only [scanLines, List.filterMap_append, ih]

theorem mem_scanLines_iff {f : Nat → String → Option String → List β} {index count : Nat}
    {lines : List String} {b : β} : b ∈ scanLines f index count lines ↔
      ∃ k line, k < count ∧ lines[k]? = some line ∧ b ∈ f (index + k) line lines[k + 1]? := by
  induction count generalizing index lines with
  | zero => simp [scanLines]
  | succ count ih =>
    cases lines with
    | nil => simp [scanLines]
    | cons line below =>
      rw [scanLines, List.mem_append, ih]
      constructor
      · rintro (hhere | ⟨k, other, hk, hline, hb⟩)
        · exact ⟨0, line, Nat.zero_lt_succ count, rfl, List.head?_eq_getElem? ▸ hhere⟩
        · rw [Nat.add_right_comm, Nat.add_assoc] at hb
          exact ⟨k + 1, other, Nat.succ_lt_succ hk, hline, hb⟩
      · rintro ⟨k, other, hk, hline, hb⟩
        cases k with
        | zero =>
          obtain rfl : line = other := Option.some.inj hline
          exact Or.inl (List.head?_eq_getElem? ▸ hb)
        | succ k =>
          rw [← Nat.add_assoc, Nat.add_right_comm] at hb
          exact Or.inr ⟨k, other, Nat.lt_of_succ_lt_succ hk, hline, hb⟩

theorem mem_scanLines {f : Nat → String → Option String → List β} {index count : Nat}
    {lines : List String} {b : β} (h : b ∈ scanLines f index count lines) :
    ∃ i line below?, index ≤ i ∧ i < index + count ∧ b ∈ f i line below? := by
  obtain ⟨k, line, hk, -, hb⟩ := mem_scanLines_iff.mp h
  exact ⟨index + k, line, lines[k + 1]?, Nat.le_add_right index k, Nat.add_lt_add_left hk index, hb⟩

/-- The items of a scan are in order when those of each line are and later lines come after earlier ones. -/
theorem pairwise_scanLines {R : β → β → Prop} {f : Nat → String → Option String → List β}
    (hhere : ∀ i line below?, (f i line below?).Pairwise R)
    (hlater : ∀ i line below? j line' below?', i < j → ∀ a ∈ f i line below?,
      ∀ b ∈ f j line' below?', R a b) (index count : Nat) (lines : List String) :
    (scanLines f index count lines).Pairwise R := by
  induction count generalizing index lines with
  | zero => exact .nil
  | succ count ih =>
    cases lines with
    | nil => exact .nil
    | cons line below =>
      refine List.pairwise_append.mpr ⟨hhere index line _, ih (index + 1) below, ?_⟩
      intro a ha b hb
      obtain ⟨j, line', below?', hj, -, hb⟩ := mem_scanLines hb
      exact hlater index line _ j line' below?' hj a ha b hb

namespace Window

/-- The index of a line lies in the window. -/
def Holds (w : Window) (i : Nat) : Prop :=
  w.first ≤ i ∧ ∀ stop ∈ w.stop?, i < stop

theorem scan_filterMap (w : Window) (lines : List String)
    (f : Nat → String → Option String → List β) (g : β → Option γ) :
    (w.scan lines f).filterMap g =
      w.scan lines fun i line below? => (f i line below?).filterMap g :=
  scanLines_filterMap f g _ _ _

/-- The line after the last of a window, in a file of so many lines. -/
def stopIn (w : Window) (count : Nat) : Nat := (w.bounds count).2

theorem stopIn_some (first stop count : Nat) :
    (⟨first, some stop⟩ : Window).stopIn count = min stop count := rfl

theorem stopIn_le (w : Window) (count : Nat) : w.stopIn count ≤ count := by
  cases h : w.stop? with
  | none => simp [stopIn, bounds, h]
  | some stop =>
    simp only [stopIn, bounds, h]
    exact Nat.min_le_right stop count

theorem scan_eq (w : Window) (lines : List String)
    (f : Nat → String → Option String → List β) :
    w.scan lines f =
      scanLines f (min w.first (w.stopIn lines.length))
        (w.stopIn lines.length - min w.first (w.stopIn lines.length))
        (lines.drop (min w.first (w.stopIn lines.length))) := rfl

theorem mem_scan_iff {w : Window} {lines : List String} {f : Nat → String → Option String → List β}
    {b : β} : b ∈ w.scan lines f ↔
      ∃ i line, w.Holds i ∧ lines[i]? = some line ∧ b ∈ f i line lines[i + 1]? := by
  have hstop : ∀ i, i < lines.length →
      (i < w.stopIn lines.length ↔ ∀ stop ∈ w.stop?, i < stop) := by
    intro i hi
    cases h : w.stop? with
    | none => simpa [stopIn, bounds, h] using hi
    | some stop =>
      simp only [stopIn, bounds, h, Option.map_some, Option.getD_some, Option.mem_def,
        Option.some.injEq, forall_eq']
      omega
  rw [scan_eq, mem_scanLines_iff]
  simp only [List.getElem?_drop, ← Nat.add_assoc]
  constructor
  · rintro ⟨k, line, hk, hline, hb⟩
    have hi := (List.getElem?_eq_some_iff.mp hline).1
    exact ⟨_, line, ⟨by omega, (hstop _ hi).mp (by omega)⟩, hline, hb⟩
  · rintro ⟨i, line, ⟨hfirst, hbefore⟩, hline, hb⟩
    have hi := (hstop i (List.getElem?_eq_some_iff.mp hline).1).mpr hbefore
    obtain ⟨k, hk⟩ : ∃ k, i = min w.first (w.stopIn lines.length) + k :=
      Nat.exists_eq_add_of_le (Nat.le_trans (Nat.min_le_left _ _) hfirst)
    rw [hk] at hline hb
    exact ⟨k, line, by omega, hline, hb⟩

/-- Every item of a scan comes from a line of the window. -/
theorem mem_scan {w : Window} {lines : List String} {f : Nat → String → Option String → List β}
    {b : β} (h : b ∈ w.scan lines f) : ∃ i line below?, w.Holds i ∧ b ∈ f i line below? := by
  obtain ⟨i, line, hholds, -, hb⟩ := mem_scan_iff.mp h
  exact ⟨i, line, lines[i + 1]?, hholds, hb⟩

/-- A scan for one item of each line at most: the items with the indices of their lines, which grow. -/
theorem exists_rows_of_scan (w : Window) (lines : List String)
    (f : Nat → String → Option String → Option β) : ∃ rows : List (Nat × β),
      (w.scan lines fun i line below? => (f i line below?).toList) = rows.map Prod.snd ∧
        rows.Pairwise (fun a b => a.1 < b.1) ∧ ∀ i b, (i, b) ∈ rows ↔
          w.Holds i ∧ ∃ line, lines[i]? = some line ∧ f i line lines[i + 1]? = some b := by
  refine ⟨w.scan lines fun i line below? => ((f i line below?).map (i, ·)).toList, ?_, ?_, ?_⟩
  · rw [← List.filterMap_eq_map, scan_filterMap]
    refine congrArg (w.scan lines) ?_
    funext i line below?
    cases f i line below? with
    | none => rfl
    | some b => rfl
  · rw [scan_eq]
    refine pairwise_scanLines (fun i line below? => ?_) ?_ _ _ _
    · cases f i line below? with
      | none => exact .nil
      | some b => exact List.pairwise_singleton _ _
    · intro i line below? j line' below?' hlt a ha b hb
      simp only [Option.mem_toList, Option.map_eq_some_iff] at ha hb
      obtain ⟨-, -, rfl⟩ := ha
      obtain ⟨-, -, rfl⟩ := hb
      exact hlt
  · intro i b
    rw [mem_scan_iff]
    constructor
    · rintro ⟨i', line, hholds, hline, hb⟩
      simp only [Option.mem_toList, Option.map_eq_some_iff, Prod.mk.injEq] at hb
      obtain ⟨b', hb, rfl, rfl⟩ := hb
      exact ⟨hholds, line, hline, hb⟩
    · rintro ⟨hholds, line, hline, hb⟩
      refine ⟨i, line, hholds, hline, ?_⟩
      rw [hb]
      exact List.mem_singleton_self _

/-- A scan for one item of each line at most finds items of later and later lines. -/
theorem pairwise_scan (w : Window) (lines : List String) {f : Nat → String → Option String → Option β}
    (lineOf : β → Nat) (hf : ∀ i line below? b, f i line below? = some b → lineOf b = i) :
    (w.scan lines fun i line below? => (f i line below?).toList).Pairwise
      fun a b => lineOf a < lineOf b := by
  obtain ⟨rows, hscan, hordered, hrows⟩ := w.exists_rows_of_scan lines f
  rw [hscan, List.pairwise_map]
  apply hordered.imp_of_mem
  intro a b ha hb hlt
  obtain ⟨-, line, -, hfound⟩ := (hrows _ _).mp ha
  obtain ⟨-, line', -, hfound'⟩ := (hrows _ _).mp hb
  rwa [hf _ _ _ _ hfound, hf _ _ _ _ hfound']

/-- A window may be cut at any of its lines. -/
theorem scan_cut (lines : List String) (f : Nat → String → Option String → List β)
    {first middle : Nat} {stop? : Option Nat} (hf : first ≤ middle)
    (hs : ∀ stop ∈ stop?, middle ≤ stop) :
    (⟨first, stop?⟩ : Window).scan lines f =
      (⟨first, some middle⟩ : Window).scan lines f ++
        (⟨middle, stop?⟩ : Window).scan lines f := by
  have hsame : (⟨first, stop?⟩ : Window).stopIn lines.length =
      (⟨middle, stop?⟩ : Window).stopIn lines.length := rfl
  have hm : min middle lines.length ≤ (⟨middle, stop?⟩ : Window).stopIn lines.length := by
    cases stop? with
    | none => exact Nat.min_le_right middle lines.length
    | some stop =>
      have := hs stop rfl
      rw [stopIn_some]
      omega
  have hle := stopIn_le ⟨middle, stop?⟩ lines.length
  rw [scan_eq, scan_eq, scan_eq, stopIn_some, hsame]
  -- all bounds are in terms of where the window stops in the file, and the cut is one of counts
  generalize (⟨middle, stop?⟩ : Window).stopIn lines.length = stop at hm hle
  have hfirst : min first stop = min first (min middle lines.length) := by omega
  have hmiddle : min middle stop = min middle lines.length := by omega
  have hcount : stop - min first (min middle lines.length) =
      (min middle lines.length - min first (min middle lines.length)) +
        (stop - min middle lines.length) := by omega
  have hindex : min first (min middle lines.length) +
      (min middle lines.length - min first (min middle lines.length)) =
        min middle lines.length := by omega
  rw [hfirst, hmiddle, hcount, scanLines_add, List.drop_drop, hindex]

end Window

end CrossIndex
