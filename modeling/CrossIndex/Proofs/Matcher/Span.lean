import CrossIndex.Dialect.Taichi
import CrossIndex.Matcher.MultiLine
import CrossIndex.Proofs.Regex.Search
import CrossIndex.Proofs.Text.Column

/-!
Spans of a whole file as ranges. The text up to any place of the joined lines is made of whole lines,
each with its line feed, and the start of one more line, so that a place is found again from its line
and column. Main statement: the range of a match lies on lines of the file, runs forward, and leads back
to the bytes of the match.
-/

namespace CrossIndex

/-- Lines with a line feed after each of them. -/
def terminated (lines : List (List Char)) : List Char := lines.flatMap (· ++ ['\n'])

/-- The text before the index is made of so many whole lines and of the first characters of the line
after them, which holds as many. -/
structure LiesAt (lines : List (List Char)) (index l : Nat) (line : List Char) (k : Nat) : Prop where
  line_eq : lines[l]? = some line
  le_length : k ≤ line.length
  take_eq : (joinLines lines).take index = terminated (lines.take l) ++ line.take k

variable {lines : List (List Char)} {line : List Char} {index l k : Nat}

theorem terminated_cons (line : List Char) (lines : List (List Char)) :
    terminated (line :: lines) = line ++ '\n' :: terminated lines := by
  simp [terminated]

theorem joinLines_cons (line : List Char) {more : List (List Char)} (h : more ≠ []) :
    joinLines (line :: more) = line ++ '\n' :: joinLines more := by
  cases more with
  | nil => exact absurd rfl h
  | cons next more => rfl

theorem count_terminated (h : ∀ line ∈ lines, '\n' ∉ line) :
    (terminated lines).count '\n' = lines.length := by
  induction lines with
  | nil => rfl
  | cons line lines ih =>
    have hline := List.count_eq_zero.mpr (h line List.mem_cons_self)
    have hlines := ih fun other ho => h other (List.mem_cons_of_mem _ ho)
    rw [terminated_cons, List.count_append, List.count_cons_self, hline, hlines, Nat.zero_add,
      List.length_cons]

/-- A place lies in the line that the ends of the lines give for it. -/
theorem exists_liesAt (hne : lines ≠ []) (h : index ≤ (joinLines lines).length) (start : Nat) :
    ∃ line k, LiesAt lines index
      ((lineEnds start lines).takeWhile (· ≤ start + index)).length line k := by
  induction lines generalizing index start with
  | nil => exact absurd rfl hne
  | cons line more ih =>
    rw [lineEnds]
    by_cases hfirst : index ≤ line.length
    · -- before the first line feed
      have hend : ¬start + line.length + 1 ≤ start + index := by omega
      rw [List.takeWhile_cons, if_neg fun h => hend (of_decide_eq_true h)]
      refine ⟨line, index, rfl, hfirst, ?_⟩
      by_cases hmore : more = []
      · rw [hmore]
        rfl
      · rw [joinLines_cons line hmore]
        exact List.take_append_of_le_length hfirst
    · -- behind it the place is one of the lines that follow, whose ends begin there
      obtain ⟨rest, rfl⟩ : ∃ rest, index = line.length + (rest + 1) :=
        ⟨index - line.length - 1, by omega⟩
      have hmore : more ≠ [] := by
        rintro rfl
        exact hfirst h
      rw [joinLines_cons line hmore, List.length_append, List.length_cons] at h
      have hend : start + line.length + 1 ≤ start + (line.length + (rest + 1)) := by omega
      have hstart : start + (line.length + (rest + 1)) = start + line.length + 1 + rest := by omega
      have hrest : rest ≤ (joinLines more).length := by omega
      obtain ⟨text, k, hl, hk, htake⟩ := ih hmore hrest (start + line.length + 1)
      rw [List.takeWhile_cons, if_pos (decide_eq_true hend), hstart, List.length_cons]
      refine ⟨text, k, hl, hk, ?_⟩
      rw [joinLines_cons line hmore, List.take_length_add_append, List.take_succ_cons, htake,
        List.take_succ_cons, terminated_cons, List.append_assoc, List.cons_append]

theorem exists_liesAt_lineOf (hne : lines ≠ []) (h : index ≤ (joinLines lines).length) :
    ∃ line k, LiesAt lines index (lineOf lines index) line k := by
  have hplace := exists_liesAt hne h 0
  rwa [Nat.zero_add] at hplace

namespace LiesAt

theorem lt_length (h : LiesAt lines index l line k) : l < lines.length :=
  (List.getElem?_eq_some_iff.mp h.line_eq).1

theorem count_eq (h : LiesAt lines index l line k) (hlines : ∀ line ∈ lines, '\n' ∉ line) :
    ((joinLines lines).take index).count '\n' = l := by
  have hbefore : (terminated (lines.take l)).count '\n' = l := by
    rw [count_terminated fun other ho => hlines other (List.mem_of_mem_take ho), List.length_take]
    exact Nat.min_eq_left (Nat.le_of_lt h.lt_length)
  have hline : (line.take k).count '\n' = 0 := List.count_eq_zero.mpr fun hm =>
    hlines line (List.mem_of_getElem? h.line_eq) (List.mem_of_mem_take hm)
  rw [h.take_eq, List.count_append, hbefore, hline, Nat.add_zero]

theorem index_eq (h : LiesAt lines index l line k) (hindex : index ≤ (joinLines lines).length) :
    index = (terminated (lines.take l)).length + k := by
  have hlength := congrArg List.length h.take_eq
  rw [List.length_take, List.length_append, List.length_take] at hlength
  have hk := h.le_length
  omega

end LiesAt

theorem getElem?_lineEnds {i : Nat} (h : i < lines.length) (start : Nat) :
    (lineEnds start lines)[i]? = some (start + (terminated (lines.take (i + 1))).length) := by
  induction lines generalizing i start with
  | nil => exact absurd h (Nat.not_lt_zero i)
  | cons line more ih =>
    rw [lineEnds, List.take_succ_cons, terminated_cons, List.length_append, List.length_cons]
    cases i with
    | zero => rfl
    | succ i =>
      rw [List.getElem?_cons_succ, ih (Nat.lt_of_succ_lt_succ h)]
      congr 1
      omega

theorem lineStart_eq (h : l ≤ lines.length) :
    lineStart lines l = (terminated (lines.take l)).length := by
  cases l with
  | zero => rfl
  | succ l =>
    rw [lineStart, if_neg (Nat.succ_ne_zero l), Nat.add_sub_cancel, getElem?_lineEnds h,
      Option.getD_some, Nat.zero_add]

/-! ### Bytes -/

def lineStartByte (lines : List String) (l : Nat) : Nat :=
  (lines.take l).foldr (fun line bytes => line.utf8ByteSize + 1 + bytes) 0

def byteOfIndex (lines : List String) (index : Nat) : Nat :=
  Text.byteLength ((joinLines (lines.map String.toList)).take index)

/-- The byte offset that a position leads back to: that of its line, and from there that of its
column. -/
def Position.byteIn (lines : List String) (p : Position) : Nat :=
  lineStartByte lines p.line + Text.byteOffset (lines[p.line]?.getD "") p.column

/-- The position is the place of an index of the joined text. -/
structure Position.Locates (lines : List String) (p : Position) (index : Nat) : Prop where
  line : lines ≠ [] → p.line < lines.length
  /-- The line starts at the index or before, in characters and in bytes. -/
  start : lineStart (lines.map String.toList) p.line ≤ index ∧
    lineStartByte lines p.line ≤ byteOfIndex lines index
  /-- The column lies in its line, and is that of the bytes from the start of the line on. -/
  column : ∀ line, lines[p.line]? = some line → p.column ≤ line.length ∧
    p.column = Text.charColumn line (byteOfIndex lines index - lineStartByte lines p.line)
  byte : p.byteIn lines = byteOfIndex lines index

theorem lineStartByte_eq (lines : List String) (l : Nat) :
    lineStartByte lines l = Text.byteLength (terminated ((lines.map String.toList).take l)) := by
  rw [lineStartByte, ← List.map_take]
  induction lines.take l with
  | nil => rfl
  | cons line more ih =>
    rw [List.foldr_cons, ih, List.map_cons, terminated_cons, Text.byteLength_append,
      Text.byteLength, Text.byteLength_toList, ← Nat.add_assoc]
    rfl

namespace LiesAt

variable {lines : List String}

theorem locates (h : LiesAt (lines.map String.toList) index l line k)
    (hindex : index ≤ (joinLines (lines.map String.toList)).length) :
    Position.Locates lines ⟨l, k⟩ index := by
  have hl : l < lines.length := by
    have hlt := h.lt_length
    rwa [List.length_map] at hlt
  have hline : lines[l]? = some (String.ofList line) := by
    have hchars := h.line_eq
    rw [List.getElem?_map, Option.map_eq_some_iff] at hchars
    obtain ⟨text, htext, rfl⟩ := hchars
    rw [htext, String.ofList_toList]
  have hbyte : byteOfIndex lines index = lineStartByte lines l + Text.byteLength (line.take k) := by
    rw [byteOfIndex, h.take_eq, Text.byteLength_append, lineStartByte_eq]
  have hstart : lineStart (lines.map String.toList) l ≤ index := by
    rw [lineStart_eq (Nat.le_of_lt h.lt_length)]
    have hsum := h.index_eq hindex
    omega
  have hstartByte : lineStartByte lines l ≤ byteOfIndex lines index := by omega
  refine ⟨fun _ => hl, ⟨hstart, hstartByte⟩, ?_, ?_⟩
  · intro text htext
    obtain rfl : String.ofList line = text := Option.some.inj (hline.symm.trans htext)
    rw [hbyte, Nat.add_sub_cancel_left, Text.charColumn, String.length_ofList, String.toList_ofList,
      Text.charsBefore_byteLength_take h.le_length]
    exact ⟨h.le_length, rfl⟩
  · change lineStartByte lines l + Text.byteOffset (lines[l]?.getD "") k = _
    rw [hbyte, hline, Option.getD_some, Text.byteOffset, String.toList_ofList]

theorem columnIn_eq {lines : List (List Char)} (h : LiesAt lines index l line k)
    (hindex : index ≤ (joinLines lines).length) : columnIn lines l index = k := by
  have hsum := h.index_eq hindex
  have hcolumn : index - lineStart lines l = k := by
    rw [lineStart_eq (Nat.le_of_lt h.lt_length)]
    omega
  rw [columnIn, h.line_eq, hcolumn]
  exact Nat.min_eq_left h.le_length

end LiesAt

/-! ### Ranges -/

variable {first last : Nat}

theorem exists_rangeOfSpan_eq (hlines : ∀ line ∈ lines, '\n' ∉ line) (hne : lines ≠ [])
    (hle : first ≤ last) (hlast : last ≤ (joinLines lines).length) :
    ∃ l line k l' line' k', LiesAt lines first l line k ∧ LiesAt lines last l' line' k' ∧
      rangeOfSpan lines first last = ⟨⟨l, k⟩, ⟨l', k'⟩⟩ := by
  have hfirst : first ≤ (joinLines lines).length := Nat.le_trans hle hlast
  obtain ⟨line, k, hplace⟩ := exists_liesAt_lineOf hne hfirst
  obtain ⟨line', k', hplace'⟩ := exists_liesAt_lineOf hne hlast
  -- the line feeds before the end of the span are those before its start and those in it
  have hcount : lineOf lines first +
      (((joinLines lines).drop first).take (last - first)).count '\n' = lineOf lines last := by
    calc lineOf lines first + (((joinLines lines).drop first).take (last - first)).count '\n'
        = ((joinLines lines).take first ++
            ((joinLines lines).drop first).take (last - first)).count '\n' := by
          rw [List.count_append, hplace.count_eq hlines]
      _ = ((joinLines lines).take last).count '\n' := by
          rw [← List.take_add, Nat.add_sub_cancel' hle]
      _ = lineOf lines last := hplace'.count_eq hlines
  refine ⟨_, line, k, _, line', k', hplace, hplace', ?_⟩
  simp only [rangeOfSpan, hcount, hplace.columnIn_eq hfirst, hplace'.columnIn_eq hlast]

/-- The start of a range leads back to the index that it was made from. -/
theorem eq_of_start_rangeOfSpan {first' last' : Nat} (hfirst : first ≤ (joinLines lines).length)
    (hfirst' : first' ≤ (joinLines lines).length)
    (h : (rangeOfSpan lines first last).start = (rangeOfSpan lines first' last').start) :
    first = first' := by
  by_cases hne : lines = []
  · -- without lines there is one place only
    subst hne
    exact (Nat.le_zero.mp hfirst).trans (Nat.le_zero.mp hfirst').symm
  · obtain ⟨line, k, hplace⟩ := exists_liesAt_lineOf hne hfirst
    obtain ⟨line', k', hplace'⟩ := exists_liesAt_lineOf hne hfirst'
    obtain ⟨hline, hcolumn⟩ := Position.mk.inj h
    rw [hplace.columnIn_eq hfirst, hplace'.columnIn_eq hfirst'] at hcolumn
    rw [hplace.index_eq hfirst, hplace'.index_eq hfirst', hline, hcolumn]

theorem LiesAt.le {line' : List Char} {l' k' : Nat}
    (h : LiesAt lines first l line k) (h' : LiesAt lines last l' line' k')
    (hlines : ∀ line ∈ lines, '\n' ∉ line) (hle : first ≤ last)
    (hlast : last ≤ (joinLines lines).length) : (⟨l, k⟩ : Position) ≤ ⟨l', k'⟩ := by
  -- the line of a place is the number of line feeds before it, which only grows
  have hcount : l ≤ l' := by
    rw [← h.count_eq hlines, ← h'.count_eq hlines]
    exact (List.take_prefix_take_left hle).sublist.count_le _
  have hfirst := h.index_eq (Nat.le_trans hle hlast)
  have hlast := h'.index_eq hlast
  rw [Position.le_def]
  rcases Nat.lt_or_eq_of_le hcount with hlt | rfl
  · exact Or.inl hlt
  · refine Or.inr ⟨rfl, ?_⟩
    change k ≤ k'
    omega

/-- The range of a span of a file, and so that of every match of a pattern, locates both ends of the
span and runs forward. -/
theorem rangeOfSpan_locates {lines : List String} (hlines : ∀ line ∈ lines, '\n' ∉ line.toList) :
    (∀ first last, first ≤ last → last ≤ (joinLines (lines.map String.toList)).length →
      (rangeOfSpan (lines.map String.toList) first last).start.Locates lines first ∧
        (rangeOfSpan (lines.map String.toList) first last).stop.Locates lines last ∧
          (rangeOfSpan (lines.map String.toList) first last).start ≤
            (rangeOfSpan (lines.map String.toList) first last).stop) ∧
      ∀ (p : Pattern), ∀ found ∈ p.foundInFile lines,
        found.place.start ≤ found.place.stop.index ∧
          found.place.stop.index ≤ (joinLines (lines.map String.toList)).length ∧
            found.range =
              rangeOfSpan (lines.map String.toList) found.place.start found.place.stop.index := by
  constructor
  · intro first last hle hlast
    by_cases hne : lines = []
    · -- a file without lines has no character, and its one place is the start of it
      subst hne
      obtain rfl : last = 0 := Nat.le_zero.mp hlast
      obtain rfl : first = 0 := Nat.le_zero.mp hle
      have hstart : Position.Locates [] ⟨0, 0⟩ 0 :=
        ⟨fun h => absurd rfl h, ⟨Nat.le_refl 0, Nat.le_refl 0⟩, fun _ h => (nomatch h), rfl⟩
      exact ⟨hstart, hstart, Or.inr ⟨rfl, Nat.le_refl 0⟩⟩
    · have hchars : ∀ line ∈ lines.map String.toList, '\n' ∉ line := by
        intro line hmem
        obtain ⟨text, htext, rfl⟩ := List.mem_map.mp hmem
        exact hlines text htext
      have hne' : lines.map String.toList ≠ [] := fun h => hne (List.map_eq_nil_iff.mp h)
      obtain ⟨l, line, k, l', line', k', hplace, hplace', hrange⟩ :=
        exists_rangeOfSpan_eq hchars hne' hle hlast
      rw [hrange]
      exact ⟨hplace.locates (Nat.le_trans hle hlast), hplace'.locates hlast,
        hplace.le hplace' hchars hle hlast⟩
  · intro p found hfound
    obtain ⟨m, hm, rfl⟩ := List.mem_map.mp hfound
    obtain ⟨hle, hlast⟩ := Regex.bounds_of_mem_allMatches hm
    exact ⟨hle, hlast, rfl⟩

/-- A binding that starts behind an empty line and a letter of two bytes, and goes on in the line below. -/
theorem rangeOfSpan_locates_binding :
    let lines := ["λ", "", "é.def(", "\"run\", f)"]
    (Taichi.boundFunction.foundInFile lines).map Found.range = [⟨⟨2, 1⟩, ⟨3, 5⟩⟩] ∧
      Position.Locates lines ⟨2, 1⟩ 4 ∧ Position.Locates lines ⟨3, 5⟩ 15 ∧
        byteOfIndex lines 4 = 6 ∧ byteOfIndex lines 15 = 17 := by
  intro lines
  have hlines : ∀ line ∈ lines, '\n' ∉ line.toList := by decide
  have hrange : rangeOfSpan (lines.map String.toList) 4 15 = ⟨⟨2, 1⟩, ⟨3, 5⟩⟩ := by decide +kernel
  have hlength : 15 ≤ (joinLines (lines.map String.toList)).length := by decide +kernel
  obtain ⟨hstart, hstop, -⟩ := (rangeOfSpan_locates hlines).1 4 15 (by decide) hlength
  rw [hrange] at hstart hstop
  exact ⟨by decide +kernel, hstart, hstop, by decide +kernel, by decide +kernel⟩

end CrossIndex
