import CrossIndex.Proofs.Text.Column
import CrossIndex.Proofs.Text.Trim
import CrossIndex.Python.Expression

/-!
The expression under a cursor. Main statement: at every column in or next to a dotted expression the whole
of it is found, or nothing when a quote follows it; away from dotted characters nothing is found; and no
cut of the line falls inside a character.
-/

namespace CrossIndex.Python

open Text

variable {before run after line : List Char} {column : Nat}

/-! ### Cuts at byte offsets -/

/-- The text before a byte offset and the text after it. A cut inside a character or past the end
fails. -/
def cutAtByte? : List Char → Nat → Option (List Char × List Char)
  | text, 0 => some ([], text)
  | [], _ + 1 => none
  | c :: rest, offset@(_ + 1) =>
    if c.utf8Size ≤ offset then
      (cutAtByte? rest (offset - c.utf8Size)).map fun cut => (c :: cut.1, cut.2)
    else none

/-- The expression at a byte offset, found by cuts of the line at the offsets of its ends. -/
def expressionAtByte? (line : List Char) (cursor : Nat) : Option (Option (List Char)) := do
  let (before, after) ← cutAtByte? line cursor
  let start := cursor - byteLength (leftPart before)
  let stop := cursor + byteLength (after.takeWhile isDotted)
  let (upToStop, rest) ← cutAtByte? line stop
  let (_, value) ← cutAtByte? upToStop start
  return if rest.head?.any isQuote ∨ value = [] then none else some value

/-- The expression under a cursor, by cuts of its line at byte offsets. -/
def expressionByCuts? (lines : List String) (cursor : Position) : Option (Option String) :=
  match lines[cursor.line]? with
  | some line =>
    (expressionAtByte? line.toList (byteOffset line cursor.column)).map (·.map String.ofList)
  | none => some none

theorem cutAtByte?_append (text rest : List Char) :
    cutAtByte? (text ++ rest) (byteLength text) = some (text, rest) := by
  induction text with
  | nil =>
    rw [List.nil_append, byteLength, cutAtByte?]
  | cons c text ih =>
    have hpos := Char.utf8Size_pos c
    obtain ⟨offset, hoffset⟩ : ∃ offset, byteLength (c :: text) = offset + 1 := by
      apply Nat.exists_eq_add_one.mpr
      rw [byteLength]
      omega
    have hle : c.utf8Size ≤ offset + 1 := by
      rw [← hoffset, byteLength]
      omega
    have hrest : offset + 1 - c.utf8Size = byteLength text := by
      rw [← hoffset, byteLength]
      omega
    rw [hoffset, List.cons_append, cutAtByte?, if_pos hle, hrest, ih, Option.map_some]

/-- The part of the expression left of the cursor ends at the cursor. -/
theorem exists_append_leftPart (text : List Char) : ∃ start, text = start ++ leftPart text := by
  have hsuffix : leftPart text <:+ text := by
    apply (List.dropWhile_suffix _).trans
    rw [← List.reverse_prefix, List.reverse_reverse]
    exact List.takeWhile_prefix isDotted
  obtain ⟨start, hstart⟩ := hsuffix
  exact ⟨start, hstart.symm⟩

/-- The cuts at the cursor and at the ends of the expression stand between characters. -/
theorem expressionAtByte?_eq (line : List Char) (column : Nat) :
    expressionAtByte? line (byteLength (line.take column)) = some (expressionIn line column) := by
  obtain ⟨start, hstart⟩ := exists_append_leftPart (line.take column)
  have hright := (List.takeWhile_append_dropWhile (p := isDotted) (l := line.drop column)).symm
  -- the line is what comes before the expression, its two parts, and what comes after it
  have hcursor : cutAtByte? line (byteLength (line.take column)) =
      some (line.take column, line.drop column) := by
    have hcut := cutAtByte?_append (line.take column) (line.drop column)
    rwa [List.take_append_drop] at hcut
  have hstop : cutAtByte? line (byteLength (line.take column) +
      byteLength ((line.drop column).takeWhile isDotted)) =
        some (line.take column ++ (line.drop column).takeWhile isDotted,
          (line.drop column).dropWhile isDotted) := by
    have hcut := cutAtByte?_append (line.take column ++ (line.drop column).takeWhile isDotted)
      ((line.drop column).dropWhile isDotted)
    rwa [List.append_assoc, ← hright, List.take_append_drop, byteLength_append] at hcut
  have hlength : byteLength (line.take column) - byteLength (leftPart (line.take column)) =
      byteLength start := by
    have hsum := congrArg byteLength hstart
    rw [byteLength_append] at hsum
    omega
  have hvalue : cutAtByte? (line.take column ++ (line.drop column).takeWhile isDotted)
      (byteLength start) =
        some (start, leftPart (line.take column) ++ (line.drop column).takeWhile isDotted) := by
    have hcut := cutAtByte?_append start
      (leftPart (line.take column) ++ (line.drop column).takeWhile isDotted)
    rwa [← List.append_assoc, ← hstart] at hcut
  simp only [expressionAtByte?, hcursor, hstop, hlength, hvalue, expressionIn, Option.bind_eq_bind,
    Option.bind_some, Option.pure_def]

/-! ### Runs of dotted characters -/

/-- A whole run of dotted characters of a line, which begins as a name does. -/
structure IsRun (before run after : List Char) : Prop where
  dotted : ∀ c ∈ run, isDotted c = true
  start : run.head?.any isNameStart = true
  before : ∀ c, before.getLast? = some c → isDotted c = false
  after : ∀ c, after.head? = some c → isDotted c = false

theorem isRun_iff {before run after : List Char} : IsRun before run after ↔
    run.all isDotted = true ∧ run.head?.any isNameStart = true ∧
      before.getLast?.any isDotted = false ∧ after.head?.any isDotted = false := by
  have hnone : ∀ c? : Option Char,
      c?.any isDotted = false ↔ ∀ c, c? = some c → isDotted c = false := by
    intro c?
    cases c? with
    | none => simp
    | some c => simp
  rw [List.all_eq_true, hnone, hnone]
  exact ⟨fun h => ⟨h.dotted, h.start, h.before, h.after⟩, fun ⟨hd, hs, hb, ha⟩ => ⟨hd, hs, hb, ha⟩⟩

instance (before run after : List Char) : Decidable (IsRun before run after) :=
  decidable_of_iff _ isRun_iff.symm

/-- The characters on both sides of a column. Past the end of the line there is the last one alone. -/
def neighbours (line : List Char) (column : Nat) : List Char :=
  (line.take column).getLast?.toList ++ (line.drop column).head?.toList

/-- The run up to the cursor is the dotted text before it. -/
theorem takeWhile_reverse_append (hrun : ∀ c ∈ run, isDotted c = true)
    (hbefore : ∀ c, before.getLast? = some c → isDotted c = false) :
    ((before ++ run).reverse.takeWhile isDotted).reverse = run := by
  rw [List.reverse_append, takeWhile_append_of_head, List.reverse_reverse]
  · exact fun c hc => hrun c (List.mem_reverse.mp hc)
  · intro c hc
    apply hbefore
    rwa [List.head?_reverse] at hc

theorem leftPart_append (hrun : ∀ c ∈ run, isDotted c = true)
    (hstart : ∀ c, run.head? = some c → isNameStart c = true)
    (hbefore : ∀ c, before.getLast? = some c → isDotted c = false) :
    leftPart (before ++ run) = run := by
  rw [leftPart, takeWhile_reverse_append hrun hbefore]
  apply dropWhile_of_head
  intro c hc
  rw [hstart c hc, Bool.not_true]

/-- In the run or next to it, the two parts of the expression are the two parts of the run. -/
theorem expressionIn_of_isRun (h : IsRun before run after) (hbefore : before.length ≤ column)
    (hafter : column ≤ before.length + run.length) :
    expressionIn (before ++ run ++ after) column =
      if after.head?.any isQuote then none else some run := by
  obtain ⟨passed, rfl⟩ := Nat.exists_eq_add_of_le hbefore
  have hpassed : passed ≤ run.length := by omega
  have htake : (before ++ run ++ after).take (before.length + passed) =
      before ++ run.take passed := by
    rw [List.append_assoc, List.take_length_add_append, List.take_append_of_le_length hpassed]
  have hdrop : (before ++ run ++ after).drop (before.length + passed) =
      run.drop passed ++ after := by
    rw [List.append_assoc, List.drop_length_add_append, List.drop_append_of_le_length hpassed]
  have hleft : leftPart (before ++ run.take passed) = run.take passed := by
    apply leftPart_append _ _ h.before
    · exact fun c hc => h.dotted c (List.mem_of_mem_take hc)
    · intro c hc
      have hfirst : run.head? = some c := by
        rw [List.head?_take] at hc
        split at hc
        · cases hc
        · exact hc
      simpa only [hfirst, Option.any_some] using h.start
  have hrest : ∀ c ∈ run.drop passed, isDotted c = true :=
    fun c hc => h.dotted c (List.mem_of_mem_drop hc)
  have hne : run ≠ [] := by
    rintro rfl
    cases h.start
  simp only [expressionIn, htake, hdrop, hleft, takeWhile_append_of_head hrest h.after,
    dropWhile_append_of_head hrest h.after, List.take_append_drop, hne, or_false]

/-- Between characters that are not dotted there is no expression. -/
theorem expressionIn_of_neighbours (h : ∀ c ∈ neighbours line column, isDotted c = false) :
    expressionIn line column = none := by
  have hbefore : ∀ c, (line.take column).getLast? = some c → isDotted c = false :=
    fun c hc => h c (List.mem_append_left _ (Option.mem_toList.mpr hc))
  have hafter : ∀ c, (line.drop column).head? = some c → isDotted c = false :=
    fun c hc => h c (List.mem_append_right _ (Option.mem_toList.mpr hc))
  have hleft : leftPart (line.take column) = [] := by
    have hnone : ∀ c ∈ ([] : List Char), isDotted c = true := fun c hc => by cases hc
    have happend := leftPart_append hnone (fun c hc => by cases hc) hbefore
    rwa [List.append_nil] at happend
  have hright : (line.drop column).takeWhile isDotted = [] := by
    have hnone : ∀ c ∈ ([] : List Char), isDotted c = true := fun c hc => by cases hc
    exact takeWhile_append_of_head hnone hafter
  simp only [expressionIn, hleft, hright, List.append_nil, or_true, if_pos]

theorem expressionAt_of_line {lines : List String} {cursor : Position} {line : String}
    (h : lines[cursor.line]? = some line) :
    expressionAt lines cursor = (expressionIn line.toList cursor.column).map String.ofList := by
  rw [expressionAt, h]
  simp only [Option.bind_eq_bind, Option.bind_some]
  cases expressionIn line.toList cursor.column with
  | none => rfl
  | some value => rfl

/-- At each column of a dotted expression, both ends included, the cursor finds the whole expression, or
nothing when a quote follows it. Away from dotted characters it finds nothing. The line is never cut
inside a character. -/
theorem expressionAt_anywhere (lines : List String) (cursor : Position) :
    (∀ before run after, lines[cursor.line]? = some (String.ofList (before ++ run ++ after)) →
      IsRun before run after → before.length ≤ cursor.column →
        cursor.column ≤ before.length + run.length →
          expressionAt lines cursor =
            if after.head?.any isQuote then none else some (String.ofList run)) ∧
      (∀ line, lines[cursor.line]? = some line →
        (∀ c ∈ neighbours line.toList cursor.column, isDotted c = false) →
          expressionAt lines cursor = none) ∧
        expressionByCuts? lines cursor = some (expressionAt lines cursor) := by
  refine ⟨?_, ?_, ?_⟩
  · intro before run after hline hrun hbefore hafter
    rw [expressionAt_of_line hline, String.toList_ofList, expressionIn_of_isRun hrun hbefore hafter]
    split
    · rfl
    · rfl
  · intro line hline hneighbours
    rw [expressionAt_of_line hline, expressionIn_of_neighbours hneighbours, Option.map_none]
  · rw [expressionByCuts?]
    cases hline : lines[cursor.line]? with
    | none => rw [expressionAt, hline, Option.bind_eq_bind, Option.bind_none]
    | some line =>
      dsimp only
      rw [expressionAt_of_line hline, byteOffset, expressionAtByte?_eq, Option.map_some]

/-- A call between characters of several bytes. -/
theorem expressionAt_anywhere_call :
    let lines := ["é = «np.add»(x)", "f(\x22np.add\x22)"]
    IsRun "é = «".toList "np.add".toList "»(x)".toList ∧
      expressionAt lines ⟨0, 5⟩ = some "np.add" ∧ expressionAt lines ⟨0, 11⟩ = some "np.add" ∧
        expressionAt lines ⟨1, 9⟩ = none ∧ expressionAt lines ⟨0, 3⟩ = none := by
  intro lines
  have hcall : IsRun "é = «".toList "np.add".toList "»(x)".toList := by decide +kernel
  have hkey : IsRun "f(\x22".toList "np.add".toList "\x22)".toList := by decide +kernel
  have hapart : (neighbours "é = «np.add»(x)".toList 3).all (fun c => !isDotted c) = true := by
    decide +kernel
  refine ⟨hcall, ?_, ?_, ?_, ?_⟩
  · exact (expressionAt_anywhere lines ⟨0, 5⟩).1 _ _ _ rfl hcall (by decide) (by decide)
  · exact (expressionAt_anywhere lines ⟨0, 11⟩).1 _ _ _ rfl hcall (by decide) (by decide)
  · exact (expressionAt_anywhere lines ⟨1, 9⟩).1 _ _ _ rfl hkey (by decide) (by decide)
  · refine (expressionAt_anywhere lines ⟨0, 3⟩).2.1 _ rfl ?_
    intro c hc
    simpa using List.all_eq_true.mp hapart c hc

end CrossIndex.Python
