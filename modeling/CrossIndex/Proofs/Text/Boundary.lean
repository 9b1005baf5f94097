import CrossIndex.Proofs.Text.Column
import Mathlib.Data.Nat.Basic
import Mathlib.Order.Bounds.Basic
import Mathlib.Order.Monotone.Defs

/-!
Byte offsets between characters. The boundaries of a line are the byte offsets at which a character
starts, and its end. Main statement: columns and byte offsets undo each other, but for what lies past
the end of the line or inside of a character; and the search for a boundary that goes back from a byte
offset, byte by byte, finds one before it would leave the line.
-/

namespace CrossIndex.Text

variable {chars : List Char} {line : String} {offset column : Nat}

/-- The boundary at a byte offset or before it, found by going back byte by byte. A step back from the
start of the line fails. -/
def boundaryBefore? (line : String) : (offset : Nat) → Option Nat
  | 0 => if String.Pos.Raw.isValid line ⟨0⟩ then some 0 else none
  | offset + 1 =>
    if String.Pos.Raw.isValid line ⟨offset + 1⟩ then some (offset + 1)
    else boundaryBefore? line offset

/-- The column of a byte offset as it is counted in the bytes: the characters in the bytes up to the
boundary, in a number of 32 bits. Bytes that are cut inside of a character are no characters. -/
def columnInBytes? (line : String) (offset : Nat) : Option UInt32 := do
  let stop ← boundaryBefore? line (min offset line.utf8ByteSize)
  let before ← String.fromUTF8? (line.toUTF8.extract 0 stop)
  return .ofNat before.length

/-! ### Columns as characters before an offset -/

theorem charsBefore_le_length (chars : List Char) (offset : Nat) :
    charsBefore chars offset ≤ chars.length := by
  induction chars generalizing offset with
  | nil => exact Nat.le_refl 0
  | cons c chars ih =>
    rw [charsBefore]
    split
    · exact Nat.succ_le_succ (ih (offset - c.utf8Size))
    · exact Nat.zero_le _

/-- A column of the line lies before an offset just when all bytes before the column do. -/
theorem le_charsBefore_iff (h : column ≤ chars.length) :
    column ≤ charsBefore chars offset ↔ byteLength (chars.take column) ≤ offset := by
  induction chars generalizing column offset with
  | nil =>
    obtain rfl : column = 0 := Nat.le_zero.mp h
    exact iff_of_true (Nat.zero_le _) (Nat.zero_le _)
  | cons c chars ih =>
    cases column with
    | zero => exact iff_of_true (Nat.zero_le _) (Nat.zero_le _)
    | succ column =>
      have hrest := @ih (offset - c.utf8Size) column (Nat.le_of_succ_le_succ h)
      rw [List.take_succ_cons, byteLength, charsBefore]
      split
      · rw [Nat.succ_le_succ_iff, hrest]
        omega
      · omega

theorem byteLength_take_mono {column' : Nat} (h : column ≤ column') :
    byteLength (chars.take column) ≤ byteLength (chars.take column') := by
  obtain ⟨more, rfl⟩ := Nat.exists_eq_add_of_le h
  rw [List.take_add, byteLength_append]
  exact Nat.le_add_right _ _

theorem charColumn_le_length (line : String) (offset : Nat) :
    charColumn line offset ≤ line.length :=
  String.length_toList ▸ charsBefore_le_length line.toList offset

theorem monotone_byteOffset (line : String) : Monotone (byteOffset line) :=
  fun _ _ h => byteLength_take_mono h

theorem byteOffset_eq_utf8ByteSize (line : String) (column : Nat) :
    byteOffset line column = (String.ofList (line.toList.take column)).utf8ByteSize := by
  rw [← byteLength_toList, String.toList_ofList, byteOffset]

theorem byteOffset_of_length_le (h : line.length ≤ column) :
    byteOffset line column = line.utf8ByteSize := by
  have hlength : line.toList.length ≤ column := String.length_toList.symm ▸ h
  rw [byteOffset, List.take_of_length_le hlength, byteLength_toList]

theorem le_charColumn_iff (h : column ≤ line.length) :
    column ≤ charColumn line offset ↔ byteOffset line column ≤ offset :=
  le_charsBefore_iff (String.length_toList.symm ▸ h)

theorem monotone_charColumn (line : String) : Monotone (charColumn line) := by
  intro offset offset' h
  have hle := charColumn_le_length line offset
  rw [le_charColumn_iff hle]
  exact Nat.le_trans ((le_charColumn_iff hle).mp (Nat.le_refl _)) h

theorem charColumn_byteOffset (line : String) (column : Nat) :
    charColumn line (byteOffset line column) = min column line.length := by
  rcases Nat.le_total column line.length with hle | hle
  · rw [Nat.min_eq_left hle]
    exact charsBefore_byteLength_take (String.length_toList.symm ▸ hle)
  · have hend : charColumn line (byteOffset line line.length) = line.length :=
      charsBefore_byteLength_take (Nat.le_of_eq String.length_toList.symm)
    rw [Nat.min_eq_right hle, byteOffset_of_length_le hle,
      ← byteOffset_of_length_le (Nat.le_refl _), hend]

/-! ### Boundaries -/

/-- The boundaries of a line are the byte offsets of its columns. -/
theorem isValid_iff_exists_byteOffset :
    String.Pos.Raw.IsValid line ⟨offset⟩ ↔ ∃ column ≤ line.length, byteOffset line column = offset := by
  rw [String.Pos.Raw.isValid_iff_exists_take_toList]
  constructor
  · rintro ⟨column, hcolumn⟩
    have hoffset : byteOffset line column = offset :=
      (byteOffset_eq_utf8ByteSize line column).trans hcolumn.symm
    rcases Nat.le_total column line.length with hle | hle
    · exact ⟨column, hle, hoffset⟩
    · refine ⟨line.length, Nat.le_refl _, ?_⟩
      rw [← hoffset, byteOffset_of_length_le hle, byteOffset_of_length_le (Nat.le_refl _)]
  · rintro ⟨column, -, hoffset⟩
    exact ⟨column, hoffset.symm.trans (byteOffset_eq_utf8ByteSize line column)⟩

theorem isValid_byteOffset (line : String) (column : Nat) :
    String.Pos.Raw.IsValid line ⟨byteOffset line column⟩ :=
  String.Pos.Raw.isValid_iff_exists_take_toList.mpr ⟨column, byteOffset_eq_utf8ByteSize line column⟩

/-- The column of a byte offset leads back to the last boundary before it. -/
theorem isGreatest_byteOffset_charColumn (line : String) (offset : Nat) :
    IsGreatest {b | String.Pos.Raw.IsValid line ⟨b⟩ ∧ b ≤ min offset line.utf8ByteSize}
      (byteOffset line (charColumn line offset)) := by
  have hcolumn := charColumn_le_length line offset
  have hend : byteOffset line (charColumn line offset) ≤ line.utf8ByteSize := by
    rw [← byteOffset_of_length_le (Nat.le_refl line.length)]
    exact monotone_byteOffset line hcolumn
  have hoffset : byteOffset line (charColumn line offset) ≤ offset :=
    (le_charColumn_iff hcolumn).mp (Nat.le_refl _)
  refine ⟨⟨isValid_byteOffset line _, Nat.le_min.mpr ⟨hoffset, hend⟩⟩, ?_⟩
  rintro b ⟨hvalid, hb⟩
  obtain ⟨column, hle, rfl⟩ := isValid_iff_exists_byteOffset.mp hvalid
  apply monotone_byteOffset line
  exact (le_charColumn_iff hle).mpr (Nat.le_trans hb (Nat.min_le_left _ _))

/-- The way back ends at a boundary, for the start of the line is one. -/
theorem exists_boundaryBefore? (line : String) (offset : Nat) :
    ∃ b, boundaryBefore? line offset = some b ∧
      IsGreatest {b | String.Pos.Raw.IsValid line ⟨b⟩ ∧ b ≤ offset} b := by
  induction offset with
  | zero =>
    have hzero : String.Pos.Raw.IsValid line ⟨0⟩ := String.Pos.Raw.isValid_zero
    refine ⟨0, if_pos (String.Pos.Raw.isValid_eq_true_iff.mpr hzero), ⟨hzero, Nat.le_refl 0⟩, ?_⟩
    exact fun b hb => hb.2
  | succ offset ih =>
    rw [boundaryBefore?]
    split
    · next hvalid =>
      refine ⟨offset + 1, rfl, ⟨String.Pos.Raw.isValid_eq_true_iff.mp hvalid, Nat.le_refl _⟩, ?_⟩
      exact fun b hb => hb.2
    · next hvalid =>
      obtain ⟨b, hb, hgreatest⟩ := ih
      refine ⟨b, hb, ⟨hgreatest.1.1, Nat.le_succ_of_le hgreatest.1.2⟩, ?_⟩
      -- the offset itself is no boundary, so that the others lie before it
      rintro other ⟨hother, hle⟩
      have hne : other ≠ offset + 1 := by
        rintro rfl
        exact hvalid (String.Pos.Raw.isValid_eq_true_iff.mpr hother)
      exact hgreatest.2 ⟨hother, by omega⟩

theorem fromUTF8?_toByteArray (text : String) : String.fromUTF8? text.toByteArray = some text :=
  dif_pos text.isValidUTF8

/-- The bytes up to the boundary of a column are those of the characters before it. -/
theorem fromUTF8?_extract_byteOffset (line : String) (column : Nat) :
    String.fromUTF8? (line.toUTF8.extract 0 (byteOffset line column)) =
      some (String.ofList (line.toList.take column)) := by
  have hbytes : line.toByteArray = (String.ofList (line.toList.take column)).toByteArray ++
      (String.ofList (line.toList.drop column)).toByteArray := by
    rw [← String.toByteArray_append, ← String.ofList_append, List.take_append_drop,
      String.ofList_toList]
  have hsize : byteOffset line column =
      (String.ofList (line.toList.take column)).toByteArray.size := by
    rw [byteOffset_eq_utf8ByteSize, String.size_toByteArray]
  rw [String.toUTF8, hbytes, ByteArray.extract_append_eq_left hsize, fromUTF8?_toByteArray]

/-- Going back byte by byte from an offset ends where the column of the offset starts. -/
theorem boundaryBefore?_eq (line : String) (offset : Nat) :
    boundaryBefore? line (min offset line.utf8ByteSize) =
      some (byteOffset line (charColumn line offset)) := by
  obtain ⟨b, hb, hgreatest⟩ := exists_boundaryBefore? line (min offset line.utf8ByteSize)
  rw [hb, hgreatest.unique (isGreatest_byteOffset_charColumn line offset)]

theorem columnInBytes?_eq (line : String) (offset : Nat) :
    columnInBytes? line offset = some (.ofNat (charColumn line offset)) := by
  have hlength : (line.toList.take (charColumn line offset)).length = charColumn line offset := by
    rw [List.length_take, String.length_toList]
    exact Nat.min_eq_left (charColumn_le_length line offset)
  simp only [columnInBytes?, boundaryBefore?_eq, fromUTF8?_extract_byteOffset, String.length_ofList,
    hlength, Option.bind_eq_bind, Option.bind_some, Option.pure_def]

/-- Columns and byte offsets of a line undo each other up to its end and to the boundaries before byte
offsets. Both keep the order, every column leads to a boundary, and the column that is found by going
back byte by byte is the column of the byte offset. -/
theorem columns_undo_byteOffsets (hline : line.length < UInt32.size) :
    (∀ column, charColumn line (byteOffset line column) = min column line.length) ∧
      (∀ offset, IsGreatest
        {b | String.Pos.Raw.IsValid line ⟨b⟩ ∧ b ≤ min offset line.utf8ByteSize}
        (byteOffset line (charColumn line offset))) ∧
      Monotone (charColumn line) ∧ Monotone (byteOffset line) ∧
      (∀ column, String.Pos.Raw.IsValid line ⟨byteOffset line column⟩) ∧
      ∀ offset,
        boundaryBefore? line (min offset line.utf8ByteSize) =
            some (byteOffset line (charColumn line offset)) ∧
          (columnInBytes? line offset).map UInt32.toNat = some (charColumn line offset) := by
  refine ⟨charColumn_byteOffset line, isGreatest_byteOffset_charColumn line,
    monotone_charColumn line, monotone_byteOffset line, isValid_byteOffset line, ?_⟩
  intro offset
  refine ⟨boundaryBefore?_eq line offset, ?_⟩
  have hcolumn : charColumn line offset < UInt32.size :=
    Nat.lt_of_le_of_lt (charColumn_le_length line offset) hline
  rw [columnInBytes?_eq, Option.map_some, UInt32.toNat_ofNat_of_lt' hcolumn]

/-- A line with characters of two, three and four bytes. -/
theorem columns_undo_byteOffsets_wide :
    let line := "é = 字(😀)"
    line.length < UInt32.size ∧ line.utf8ByteSize = 14 ∧
      charColumn line 12 = 6 ∧ byteOffset line 6 = 9 ∧ boundaryBefore? line 12 = some 9 ∧
      (columnInBytes? line 12).map UInt32.toNat = some 6 ∧
      charColumn line (byteOffset line 30) = 8 := by
  intro line
  have hline : line.length < UInt32.size := by decide +kernel
  have hcolumn : charColumn line 12 = 6 := by decide +kernel
  have hoffset : byteOffset line 6 = 9 := by decide +kernel
  have hsize : min 12 line.utf8ByteSize = 12 := by decide +kernel
  obtain ⟨hback, -, -, -, -, hbytes⟩ := columns_undo_byteOffsets hline
  obtain ⟨hb, hcount⟩ := hbytes 12
  rw [hsize, hcolumn, hoffset] at hb
  rw [hcolumn] at hcount
  exact ⟨hline, by decide +kernel, hcolumn, hoffset, hb, hcount,
    (hback 30).trans (by decide +kernel)⟩

end CrossIndex.Text
