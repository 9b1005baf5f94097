import CrossIndex.Text.Column
import Mathlib.Order.Bounds.Defs

/-!
Columns, bytes and UTF-16 units. Main statements: the bytes of a string are those of its characters; a
unit column stands for the least column at which so many units have been passed, or for the end of
the line; and the column of the units of a column is that column.
-/

namespace CrossIndex.Text

theorem byteLength_toList (text : String) : byteLength text.toList = text.utf8ByteSize := by
  have hchars : ∀ chars : List Char, byteLength chars = (String.ofList chars).utf8ByteSize := by
    intro chars
    induction chars with
    | nil => rfl
    | cons c chars ih =>
      rw [byteLength, ih, ← List.singleton_append, String.ofList_append, String.utf8ByteSize_append]
      congr 1
      simp
  rw [hchars, String.ofList_toList]

variable {chars : List Char} {line : String} {units column : Nat}

theorem byteLength_append (chars more : List Char) :
    byteLength (chars ++ more) = byteLength chars + byteLength more := by
  induction chars with
  | nil => exact (Nat.zero_add _).symm
  | cons c chars ih => rw [List.cons_append, byteLength, byteLength, ih, Nat.add_assoc]

/-- The characters before the byte offset of a column are those before the column. -/
theorem charsBefore_byteLength_take (h : column ≤ chars.length) :
    charsBefore chars (byteLength (chars.take column)) = column := by
  induction chars generalizing column with
  | nil => exact (Nat.le_zero.mp h).symm
  | cons c chars ih =>
    cases column with
    | zero =>
      have hc := Char.utf8Size_pos c
      have hle : ¬c.utf8Size ≤ 0 := by omega
      rw [List.take_zero, byteLength, charsBefore, if_neg hle]
    | succ column =>
      have hle : c.utf8Size ≤ c.utf8Size + byteLength (chars.take column) := Nat.le_add_right _ _
      rw [List.take_succ_cons, byteLength, charsBefore, if_pos hle, Nat.add_sub_cancel_left,
        ih (Nat.le_of_succ_le_succ h)]

theorem unitSize_pos (c : Char) : 0 < unitSize c := by
  rw [unitSize]
  split
  · exact Nat.one_pos
  · exact Nat.two_pos

theorem charsToUnits_le_length (chars : List Char) (units : Nat) :
    charsToUnits chars units ≤ chars.length := by
  induction chars generalizing units with
  | nil => exact Nat.le_refl 0
  | cons c chars ih =>
    rw [charsToUnits]
    split
    · exact Nat.zero_le _
    · exact Nat.succ_le_succ (ih (units - unitSize c))

/-- Every column before that of a unit column has passed fewer units. -/
theorem unitLength_take_lt (h : column < charsToUnits chars units) :
    unitLength (chars.take column) < units := by
  induction chars generalizing units column with
  | nil => exact absurd h (Nat.not_lt_zero column)
  | cons c chars ih =>
    rw [charsToUnits] at h
    split at h
    · exact absurd h (Nat.not_lt_zero column)
    · next hunits =>
      cases column with
      | zero => exact Nat.pos_of_ne_zero hunits
      | succ column =>
        have hrest : unitLength (chars.take column) < units - unitSize c :=
          ih (Nat.lt_of_succ_lt_succ h)
        rw [List.take_succ_cons, unitLength]
        omega

/-- The column of a unit column has passed so many units, unless it is the end of the line. -/
theorem le_unitLength_take (h : charsToUnits chars units ≠ chars.length) :
    units ≤ unitLength (chars.take (charsToUnits chars units)) := by
  induction chars generalizing units with
  | nil => exact absurd rfl h
  | cons c chars ih =>
    rw [charsToUnits] at h ⊢
    split
    · next hunits => exact Nat.le_of_eq hunits
    · next hunits =>
      rw [if_neg hunits] at h
      have hrest : units - unitSize c ≤
          unitLength (chars.take (charsToUnits chars (units - unitSize c))) :=
        ih fun he => h (congrArg (· + 1) he)
      rw [List.take_succ_cons, unitLength]
      omega

theorem charsToUnits_unitLength_take (h : column ≤ chars.length) :
    charsToUnits chars (unitLength (chars.take column)) = column := by
  induction chars generalizing column with
  | nil => exact (Nat.le_zero.mp h).symm
  | cons c chars ih =>
    cases column with
    | zero => rfl
    | succ column =>
      have hpos : unitSize c + unitLength (chars.take column) ≠ 0 := by
        have hc := unitSize_pos c
        omega
      rw [List.take_succ_cons, unitLength, charsToUnits, if_neg hpos, Nat.add_sub_cancel_left,
        ih (Nat.le_of_succ_le_succ h)]

/-- The column of a unit column is the least one at which so many units have been passed, and the end
of the line when there is none. -/
theorem isLeast_columnOfUnits (line : String) (units : Nat) :
    IsLeast {column | units ≤ unitsOfColumn line column ∨ column = line.length}
      (columnOfUnits line units) := by
  have hlength : line.toList.length = line.length := String.length_toList
  constructor
  · by_cases hend : columnOfUnits line units = line.length
    · exact Or.inr hend
    · exact Or.inl (le_unitLength_take (hlength ▸ hend))
  · rintro column (hunits | rfl)
    · refine Nat.le_of_not_lt fun hlt => ?_
      exact absurd hunits (Nat.not_le_of_lt (unitLength_take_lt hlt))
    · exact hlength ▸ charsToUnits_le_length line.toList units

/-- A column of a line comes back from its unit column. -/
theorem columnOfUnits_unitsOfColumn (h : column ≤ line.length) :
    columnOfUnits line (unitsOfColumn line column) = column :=
  charsToUnits_unitLength_take (String.length_toList.symm ▸ h)

end CrossIndex.Text
