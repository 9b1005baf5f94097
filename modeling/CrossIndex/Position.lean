/-!
Places in a text. A position is a line and a column, both counted from zero; a range runs from one
position to another and may cross lines. Lines and columns are natural numbers. They stand for numbers
of 32 bits, and are the same as these for texts of at most 2^32 lines with at most 2^32 - 1 characters
in each; longer texts are not considered.
-/

namespace CrossIndex

/-- A place in a text. The column counts characters. Both numbers are meant to be below 2^32. -/
structure Position where
  line : Nat
  column : Nat
  deriving DecidableEq, Repr, Inhabited

namespace Position

/-- Positions are ordered by line, then by column. -/
def compare (p q : Position) : Ordering :=
  (Ord.compare p.line q.line).then (Ord.compare p.column q.column)

instance : Ord Position := ⟨Position.compare⟩

instance : LE Position := ⟨fun p q => p.line < q.line ∨ p.line = q.line ∧ p.column ≤ q.column⟩

instance (p q : Position) : Decidable (p ≤ q) :=
  inferInstanceAs (Decidable (p.line < q.line ∨ p.line = q.line ∧ p.column ≤ q.column))

theorem le_def (p q : Position) :
    p ≤ q ↔ p.line < q.line ∨ p.line = q.line ∧ p.column ≤ q.column := Iff.rfl

end Position

/-- The span from one position up to another. -/
structure Range where
  start : Position
  stop : Position
  deriving DecidableEq, Repr, Inhabited

namespace Range

/-- The range from one column of a line to another, each of them below 2^32. -/
def onLine (line first last : Nat) : Range :=
  ⟨⟨line, first⟩, ⟨line, last⟩⟩

/-- A cursor touches a range from its start to right after its last character. -/
def touches (r : Range) (cursor : Position) : Bool :=
  decide (r.start ≤ cursor ∧ cursor ≤ r.stop)

/-- The range ends on another line than it starts on. -/
def isMultiline (r : Range) : Bool :=
  r.start.line != r.stop.line

end Range

end CrossIndex
