import CrossIndex.Position

/-!
Windows of lines, and scans through them. Main statement: a scan through two adjoining windows finds
what the scan through both together finds.
-/

namespace CrossIndex

/-- The lines of a file from `first` on, up to `stop?` or to the end of the file. -/
structure Window where
  first : Nat
  stop? : Option Nat
  deriving DecidableEq, Repr, Inhabited

namespace Window

def all : Window := ⟨0, none⟩

/-- A line, the one above and the one below. -/
def around (line : Nat) : Window := ⟨line - 1, some (line + 2)⟩

/-- The indices of the first line and of the line after the last, in a file of so many lines. -/
def bounds (w : Window) (count : Nat) : Nat × Nat :=
  let stop := (w.stop?.map (min · count)).getD count
  (min w.first stop, stop)

end Window

/-- Applies a function to so many lines from the start of a list: it is given the index of each
line, the line, and the line below. -/
def scanLines {β : Type} (f : Nat → String → Option String → List β) :
    (index count : Nat) → List String → List β
  | _, 0, _ => []
  | _, _ + 1, [] => []
  | index, count + 1, line :: below =>
    f index line below.head? ++ scanLines f (index + 1) count below

/-- Applies a function to the lines of a window. -/
def Window.scan {β : Type} (w : Window) (lines : List String)
    (f : Nat → String → Option String → List β) : List β :=
  let (first, stop) := w.bounds lines.length
  scanLines f first (stop - first) (lines.drop first)

theorem scanLines_add {β : Type} (f : Nat → String → Option String → List β)
    (index m n : Nat) (lines : List String) :
    scanLines f index (m + n) lines =
      scanLines f index m lines ++ scanLines f (index + m) n (lines.drop m) := by
  induction m generalizing index lines with
  | zero => simp [scanLines]
  | succ m ih =>
    cases lines with
    | nil => rw [Nat.add_right_comm]; cases n <;> simp [scanLines]
    | cons line below =>
      rw [Nat.add_right_comm, scanLines, ih]
      simp [scanLines, Nat.add_assoc, Nat.add_comm 1 m]

end CrossIndex
