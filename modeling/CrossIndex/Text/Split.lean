/-!
Cutting texts into pieces at a character, and joining pieces.
-/

namespace CrossIndex.Text

/-- Cuts a text at every occurrence of a character, which belongs to no piece. There is always at
least one piece. -/
def splitOn (separator : Char) (text : List Char) : List (List Char) :=
  text.foldr
    (fun c pieces =>
      if c = separator then [] :: pieces
      else match pieces with
        | [] => [[c]]
        | piece :: more => (c :: piece) :: more)
    [[]]

/-- Joins pieces, with the separator between neighbours. -/
def joinWith (separator : Char) : List (List Char) → List Char
  | [] => []
  | [piece] => piece
  | piece :: more => piece ++ separator :: joinWith separator more

@[simp] theorem splitOn_nil (separator : Char) : splitOn separator [] = [[]] := rfl

theorem splitOn_cons (separator c : Char) (text : List Char) :
    splitOn separator (c :: text) =
      if c = separator then [] :: splitOn separator text
      else match splitOn separator text with
        | [] => [[c]]
        | piece :: more => (c :: piece) :: more := rfl

theorem splitOn_ne_nil (separator : Char) (text : List Char) : splitOn separator text ≠ [] := by
  cases text with
  | nil => simp
  | cons c text =>
    rw [splitOn_cons]
    split
    · simp
    · split <;> simp

/-- The pieces of a string between the occurrences of a character. -/
def pieces (separator : Char) (text : String) : List String :=
  (splitOn separator text.toList).map String.ofList

end CrossIndex.Text
