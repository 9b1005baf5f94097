import CrossIndex.Text.Split

/-!
The lines of a text. A line feed ends a line and takes one carriage return before it along; a text
that ends in a line feed has no empty line after it.
-/

namespace CrossIndex.Text

/-- Drops one carriage return at the end. -/
def dropReturn (line : List Char) : List Char :=
  if line.getLast? = some '\r' then line.dropLast else line

/-- The lines of a list of characters. The last piece was ended by no line feed, so it keeps its
carriage return and is no line when it is empty. -/
def lineList (text : List Char) : List (List Char) :=
  let cut := splitOn '\n' text
  cut.dropLast.map dropReturn ++ cut.getLast?.toList.filter (!·.isEmpty)

def lines (text : String) : List String :=
  (lineList text.toList).map String.ofList

@[simp] theorem lines_empty : lines "" = [] := by
  simp [lines, lineList]

end CrossIndex.Text
