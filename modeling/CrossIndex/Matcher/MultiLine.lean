import CrossIndex.Matcher.Line

/-!
Matches of a pattern over a whole file, which may cross lines. The lines are joined with line feeds
and searched once; places in the joined text are mapped back to lines and columns.
-/

namespace CrossIndex

/-- The lines of a file, joined with line feeds. -/
def joinLines : List (List Char) → List Char
  | [] => []
  | [line] => line
  | line :: more => line ++ '\n' :: joinLines more

/-- For each line the index in the joined text right after its line feed; the first line starts at
`start`. -/
def lineEnds (start : Nat) : List (List Char) → List Nat
  | [] => []
  | line :: more =>
    let stop := start + line.length + 1
    stop :: lineEnds stop more

/-- The line that an index of the joined text lies in: the number of lines that end at it or
before. -/
def lineOf (lines : List (List Char)) (index : Nat) : Nat :=
  ((lineEnds 0 lines).takeWhile (· ≤ index)).length

/-- The index in the joined text at which a line starts. -/
def lineStart (lines : List (List Char)) (line : Nat) : Nat :=
  if line = 0 then 0 else (lineEnds 0 lines)[line - 1]?.getD 0

/-- The column of an index of the joined text in a line, at most its length. -/
def columnIn (lines : List (List Char)) (line index : Nat) : Nat :=
  let column := index - lineStart lines line
  match lines[line]? with
  | some text => min column text.length
  | none => column

/-- The range of a span of the joined text. It ends as many lines further on as the span has line
feeds. -/
def rangeOfSpan (lines : List (List Char)) (first last : Nat) : Range :=
  let span := ((joinLines lines).drop first).take (last - first)
  let startLine := lineOf lines first
  let stopLine := startLine + span.count '\n'
  ⟨⟨startLine, columnIn lines startLine first⟩, ⟨stopLine, columnIn lines stopLine last⟩⟩

/-- The matches of a pattern in a file, each with the range of all of it. -/
def Pattern.foundInFile (p : Pattern) (lines : List String) : List Found :=
  let lines := lines.map String.toList
  let text := joinLines lines
  (p.body.allMatches text).map fun place =>
    ⟨text, place, rangeOfSpan lines place.start place.stop.index⟩

end CrossIndex
