import CrossIndex.Matcher.Window
import CrossIndex.Regex.Pattern

/-!
Matches of a pattern line by line, one for each line at most.
-/

namespace CrossIndex

/-- A match of a pattern in a text, with the range that it is reported with. -/
structure Found where
  text : List Char
  place : Match
  range : Range
  deriving Repr, Inhabited

namespace Found

def groups (p : Pattern) (f : Found) : List (Option String) :=
  p.groupTexts f.text f.place

/-- The text of a named group; a group that took no part has an empty one. -/
def named (p : Pattern) (f : Found) (name : String) : String :=
  match p.named? f.place name with
  | some (first, last) => slice f.text first last
  | none => ""

end Found

namespace Pattern

def foundIn (p : Pattern) (index : Nat) (line : String) : Option Found := do
  let text := line.toList
  let place ← p.body.search? text
  let (first, last) := p.reportedSpan place
  return ⟨text, place, Range.onLine index first last⟩

def foundInLines (p : Pattern) (lines : List String) (w : Window) : List Found :=
  w.scan lines fun index line _ => (p.foundIn index line).toList

end Pattern

end CrossIndex
