import CrossIndex.Matcher.Line
import CrossIndex.Regex.Reader

/-!
Keys given by name: calls `NAME("key")` at the start of a line or anywhere, for a fixed list of
names.
-/

namespace CrossIndex

/-- A key, the name that produced it as written, and the range of the key itself. -/
structure KeyHit where
  name : String
  key : String
  range : Range
  deriving DecidableEq, Repr, Inhabited

namespace Pattern

/-- The first of the names that leads to a match. -/
def anyName (names : List String) : Regex :=
  .alts (names.map .text)

def quote : Regex := .char '\x22'

/-- A group of one character or more that are no double quotes. -/
def keyGroup (index : Nat) : Regex :=
  .group index (.plus true (.one (.compl (.single '\x22'))))

/-- The names of the two groups of a key and what produced it. -/
def keyNames : List (String × Nat) := [("name", 1), ("key", 2)]

/-- `NAME("key"` after blanks at the start of a line. -/
def registration (names : List String) : Pattern :=
  ⟨.seqs [.anchor .textStart, .blanks, .group 1 (anyName names), .char '(', quote, keyGroup 2,
    quote], keyNames⟩

/-- `NAME("key")` anywhere. -/
def callSite (names : List String) : Pattern :=
  ⟨.seqs [.group 1 (anyName names), .char '(', quote, keyGroup 2, quote, .char ')'], keyNames⟩

/-- A pattern of names needs at least one. -/
def ofNames (make : List String → Pattern) (names : List String) : Except PatternError Pattern :=
  if names = [] then .error .noNames else .ok (make names)

/-- The key of a match in one line. -/
def keyHit? (p : Pattern) (index : Nat) (text : List Char) (place : Match) : Option KeyHit := do
  let (nameFirst, nameLast) ← p.named? place "name"
  let (first, last) ← p.named? place "key"
  return ⟨slice text nameFirst nameLast, slice text first last, Range.onLine index first last⟩

/-- The keys of a pattern in the lines of a window, one for each line at most. -/
def lineKeys (p : Pattern) (lines : List String) (w : Window) : List KeyHit :=
  w.scan lines fun index line _ =>
    let text := line.toList
    ((p.body.search? text).bind (p.keyHit? index text)).toList

/-- All keys of a pattern in the lines of a window. -/
def allKeys (p : Pattern) (lines : List String) (w : Window) : List KeyHit :=
  w.scan lines fun index line _ =>
    let text := line.toList
    (p.body.allMatches text).filterMap (p.keyHit? index text)

end Pattern

end CrossIndex
