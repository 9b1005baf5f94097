import CrossIndex.Regex.Match

/-!
Patterns: regular expressions whose groups have names.
-/

namespace CrossIndex

/-- A regular expression with the names of its groups. -/
structure Pattern where
  body : Regex
  names : List (String × Nat)
  deriving DecidableEq, Repr, Inhabited

def slice (text : List Char) (first last : Nat) : String :=
  String.ofList ((text.drop first).take (last - first))

namespace Pattern

/-- The span of a named group, when the pattern has it and it took part in the match. -/
def named? (p : Pattern) (m : Match) (name : String) : Option (Nat × Nat) := do
  let index ← p.names.lookup name
  m.span? index

/-- The span that a match is reported with: the group `key` if it took part, else all of the
match. -/
def reportedSpan (p : Pattern) (m : Match) : Nat × Nat :=
  (p.named? m "key").getD (m.start, m.stop.index)

/-- The texts of all groups, the whole match first. -/
def groupTexts (p : Pattern) (text : List Char) (m : Match) : List (Option String) :=
  (List.range p.body.groupCount).map fun index =>
    (m.span? index).map fun (first, last) => slice text first last

end Pattern

end CrossIndex
