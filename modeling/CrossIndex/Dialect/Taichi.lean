import CrossIndex.Fact
import CrossIndex.Matcher.MultiLine
import CrossIndex.Path.Extension

/-!
The dialect of Taichi: bindings made in C++, which may cross lines, and reached from Python through
a module called `core`.
-/

namespace CrossIndex.Taichi

/-- The characters of a C++ type that stands as an argument of a template. -/
def typeChars : CharClass :=
  .unions [.upper, .lower, .asciiDigit, .ofString "_:<>"]

def nameChars : CharClass := .unions [.upper, .lower, .asciiDigit, .single '_']

/-- More arguments, each after a comma. -/
def moreArguments (group : Nat) (chars : CharClass) : Regex :=
  .star true (.group group (.seqs [.char ',', .blanks, .plus true (.one chars)]))

/-- A function bound with `.def("name"`. -/
def boundFunction : Pattern :=
  ⟨.seqs [.text ".def(", .blanks, .char '\x22',
    .group 1 (.plus true (.one (.unions [.lower, .asciiDigit, .single '_']))), .char '\x22'],
    [("key", 1)]⟩

/-- A class bound with `py::class_<Type>(m, "Name")`. -/
def boundClass : Pattern :=
  ⟨.seqs [.text "py::class_<", .plus true (.one typeChars), moreArguments 1 typeChars, .char '>',
    .blanks, .char '(', .blanks, .text "m,", .blanks, .char '\x22',
    .group 2 (.plus true (.one nameChars)), .char '\x22',
    moreArguments 3 (.union typeChars (.ofString "()")), .char ')'], [("key", 2)]⟩

def coreUse : Pattern :=
  ⟨.seqs [.opt true (.one (.ofString "._")), .text "core.",
    .group 1 (.plus true (.one nameChars))], [("key", 1)]⟩

/-- The facts of a source. A native source is always searched as a whole, since bindings cross
lines. -/
def extract (path : Path) (lines : List String) (w : Window) : List Fact :=
  match SourceKind.of path with
  | .native =>
    [boundFunction, boundClass].flatMap fun pattern =>
      (pattern.foundInFile lines).map fun found =>
        .define (found.named pattern "key") path found.range
  | .python =>
    (coreUse.foundInLines lines w).map fun found =>
      .refer (found.named coreUse "key") path found.range
  | .other => []

end CrossIndex.Taichi
