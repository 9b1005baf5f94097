import CrossIndex.Fact
import CrossIndex.Matcher.Line
import CrossIndex.Path.Extension

/-!
The dialect of MXNet: a flat interface of C functions, called from Python through `_LIB`.
-/

namespace CrossIndex.Mxnet

def functionName : Regex := .group 1 (.seq (.text "MX") (.plus true (.one .alnum)))

def declaration : Pattern :=
  ⟨.seqs [.anchor .textStart, .blanks, .text "int", .blanks, functionName], [("key", 1)]⟩

/-- The last use of a function of the interface on a line. -/
def libraryUse : Pattern :=
  ⟨.seqs [.anchor .textStart, .star true (.one .noLineFeed), .text "_LIB.", functionName],
    [("key", 1)]⟩

/-- One text occurs anywhere in another. -/
def occursIn (part : List Char) : List Char → Bool
  | [] => part.isEmpty
  | c :: rest => part.isPrefixOf (c :: rest) || occursIn part rest

def mentions (path : Path) (text : String) : Bool :=
  occursIn text.toList path.toString.toList

/-- The facts of a source: declarations in the native files of the interface. -/
def extract (path : Path) (lines : List String) (w : Window) : List Fact :=
  if SourceKind.of path = .native ∧ mentions path "c_api" then
    (declaration.foundInLines lines w).map fun found =>
      .define (found.named declaration "key") path found.range
  else []

/-- The uses in a Python source, which are looked for around a cursor only. -/
def uses (path : Path) (lines : List String) (w : Window) : List Fact :=
  (libraryUse.foundInLines lines w).map fun found =>
    .refer (found.named libraryUse "key") path found.range

end CrossIndex.Mxnet
