import CrossIndex.Dialect.Packed

/-!
The dialect of TVM: packed functions, the older registrations of constructors and passes, and the
decorators of Relay nodes.
-/

namespace CrossIndex.Tvm

def names : PackedNames :=
  ⟨"tvm", ["TVM_REGISTER_API", "TVM_REGISTER_GLOBAL"], ["register_object", "register_relay_node"]⟩

/-- ASCII letters and digits that make up a key. -/
def plainKey : Regex := .group 2 (.plus true (.one .alnum))

def makePattern : Pattern :=
  ⟨.seqs [.anchor .textStart, .blanks,
    .group 1 (.alt (.text "REGISTER_MAKE") (.text "REGISTER_MAKE_BINARY_OP")), .char '(',
    plainKey], [("key", 2)]⟩

def passPattern : Pattern :=
  ⟨.seqs [.anchor .textStart, .blanks, .text "REGISTER_PASS", .char '(', plainKey, .char ')'],
    [("key", 2)]⟩

/-- The definitions of a pattern whose keys belong to a name space, in the native file of the given
name. -/
def inFile (file space : String) (pattern : Pattern) (path : Path) (lines : List String)
    (w : Window) : List Fact :=
  if path.fileName? = some file then
    (pattern.foundInLines lines w).map fun found =>
      .define (space ++ "." ++ found.named pattern "key") path found.range
  else []

/-- The type key of a class: nodes of Relay have a name space of their own. -/
def typeKeyOf (key decorator : String) : String :=
  if "relay_node".toList.isSuffixOf decorator.toList then "t:relay." ++ key else "t:" ++ key

def extract (paths? : Option PackagePaths) (resolver : Resolver) (path : Path)
    (lines : List String) (w : Window) : List Fact :=
  match SourceKind.of path with
  | .native =>
    Packed.native names path lines w
      ++ inFile "api_ir.cc" "make" makePattern path lines w
      ++ inFile "api_pass.cc" "ir_pass" passPattern path lines w
  | .python => Packed.python names paths? typeKeyOf resolver path lines w
  | .other => []

end CrossIndex.Tvm
