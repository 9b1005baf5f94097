import CrossIndex.Fact
import CrossIndex.Matcher.Line
import CrossIndex.Path.Extension

/-!
The dialect of PyTorch: operators registered in C++ with `.op("ns::name")` and surfaced through
generated tables of bindings; Python code reaches them as `torch.ops.ns.name` or `torch.name`.
-/

namespace CrossIndex.Torch

def operatorChars : CharClass := .unions [.lower, .asciiDigit, .single '_']

/-- The key of an operator with its name space, in a group. -/
def operatorKey : Regex :=
  .group 1 (.plus true (.one (.union operatorChars (.single ':'))))

/-- A registration `.op("ns::name...")`. -/
def registration : Pattern :=
  ⟨.seqs [.text ".op(", .blanks, .char '\x22', operatorKey,
    .group 2 (.star true (.one .noLineFeed)), .char '\x22'], [("key", 1)]⟩

/-- An entry of a generated table of bindings. -/
def binding : Pattern :=
  ⟨.seqs [.char '\x7b', .char '\x22', operatorKey, .char '\x22'], [("key", 1)]⟩

/-- A use `ops.ns.name`. -/
def operatorUse : Pattern :=
  ⟨.seqs [.text "ops.", .group 1 (.plus true (.one operatorChars)), .char '.',
    .group 2 (.plus true (.one operatorChars))], [("namespace", 1), ("op", 2)]⟩

/-- A use `torch.name`, through any number of modules. -/
def methodUse : Pattern :=
  ⟨.seqs [.text "torch.",
    .star true (.group 1 (.seq (.plus true (.one (.union .alnum (.single '_')))) (.char '.'))),
    .group 2 (.plus true (.one operatorChars))], [("op", 2)]⟩

def bindingFiles : List String :=
  ["python_nn_functions.cpp", "python_torch_functions.cpp", "python_variable_methods.cpp"]

def isBindingFile (path : Path) : Bool :=
  bindingFiles.any fun file => path.endsWith ((Path.ofString "generated").joinText file)

/-- The path is one of a C++ source that is no test. -/
def isScanned (path : Path) : Bool :=
  path.extension? = some "cpp" &&
    !path.fileName?.any fun name => "_test.cpp".toList.isSuffixOf name.toList

/-- The facts of a source: registrations, and the entries of generated tables. -/
def extract (path : Path) (lines : List String) (w : Window) : List Fact :=
  if isScanned path then
    (registration.foundInLines lines w).map
        (fun found => .define (found.named registration "key") path found.range)
      ++ (if isBindingFile path then
          (binding.foundInLines lines w).map fun found =>
            .define ("aten:" ++ found.named binding "key") path found.range
        else [])
  else []

/-- The uses in a Python source, which are looked for around a cursor only. -/
def uses (path : Path) (lines : List String) (w : Window) : List Fact :=
  (operatorUse.foundInLines lines w).map
      (fun found => .refer
        (found.named operatorUse "namespace" ++ "::" ++ found.named operatorUse "op")
        path found.range)
    ++ (methodUse.foundInLines lines w).map
      (fun found => .refer ("aten:" ++ found.named methodUse "op") path found.range)

end CrossIndex.Torch
