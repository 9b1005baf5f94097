import CrossIndex.Dialect.Packed

/-!
The dialect of DGL: packed functions under names of its own.
-/

namespace CrossIndex.Dgl

def names : PackedNames :=
  ⟨"dgl", ["DGL_REGISTER_API", "DGL_REGISTER_GLOBAL"], ["register_object"]⟩

def extract (paths? : Option PackagePaths) (resolver : Resolver) (path : Path)
    (lines : List String) (w : Window) : List Fact :=
  match SourceKind.of path with
  | .native => Packed.native names path lines w
  | .python =>
    Packed.python names paths? (fun key _ => "t:" ++ key) resolver path lines w
  | .other => []

end CrossIndex.Dgl
