import CrossIndex.Path.Extension

/-!
Module paths. The module path of a source file is its path with `.` and `..` folded away and a final
`.py` dropped; no disk is asked.
-/

namespace CrossIndex

/-- One component more on a folded path, of which `names` are the components in reverse. At the root
and above it `..` leads nowhere; above the start of a relative path it stays. -/
def foldComponent (rooted : Bool) (names : List Component) : Component → List Component
  | .root | .current => names
  | .parent =>
    match names with
    | .name _ :: rest => rest
    | _ => if rooted then names else .parent :: names
  | .name text => .name text :: names

/-- The components left after folding, in order. -/
def foldComponents (rooted : Bool) (components : List Component) : List Component :=
  (components.foldl (foldComponent rooted) []).reverse

/-- The path with `.` and `..` folded away. -/
def Path.folded (p : Path) : Path :=
  let names := (foldComponents p.isAbsolute p.components).map Component.text
  ofParts (if p.isAbsolute then [""] else []) names

/-- The module path of a source file. -/
def modulePath (p : Path) : Path :=
  let folded := p.folded
  if folded.extension? = some "py" then folded.withoutExtension else folded

/-- The name of the module that stands for its directory. -/
def initName : String := "__init__"

/-- The file of a module path. -/
def sourceFile (module : Path) : Path := module.append ".py"

end CrossIndex
