import CrossIndex.FileTree
import CrossIndex.Toml.Reader

/-!
The settings of a source tree, kept in a TOML file in its root. Every section and every field may be
missing, and unknown ones are passed over. A section may also be an array, which holds its fields in
order.
-/

namespace CrossIndex

structure Settings where
  /-- The directories below the root that are scanned. -/
  scanDirs : List String
  /-- The extensions of the files that are indexed, without the dot. -/
  extensions : List String
  /-- The names of the dialects; when there are none they are detected. -/
  enabled : List String
  deriving DecidableEq, Repr

/-- Why there are no settings. -/
inductive SettingsError where
  /-- The file is no text. -/
  | unreadable
  /-- The text is not TOML, or a field has a wrong type. -/
  | invalid
  deriving DecidableEq, Repr

namespace Settings

/-- The settings of a tree without a file of its own. -/
def default : Settings := ⟨["src", "include", "python"], ["py", "h", "cc", "cpp"], []⟩

instance : Inhabited Settings := ⟨default⟩

def fileName : String := "ffi-navigator.toml"

def strings? : Toml → Option (List String)
  | .array items => items.mapM fun
    | .string text => some text
    | _ => none
  | _ => none

/-- The value of a field, or its default when it is missing. -/
def fieldOr (default : List String) : Option Toml → Option (List String)
  | none => some default
  | some value => strings? value

/-- The values of the named fields of a section: by their keys in a table, and by their places in an
array. A date has no fields. -/
def fields (names : List String) : Option Toml → Option (List (Option Toml))
  | none | some (.datetime _) => some (names.map fun _ => none)
  | some (.table members) => some (names.map (Toml.member? members))
  | some (.array items) => some (names.zipIdx.map fun (_, index) => items[index]?)
  | some _ => none

/-- The settings in the members of a document. -/
def ofToml? (members : List (String × Toml)) : Option Settings := do
  let [scanDirs, extensions] ←
    fields ["scan_dirs", "extensions"] (Toml.member? members "workspace") | none
  let [enabled] ← fields ["enabled"] (Toml.member? members "dialects") | none
  return {
    scanDirs := ← fieldOr default.scanDirs scanDirs
    extensions := ← fieldOr default.extensions extensions
    enabled := ← fieldOr default.enabled enabled }

def read? (text : String) : Option Settings := do
  ofToml? (← Toml.read? text)

/-- The settings of the tree below a root. Without a file they are the default ones. -/
def load (tree : FileTree) (root : Path) : Except SettingsError Settings :=
  match tree.read? (root.joinText fileName) with
  | none => .ok default
  | some bytes =>
    match Text.decodeUtf8? bytes with
    | none => .error .unreadable
    | some text =>
      match read? text with
      | none => .error .invalid
      | some settings => .ok settings

end Settings

end CrossIndex
