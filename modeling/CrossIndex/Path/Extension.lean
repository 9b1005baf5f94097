import CrossIndex.Path.Basic

/-!
Extensions of file names. The extension is what follows the last dot of a name; a name has none when
its only dot comes first.
-/

namespace CrossIndex

/-- A name cut at its last dot, when there is a dot after the first character. -/
def splitExtension? (name : List Char) : Option (List Char × List Char) :=
  let extension := (name.reverse.takeWhile (· ≠ '.')).reverse
  let stem := name.take (name.length - extension.length - 1)
  if extension.length < name.length ∧ stem ≠ [] then some (stem, extension) else none

namespace Path

/-- The extension of the last component, without its dot. -/
def extension? (p : Path) : Option String := do
  let name ← p.fileName?
  let (_, extension) ← splitExtension? name.toList
  return String.ofList extension

/-- The path without the extension of its last component, and without filler after it. -/
def withoutExtension (p : Path) : Path :=
  match p.fileName?, (dropFiller p.body) with
  | some name, body@(_ :: _) =>
    match splitExtension? name.toList with
    | some (stem, _) => ofParts p.front (body.dropLast ++ [String.ofList stem])
    | none => ofParts p.front body
  | _, _ => p

end Path

/-- The kind of a source file, by its extension. -/
inductive SourceKind where
  /-- Python sources: `.py`. -/
  | python
  /-- C and C++ sources: `.h`, `.cc` and `.cpp`. -/
  | native
  | other
  deriving DecidableEq, Repr

def SourceKind.of (p : Path) : SourceKind :=
  match p.extension? with
  | some "py" => .python
  | some "h" | some "cc" | some "cpp" => .native
  | _ => .other

end CrossIndex
