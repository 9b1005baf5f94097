import CrossIndex.FileTree
import CrossIndex.Scan.Naming

/-!
Globs: patterns of paths below a directory. A glob is a list of parts, one for each step down; a
part matches a name, or stands for any number of directories. In a name `?` stands for one
character, `*` for any text, `[...]` for one of some characters and `[!...]` for one of all others.
A glob is a text, and matches no name that is none.
-/

namespace CrossIndex

/-- A glob that cannot be read. -/
inductive GlobError where
  /-- More than two stars in a row. -/
  | manyStars
  /-- Two stars that are not a whole part. -/
  | partialDepth
  /-- A bracket that is not closed, or holds nothing. -/
  | badBracket
  deriving DecidableEq, Repr

/-- A span of characters in brackets, both ends included. -/
structure CharSpan where
  first : Char
  last : Char
  deriving DecidableEq, Repr

def CharSpan.holds (span : CharSpan) (c : Char) : Bool :=
  span.first ≤ c && c ≤ span.last

inductive GlobSign where
  | char (c : Char)
  | anyChar
  | anyText
  | oneOf (spans : List CharSpan)
  | noneOf (spans : List CharSpan)
  deriving DecidableEq, Repr

inductive GlobPart where
  /-- Any number of directories: `**`. -/
  | anyDepth
  | name (signs : List GlobSign)
  deriving DecidableEq, Repr

namespace Glob

/-- The spans between two brackets. -/
def spans : List Char → List CharSpan
  | a :: '-' :: b :: rest => ⟨a, b⟩ :: spans rest
  | a :: rest => ⟨a, a⟩ :: spans rest
  | [] => []

/-- The characters before a closing bracket, of which there is at least one, and the rest after
it. The first character never closes. -/
def bracketed? : List Char → Option (List Char × List Char)
  | [] => none
  | first :: rest =>
    match rest.dropWhile (· ≠ ']') with
    | [] => none
    | _ :: after => some (first :: rest.takeWhile (· ≠ ']'), after)

theorem length_of_bracketed? {text inside rest : List Char}
    (h : bracketed? text = some (inside, rest)) : rest.length < text.length := by
  cases text with
  | nil => simp [bracketed?] at h
  | cons first more =>
    have hs : (more.dropWhile (· ≠ ']')).length ≤ more.length :=
      (List.dropWhile_sublist _).length_le
    simp only [bracketed?] at h
    split at h
    · simp at h
    · next heq =>
      simp only [Option.some.injEq, Prod.mk.injEq] at h
      obtain ⟨-, rfl⟩ := h
      rw [heq] at hs
      simp only [List.length_cons] at hs ⊢
      omega

/-- The signs of a name pattern. -/
def signs (text : List Char) : Except GlobError (List GlobSign) :=
  match text with
  | [] => .ok []
  | '?' :: rest => do return .anyChar :: (← signs rest)
  | '*' :: '*' :: '*' :: _ => .error .manyStars
  | '*' :: '*' :: _ => .error .partialDepth
  | '*' :: rest => do return .anyText :: (← signs rest)
  | '[' :: '!' :: rest =>
    match _h : bracketed? rest with
    | some (inside, rest) => do return .noneOf (spans inside) :: (← signs rest)
    | none => .error .badBracket
  | '[' :: rest =>
    match _h : bracketed? rest with
    | some (inside, rest) => do return .oneOf (spans inside) :: (← signs rest)
    | none => .error .badBracket
  | c :: rest => do return .char c :: (← signs rest)
termination_by text.length
decreasing_by
  all_goals simp only [List.length_cons]
  any_goals have shorter := length_of_bracketed? _h
  all_goals omega

def part (text : List Char) : Except GlobError GlobPart :=
  if text = ['*', '*'] then .ok .anyDepth
  else do return .name (← signs text)

/-- Reads a glob: its parts stand between slashes. -/
def read (text : String) : Except GlobError (List GlobPart) :=
  (Text.splitOn '/' text.toList).mapM part

/-- A name matches the signs from one end to the other. -/
def nameMatches : List GlobSign → List Char → Bool
  | [], [] => true
  | [], _ :: _ => false
  | .anyText :: signs, [] => nameMatches signs []
  | .anyText :: signs, c :: rest =>
    nameMatches signs (c :: rest) || nameMatches (.anyText :: signs) rest
  | .char d :: signs, c :: rest => c == d && nameMatches signs rest
  | .anyChar :: signs, _ :: rest => nameMatches signs rest
  | .oneOf spans :: signs, c :: rest => spans.any (·.holds c) && nameMatches signs rest
  | .noneOf spans :: signs, c :: rest => !spans.any (·.holds c) && nameMatches signs rest
  | _ :: _, [] => false
termination_by signs text => signs.length + text.length

/-- The name is a text that matches the signs. -/
def accepts (naming : Naming) (signs : List GlobSign) (name : String) : Bool :=
  (naming.text? name).any fun text => nameMatches signs text.toList

/-- The text that signs without any choice stand for. -/
def literal? (signs : List GlobSign) : Option (List Char) :=
  signs.mapM fun
    | .char c => some c
    | _ => none

/-- The names below a directory that a name pattern picks. A pattern without choice picks the name
it spells, `.` and `..` among them; any other picks from the entries of the directory, and when it
starts with a dot also `..` and `.`. -/
def picks (naming : Naming) (tree : FileTree) (directory : Path) (signs : List GlobSign) :
    List String :=
  match literal? signs with
  | some text =>
    let name := naming.ofText (.ofList text)
    if tree.contains (directory.joinText name) then [name] else []
  | none =>
    match tree.locate? directory with
    | some place =>
      let dots := if signs.head? = some (.char '.') then ["..", "."] else []
      if tree.isDirectoryAt place then
        (dots ++ tree.children place).filter (accepts naming signs)
      else []
    | none => []

/-- The paths below a directory that a glob matches. What follows `**` is looked for at all depths;
`**` at the end matches directories alone, which are left out. -/
def expand (naming : Naming) (tree : FileTree) :
    (parts : List GlobPart) → (directory : Path) → List Path
  | [], path => [path]
  | .name signs :: parts, directory =>
    (picks naming tree directory signs).flatMap fun name =>
      expand naming tree parts (directory.joinText name)
  | [.anyDepth], _ => []
  | .anyDepth :: .anyDepth :: parts, directory => expand naming tree (.anyDepth :: parts) directory
  | .anyDepth :: .name signs :: parts, directory =>
    match tree.locate? directory with
    | some place =>
      ((tree.descendants place).filter fun names =>
        names.getLast?.any (accepts naming signs)).flatMap fun names =>
          expand naming tree parts (names.foldl Path.joinText directory)
    | none => []

end Glob

end CrossIndex
