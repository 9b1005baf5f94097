import CrossIndex.Text.Blank
import CrossIndex.Text.Word
import CrossIndex.Text.Split

/-!
Import statements of Python. A statement is read from one line; of a statement that goes on over
several lines only the names on its first line count.
-/

namespace CrossIndex.Python

/-- One imported name: `from module import name as alias`, or `import name as alias` without a
module. -/
structure Import where
  module? : Option String
  name : String
  alias? : Option String
  deriving DecidableEq, Repr

/-- The name that an import binds: its alias, else the name itself, of which a plain import binds
only the part before the first dot. -/
def Import.localName (i : Import) : String :=
  match i.alias?, i.module? with
  | some other, _ => other
  | none, some _ => i.name
  | none, none => String.ofList (i.name.toList.takeWhile (· ≠ '.'))

/-- The rest of a text after a word at its start. -/
def afterWord? (word : String) (text : List Char) : Option (List Char) :=
  if word.toList.isPrefixOf text then some (text.drop word.length) else none

def afterBlanks? (text : List Char) : Option (List Char) :=
  match text with
  | c :: rest => if Text.isBlank c then some (rest.dropWhile Text.isBlank) else none
  | [] => none

def codeOf (line : List Char) : List Char :=
  line.takeWhile (· ≠ '#')

/-- The module text of a from-import and what follows the word `import`, which must end there. -/
def fromImport? (code : List Char) : Option (List Char × List Char) := do
  let text ← afterWord? "from" (code.dropWhile Text.isBlank)
  let text ← afterBlanks? text
  let module := text.takeWhile (!Text.isBlank ·)
  guard (module ≠ [])
  let text ← afterBlanks? (text.dropWhile (!Text.isBlank ·))
  let items ← afterWord? "import" text
  guard (!items.head?.any Text.isWord)
  return (module, items)

/-- What follows the word `import` of a plain import. -/
def plainImport? (code : List Char) : Option (List Char) := do
  let text ← afterWord? "import" (code.dropWhile Text.isBlank)
  afterBlanks? text

/-- A character of an imported name or alias. -/
def isNameChar (c : Char) : Bool :=
  !Text.isBlank c && c != '(' && c != ')'

/-- The alias that follows a name, when the text goes on with `as` between blanks. -/
def alias? (text : List Char) : Option (List Char) := do
  let text ← afterBlanks? text
  let text ← afterWord? "as" text
  let text ← afterBlanks? text
  let name := text.takeWhile isNameChar
  guard (name ≠ [])
  return name

/-- The name and the alias of one item of an import list. A star imports no name. -/
def item? (text : List Char) : Option (String × Option String) :=
  let text := Text.trim text
  let name := text.takeWhile isNameChar
  if name = [] ∨ name = ['*'] then none
  else some (String.ofList name, (alias? (text.dropWhile isNameChar)).map String.ofList)

/-- The items of an import list. Around it stand blanks, a backslash at the end of the line, and
parentheses. -/
def items (text : List Char) : List (String × Option String) :=
  let text := Text.dropEndWhile (· == '\\') (Text.trim text)
  let text := Text.dropEndWhile (· == ')') (text.dropWhile (· == '('))
  (Text.splitOn ',' text).filterMap item?

/-- The imports of one line. -/
def lineImports (line : String) : List Import :=
  let code := codeOf line.toList
  match fromImport? code, plainImport? code with
  | some (module, list), _ =>
    (items list).map fun (name, other) => ⟨some (String.ofList module), name, other⟩
  | none, some list => (items list).map fun (name, other) => ⟨none, name, other⟩
  | none, none => []

def imports (lines : List String) : List Import :=
  lines.flatMap lineImports

end CrossIndex.Python
