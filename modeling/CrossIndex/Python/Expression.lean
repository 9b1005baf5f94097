import CrossIndex.Position

/-!
The dotted expression under a cursor.
-/

namespace CrossIndex.Python

/-- A letter that can begin an identifier. -/
def isNameStart (c : Char) : Bool :=
  c.isAlpha || c == '_'

/-- A character of a dotted expression: an ASCII letter or digit, a low line or a dot. -/
def isDotted (c : Char) : Bool :=
  c.isAlphanum || c == '_' || c == '.'

/-- A quote. An expression right before one is the opening of a string. -/
def isQuote (c : Char) : Bool :=
  c == '\x22' || c == '\x27'

/-- The part of the expression left of the cursor: of the run of dotted characters that ends there,
what starts at its first letter or low line. -/
def leftPart (text : List Char) : List Char :=
  (text.reverse.takeWhile isDotted).reverse.dropWhile (!isNameStart ·)

/-- The dotted expression that a column lies in or next to. -/
def expressionIn (line : List Char) (column : Nat) : Option (List Char) :=
  let right := line.drop column
  let value := leftPart (line.take column) ++ right.takeWhile isDotted
  if (right.dropWhile isDotted).head?.any isQuote ∨ value = [] then none else some value

/-- The dotted expression under the cursor. There is none right before a quote: that is a string
key. -/
def expressionAt (lines : List String) (cursor : Position) : Option String := do
  let line ← lines[cursor.line]?
  let value ← expressionIn line.toList cursor.column
  return String.ofList value

end CrossIndex.Python
