import CrossIndex.Text.Hex

/-!
The texts of TOML: basic and literal strings, on one line or over several.
-/

namespace CrossIndex.Toml

/-- A blank within a line. -/
def isBlank (c : Char) : Bool := c == ' ' || c == '\t'

def skipBlanks (text : List Char) : List Char := text.dropWhile isBlank

/-- A character that may stand as it is: a tab, or anything but control characters. -/
def isPlain (c : Char) : Bool := c == '\t' || (0x20 ≤ c.toNat && c.toNat != 0x7F)

/-- What follows the end of a line. -/
def afterLineEnd? : List Char → Option (List Char)
  | '\n' :: rest => some rest
  | '\r' :: '\n' :: rest => some rest
  | _ => none

/-- What follows the end of a line, or all when no line ends here. -/
def skipLineEnd (text : List Char) : List Char := (afterLineEnd? text).getD text

/-- The character of an escape with a letter. -/
def escaped? : Char → Option Char
  | 'b' => some '\x08'
  | 't' => some '\t'
  | 'n' => some '\n'
  | 'f' => some '\x0c'
  | 'r' => some '\r'
  | '\x22' => some '\x22'
  | '\\' => some '\\'
  | _ => none

/-- What a reader of strings gives: the characters, and the rest of the text. -/
abbrev Read := Option (List Char × List Char)

/-- Puts a character in front of what was read. -/
def onto (c : Char) (read : Read) : Read := read.map fun (chars, rest) => (c :: chars, rest)

def basicChars : List Char → Read
  | [] => none
  | '\x22' :: rest => some ([], rest)
  | '\\' :: 'u' :: a :: b :: c :: d :: rest => do
    onto (← Text.charOfHex? [a, b, c, d]) (basicChars rest)
  | '\\' :: 'U' :: a :: b :: c :: d :: e :: f :: g :: h :: rest => do
    onto (← Text.charOfHex? [a, b, c, d, e, f, g, h]) (basicChars rest)
  | '\\' :: c :: rest => do onto (← escaped? c) (basicChars rest)
  | c :: rest => if isPlain c && c != '\\' then onto c (basicChars rest) else none

def literalChars : List Char → Read
  | [] => none
  | '\x27' :: rest => some ([], rest)
  | c :: rest => if isPlain c then onto c (literalChars rest) else none

/-- The length of the run of a quote at the start. -/
def quoteRun (quote : Char) (text : List Char) : Nat := (text.takeWhile (· = quote)).length

/-- The end of a string over several lines, at a run of three quotes or more: up to two of the
quotes before the closing ones belong to the string. -/
def closing (quote : Char) (text : List Char) : List Char × List Char :=
  let extra := min (quoteRun quote text - 3) 2
  (List.replicate extra quote, text.drop (3 + extra))

/-- A line ends after blanks at the start. -/
def endsLine (text : List Char) : Bool := (afterLineEnd? (skipBlanks text)).isSome

/-- The characters of a basic string over several lines. After a backslash that ends a line all
blanks and line ends are skipped. -/
def basicLines (skipping : Bool) : List Char → Read
  | [] => none
  | '\r' :: '\n' :: rest =>
    if skipping then basicLines true rest else onto '\n' (basicLines false rest)
  | '\\' :: 'u' :: a :: b :: c :: d :: rest => do
    onto (← Text.charOfHex? [a, b, c, d]) (basicLines false rest)
  | '\\' :: 'U' :: a :: b :: c :: d :: e :: f :: g :: h :: rest => do
    onto (← Text.charOfHex? [a, b, c, d, e, f, g, h]) (basicLines false rest)
  | '\\' :: c :: rest =>
    if endsLine (c :: rest) then basicLines true (c :: rest)
    else do onto (← escaped? c) (basicLines false rest)
  | c :: rest =>
    if c = '\n' then if skipping then basicLines true rest else onto '\n' (basicLines false rest)
    else if skipping && isBlank c then basicLines true rest
    else if c = '\x22' then
      if quoteRun '\x22' (c :: rest) ≥ 3 then some (closing '\x22' (c :: rest))
      else onto c (basicLines false rest)
    else if isPlain c && c != '\\' then onto c (basicLines false rest)
    else none

/-- The characters of a literal string over several lines. -/
def literalLines : List Char → Read
  | [] => none
  | '\r' :: '\n' :: rest => onto '\n' (literalLines rest)
  | c :: rest =>
    if c = '\n' then onto c (literalLines rest)
    else if c = '\x27' then
      if quoteRun '\x27' (c :: rest) ≥ 3 then some (closing '\x27' (c :: rest))
      else onto c (literalLines rest)
    else if isPlain c then onto c (literalLines rest)
    else none

/-- Reads a string on one line, if a quote starts the text. -/
def readShortString : List Char → Read
  | '\x22' :: rest => basicChars rest
  | '\x27' :: rest => literalChars rest
  | _ => none

/-- Reads a string. A line end right after three opening quotes does not belong to it. -/
def readString : List Char → Read
  | '\x22' :: '\x22' :: '\x22' :: rest => basicLines false (skipLineEnd rest)
  | '\x27' :: '\x27' :: '\x27' :: rest => literalLines (skipLineEnd rest)
  | text => readShortString text

end CrossIndex.Toml
