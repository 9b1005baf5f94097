import CrossIndex.Json.Basic

/-!
Writing JSON: a compact form on one line, and an indented form with two spaces for each level.
-/

namespace CrossIndex.Json

/-- A hexadecimal digit in lower case. -/
def hexDigit (n : Nat) : Char :=
  Char.ofNat (if n < 10 then 48 + n else 87 + n)

/-- A character as it stands in a string: quotes, backslashes and control characters are escaped,
those with a letter of their own by it. -/
def escapeChar (c : Char) : List Char :=
  if c = '\x22' then ['\\', '\x22']
  else if c = '\\' then ['\\', '\\']
  else if c = '\x08' then ['\\', 'b']
  else if c = '\x0c' then ['\\', 'f']
  else if c = '\n' then ['\\', 'n']
  else if c = '\r' then ['\\', 'r']
  else if c = '\t' then ['\\', 't']
  else if c.toNat < 0x20 then
    ['\\', 'u', '0', '0', hexDigit (c.toNat / 16), hexDigit (c.toNat % 16)]
  else [c]

def stringChars (text : String) : List Char :=
  '\x22' :: (text.toList.flatMap escapeChar ++ ['\x22'])

def numberChars (n : JsonNumber) : List Char :=
  (if n.negative then ['-'] else []) ++ n.whole
    ++ (match n.fraction? with
      | some digits => '.' :: digits
      | none => [])
    ++ (match n.exponent? with
      | some (true, digits) => 'e' :: '-' :: digits
      | some (false, digits) => 'e' :: digits
      | none => [])

mutual

/-- A value on one line, without blanks. -/
def compactChars : Json → List Char
  | null => "null".toList
  | bool true => "true".toList
  | bool false => "false".toList
  | number n => numberChars n
  | string text => stringChars text
  | array items => '[' :: (compactItems items ++ [']'])
  | object members => '\x7b' :: (compactMembers members ++ ['\x7d'])

def compactItems : List Json → List Char
  | [] => []
  | [item] => compactChars item
  | item :: more => compactChars item ++ ',' :: compactItems more

def compactMembers : List (String × Json) → List Char
  | [] => []
  | [(name, value)] => stringChars name ++ ':' :: compactChars value
  | (name, value) :: more =>
    stringChars name ++ ':' :: compactChars value ++ ',' :: compactMembers more

end

/-- A line end and the blanks of a level. -/
def newLine (level : Nat) : List Char :=
  '\n' :: List.replicate (2 * level) ' '

mutual

/-- A value over several lines, of which the first begins at the given level. Empty arrays and
objects stay on one line. -/
def prettyChars (level : Nat) : Json → List Char
  | array [] => ['[', ']']
  | array (item :: more) =>
    '[' :: (newLine (level + 1) ++ prettyChars (level + 1) item ++ prettyItems (level + 1) more
      ++ newLine level ++ [']'])
  | object [] => ['\x7b', '\x7d']
  | object ((name, value) :: more) =>
    '\x7b' :: (newLine (level + 1) ++ stringChars name ++ ':' :: ' '
      :: prettyChars (level + 1) value ++ prettyMembers (level + 1) more
      ++ newLine level ++ ['\x7d'])
  | null => "null".toList
  | bool true => "true".toList
  | bool false => "false".toList
  | number n => numberChars n
  | string text => stringChars text

def prettyItems (level : Nat) : List Json → List Char
  | [] => []
  | item :: more => ',' :: (newLine level ++ prettyChars level item ++ prettyItems level more)

def prettyMembers (level : Nat) : List (String × Json) → List Char
  | [] => []
  | (name, value) :: more =>
    ',' :: (newLine level ++ stringChars name ++ ':' :: ' ' :: prettyChars level value
      ++ prettyMembers level more)

end

def compact (value : Json) : String := String.ofList (compactChars value)

def pretty (value : Json) : String := String.ofList (prettyChars 0 value)

end CrossIndex.Json
