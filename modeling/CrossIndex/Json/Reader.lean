import CrossIndex.Json.Basic
import CrossIndex.Text.Hex

/-!
Reading JSON. A text is one value between blanks; each reader gives the value and the rest of the
text. Arrays and objects nest at most 127 deep.
-/

namespace CrossIndex.Json

/-- Blanks between the tokens of a text. -/
def isBlank (c : Char) : Bool :=
  c == ' ' || c == '\n' || c == '\t' || c == '\r'

def skipBlanks (text : List Char) : List Char := text.dropWhile isBlank

def readUnit : List Char → Option (Nat × List Char)
  | a :: b :: c :: d :: rest => (Text.hexNumber? [a, b, c, d]).map (·, rest)
  | _ => none

/-- The character of a `\u` escape, of which the text holds what follows the `u`. A high surrogate
needs the escape of a low one after it, and a low one may not stand alone. -/
def readEscapedUnit (text : List Char) : Option (Char × List Char) := do
  let (high, rest) ← readUnit text
  if 0xDC00 ≤ high ∧ high ≤ 0xDFFF then none
  else if 0xD800 ≤ high ∧ high ≤ 0xDBFF then
    match rest with
    | '\\' :: 'u' :: rest =>
      let (low, rest) ← readUnit rest
      if 0xDC00 ≤ low ∧ low ≤ 0xDFFF then
        return (Char.ofNat (0x10000 + (high - 0xD800) * 0x400 + (low - 0xDC00)), rest)
      else none
    | _ => none
  else return (Char.ofNat high, rest)

/-- The character of an escape, of which the text holds what follows the backslash. -/
def readEscape : List Char → Option (Char × List Char)
  | '\x22' :: rest => some ('\x22', rest)
  | '\\' :: rest => some ('\\', rest)
  | '/' :: rest => some ('/', rest)
  | 'b' :: rest => some ('\x08', rest)
  | 'f' :: rest => some ('\x0c', rest)
  | 'n' :: rest => some ('\n', rest)
  | 'r' :: rest => some ('\r', rest)
  | 't' :: rest => some ('\t', rest)
  | 'u' :: rest => readEscapedUnit rest
  | _ => none

/-- The characters of a string up to its closing quote, `fuel` of them at most. -/
def readChars : (fuel : Nat) → List Char → Option (List Char × List Char)
  | 0, _ => none
  | _ + 1, [] => none
  | fuel + 1, c :: rest =>
    if c = '\x22' then some ([], rest)
    else if c = '\\' then do
      let (c, rest) ← readEscape rest
      let (cs, rest) ← readChars fuel rest
      return (c :: cs, rest)
    else if c.toNat < 0x20 then none
    else do
      let (cs, rest) ← readChars fuel rest
      return (c :: cs, rest)

/-- The text of a string, of which the opening quote has been read. -/
def readString (text : List Char) : Option (String × List Char) := do
  let (chars, rest) ← readChars text.length text
  return (String.ofList chars, rest)

/-- One digit or more. -/
def readDigits (text : List Char) : Option (List Char × List Char) :=
  match text.span Char.isDigit with
  | ([], _) => none
  | (digits, rest) => some (digits, rest)

/-- The digits after a point, where there is one. -/
def readFraction : List Char → Option (Option (List Char) × List Char)
  | '.' :: rest => do
    let (digits, rest) ← readDigits rest
    return (some digits, rest)
  | text => some (none, text)

/-- An exponent, where there is one, with whether it is negative. -/
def readExponent : List Char → Option (Option (Bool × List Char) × List Char)
  | c :: rest =>
    if c = 'e' ∨ c = 'E' then do
      let (negative, rest) :=
        match rest with
        | '-' :: rest => (true, rest)
        | '+' :: rest => (false, rest)
        | rest => (false, rest)
      let (digits, rest) ← readDigits rest
      return (some (negative, digits), rest)
    else some (none, c :: rest)
  | [] => some (none, [])

/-- A number. Its first digit is a zero only when that is its whole part, and it must not be too
large for a double. -/
def readNumber (text : List Char) : Option (JsonNumber × List Char) := do
  let (negative, rest) :=
    match text with
    | '-' :: rest => (true, rest)
    | rest => (false, rest)
  let (whole, rest) ← readDigits rest
  guard (whole.length = 1 ∨ whole.head? ≠ some '0')
  let (fraction, rest) ← readFraction rest
  let (exponent, rest) ← readExponent rest
  let value : JsonNumber := ⟨negative, whole, fraction, exponent⟩
  guard (!value.overflows)
  return (value, rest)

/-- The rest of a text after a word. -/
def afterWord? (word : String) (text : List Char) : Option (List Char) :=
  if word.toList.isPrefixOf text then some (text.drop word.length) else none

mutual

/-- One value, with arrays and objects nested at most `depth - 1` deep. -/
def readValue : (fuel depth : Nat) → List Char → Option (Json × List Char)
  | 0, _, _ => none
  | fuel + 1, depth, text =>
    match skipBlanks text with
    | [] => none
    | c :: rest =>
      if c = '\x22' then do
        let (value, rest) ← readString rest
        return (.string value, rest)
      else if c = '[' then
        if depth ≤ 1 then none
        else
          match skipBlanks rest with
          | ']' :: rest => some (.array [], rest)
          | rest => do
            let (items, rest) ← readItems fuel (depth - 1) rest
            return (.array items, rest)
      else if c = '\x7b' then
        if depth ≤ 1 then none
        else
          match skipBlanks rest with
          | '\x7d' :: rest => some (.object [], rest)
          | rest => do
            let (members, rest) ← readMembers fuel (depth - 1) rest
            return (.object members, rest)
      else if c = 'n' then do
        let rest ← afterWord? "null" (c :: rest)
        return (.null, rest)
      else if c = 't' then do
        let rest ← afterWord? "true" (c :: rest)
        return (.bool true, rest)
      else if c = 'f' then do
        let rest ← afterWord? "false" (c :: rest)
        return (.bool false, rest)
      else do
        let (value, rest) ← readNumber (c :: rest)
        return (.number value, rest)

def readItems : (fuel depth : Nat) → List Char → Option (List Json × List Char)
  | 0, _, _ => none
  | fuel + 1, depth, text => do
    let (item, rest) ← readValue fuel depth text
    match skipBlanks rest with
    | ',' :: rest =>
      let (items, rest) ← readItems fuel depth rest
      return (item :: items, rest)
    | ']' :: rest => return ([item], rest)
    | _ => none

def readMembers : (fuel depth : Nat) → List Char → Option (List (String × Json) × List Char)
  | 0, _, _ => none
  | fuel + 1, depth, text => do
    match skipBlanks text with
    | '\x22' :: rest =>
      let (name, rest) ← readString rest
      match skipBlanks rest with
      | ':' :: rest =>
        let (value, rest) ← readValue fuel depth rest
        match skipBlanks rest with
        | ',' :: rest =>
          let (members, rest) ← readMembers fuel depth rest
          return ((name, value) :: members, rest)
        | '\x7d' :: rest => return ([(name, value)], rest)
        | _ => none
      | _ => none
    | _ => none

end

/-- How deep arrays and objects may nest, counted with the value itself. -/
def maxDepth : Nat := 128

/-- The value that a text holds, with nothing but blanks around it. -/
def read? (text : String) : Option Json := do
  let chars := text.toList
  let (value, rest) ← readValue (chars.length + 1) maxDepth chars
  guard (skipBlanks rest = [])
  return value

end CrossIndex.Json
