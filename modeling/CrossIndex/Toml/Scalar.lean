import CrossIndex.Text.Decimal
import CrossIndex.Text.Hex
import CrossIndex.Toml.Basic

/-!
Numbers, truth values and dates. Each is one run of letters, digits and a few signs, except that a
blank may stand between a date and a time.
-/

namespace CrossIndex.Toml

def isHexDigit (c : Char) : Bool := (Text.hexValue? c).isSome

def isOctalDigit (c : Char) : Bool := '0' ≤ c && c ≤ '7'

def isBinaryDigit (c : Char) : Bool := c == '0' || c == '1'

/-- The value of a list of digits in a base. -/
def valueIn (base : Nat) (digits : List Char) : Nat :=
  digits.foldl (fun value digit => value * base + (Text.hexValue? digit).getD 0) 0

/-- More digits after a first one. A low line may stand between two digits. -/
def moreDigits (ok : Char → Bool) : List Char → Option (List Char × List Char)
  | [] => some ([], [])
  | ['_'] => none
  | '_' :: c :: rest =>
    if ok c then (moreDigits ok rest).map fun (digits, rest) => (c :: digits, rest) else none
  | c :: rest =>
    if ok c then (moreDigits ok rest).map fun (digits, rest) => (c :: digits, rest)
    else some ([], c :: rest)

/-- One digit or more, and the rest of the text. -/
def digits? (ok : Char → Bool) : List Char → Option (List Char × List Char)
  | [] => none
  | c :: rest =>
    if ok c then (moreDigits ok rest).map fun (digits, rest) => (c :: digits, rest) else none

/-- The whole part of a decimal number: a zero alone, or digits that do not start with one. -/
def wholePart? : List Char → Option (List Char × List Char)
  | '0' :: rest => some (['0'], rest)
  | text => digits? Char.isDigit text

/-- A sign, and what follows it. -/
def sign : List Char → Bool × List Char
  | '-' :: rest => (true, rest)
  | '+' :: rest => (false, rest)
  | text => (false, text)

/-- Integers have 64 bits. -/
def integer? (negative : Bool) (value : Nat) : Option Toml :=
  let value : Int := if negative then - (value : Int) else value
  if -9223372036854775808 ≤ value ∧ value ≤ 9223372036854775807 then some (.integer value) else none

/-- An exponent that ends the text; without text the exponent is zero. -/
def exponent? : List Char → Option Int
  | [] => some 0
  | c :: rest =>
    if c = 'e' ∨ c = 'E' then
      let (negative, rest) := sign rest
      match digits? Char.isDigit rest with
      | some (digits, []) =>
        some (if negative then - (Text.digitsValue digits : Int) else Text.digitsValue digits)
      | _ => none
    else none

/-- A floating-point number of the given whole part, of which the text holds what follows. Positive
ones must not be too large for a double. -/
def fraction? (negative : Bool) (whole text : List Char) : Option Text.Decimal := do
  let (fraction, rest) ←
    match text with
    | '.' :: rest => digits? Char.isDigit rest
    | rest => some ([], rest)
  let value : Text.Decimal := ⟨whole, fraction, ← exponent? rest⟩
  guard (negative || !value.overflows)
  return value

/-- An integer of base sixteen, eight or two, without its first two characters. -/
def based? (base : Nat) (ok : Char → Bool) (text : List Char) : Option Toml := do
  let (digits, []) ← digits? ok text | none
  integer? false (valueIn base digits)

def number? (run : List Char) : Option Toml :=
  match run with
  | '0' :: 'x' :: rest => based? 16 isHexDigit rest
  | '0' :: 'o' :: rest => based? 8 isOctalDigit rest
  | '0' :: 'b' :: rest => based? 2 isBinaryDigit rest
  | _ =>
    let (negative, text) := sign run
    if text = ['i', 'n', 'f'] ∨ text = ['n', 'a', 'n'] then some (.float (.ofList run))
    else do
      let (whole, rest) ← wholePart? text
      if rest = [] then integer? negative (Text.digitsValue whole)
      else
        let _ ← fraction? negative whole rest
        return .float (.ofList run)

/-- A number of exactly two digits within bounds. -/
def twoDigits? (low high : Nat) : List Char → Option (Nat × List Char)
  | a :: b :: rest =>
    if a.isDigit ∧ b.isDigit then
      let value := Text.digitsValue [a, b]
      if low ≤ value ∧ value ≤ high then some (value, rest) else none
    else none
  | _ => none

/-- What follows a given character. -/
def after? (c : Char) : List Char → Option (List Char)
  | d :: rest => if d = c then some rest else none
  | [] => none

/-- The number of days of a month. -/
def daysOfMonth (year month : Nat) : Nat :=
  if month = 2 then
    if year % 4 = 0 ∧ (year % 100 ≠ 0 ∨ year % 400 = 0) then 29 else 28
  else if month = 4 ∨ month = 6 ∨ month = 9 ∨ month = 11 then 30
  else 31

def afterDate? (text : List Char) : Option (List Char) := do
  let (high, rest) ← twoDigits? 0 99 text
  let (low, rest) ← twoDigits? 0 99 rest
  let rest ← after? '-' rest
  let (month, rest) ← twoDigits? 1 12 rest
  let rest ← after? '-' rest
  let (_, rest) ← twoDigits? 1 (daysOfMonth (high * 100 + low) month) rest
  return rest

def afterTime? (text : List Char) : Option (List Char) := do
  let (_, rest) ← twoDigits? 0 23 text
  let rest ← after? ':' rest
  let (_, rest) ← twoDigits? 0 59 rest
  let rest ← after? ':' rest
  let (_, rest) ← twoDigits? 0 60 rest
  match rest with
  | '.' :: c :: rest => if c.isDigit then some (rest.dropWhile Char.isDigit) else none
  | rest => some rest

/-- The text is an offset from universal time, or empty. -/
def isOffset (text : List Char) : Bool :=
  match text with
  | [] | ['Z'] | ['z'] => true
  | c :: rest =>
    (c == '+' || c == '-') &&
      (do
        let (_, rest) ← twoDigits? 0 23 rest
        let rest ← after? ':' rest
        let (_, rest) ← twoDigits? 0 59 rest
        return rest) == some []

/-- The text is a time, with an offset or without. -/
def isTimeOfDate (text : List Char) : Bool := (afterTime? text).any isOffset

/-- The text is a date alone. -/
def isDate (text : List Char) : Bool := afterDate? text == some []

/-- The text is a date and a time with a letter between them, or a time alone. -/
def isTimed (text : List Char) : Bool :=
  afterTime? text == some [] ||
    match afterDate? text with
    | some (c :: rest) => (c == 'T' || c == 't') && isTimeOfDate rest
    | _ => false

/-- A character of a number, a truth value or a date. -/
def isScalarChar (c : Char) : Bool :=
  c.isAlphanum || c == '+' || c == '-' || c == '_' || c == '.' || c == ':'

/-- The value that one run of characters stands for. -/
def scalar? (run : List Char) : Option Toml :=
  if run = "true".toList then some (.boolean true)
  else if run = "false".toList then some (.boolean false)
  else if isDate run || isTimed run then some (.datetime (.ofList run))
  else number? run

/-- Reads a number, a truth value or a date. After a date alone and one blank a time may follow. -/
def readScalar (text : List Char) : Option (Toml × List Char) :=
  let run := text.takeWhile isScalarChar
  let rest := text.dropWhile isScalarChar
  match rest with
  | ' ' :: more =>
    let time := more.takeWhile isScalarChar
    if isDate run && !time.isEmpty then
      if isTimeOfDate time then
        some (.datetime (.ofList (run ++ ' ' :: time)), more.dropWhile isScalarChar)
      else none
    else (scalar? run).map (·, rest)
  | _ => (scalar? run).map (·, rest)

end CrossIndex.Toml
