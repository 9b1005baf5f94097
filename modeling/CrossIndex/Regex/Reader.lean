import CrossIndex.Text.Decimal
import CrossIndex.Text.Hex
import CrossIndex.Regex.Pattern

/-!
Reading patterns from text. The text is read from left to right; what stands open, a group or the
branches before, waits on a stack.
-/

namespace CrossIndex

/-- Why there is no matcher. -/
inductive PatternError where
  | invalid (pattern : String)
  /-- There is no name to match. -/
  | noNames
  deriving DecidableEq, Repr

def PatternError.message? : PatternError → Option String
  | invalid _ => none
  | noNames => some "Matcher needs at least one name"

namespace Pattern

/-- The switches of a pattern. -/
structure Flags where
  /-- `i`: case does not matter. -/
  anyCase : Bool
  /-- `m`: `^` and `$` stand at the ends of lines. -/
  multiline : Bool
  /-- `s`: the dot takes line feeds. -/
  dotAll : Bool
  /-- `U`: repetitions are greedy only with a question mark. -/
  reluctant : Bool
  /-- `x`: blanks and comments do not count. -/
  spaced : Bool
  deriving DecidableEq, Repr, Inhabited

def Flags.off : Flags := ⟨false, false, false, false, false⟩

/-- Turns a switch on or off. `u` is always on. -/
def Flags.set? (flags : Flags) (letter : Char) (value : Bool) : Option Flags :=
  match letter with
  | 'i' => some { flags with anyCase := value }
  | 'm' => some { flags with multiline := value }
  | 's' => some { flags with dotAll := value }
  | 'U' => some { flags with reluctant := value }
  | 'x' => some { flags with spaced := value }
  | 'u' => if value then some flags else none
  | _ => none

/-- The class as the switches take it. -/
def Flags.fold (flags : Flags) (c : CharClass) : CharClass :=
  if flags.anyCase then .folded c else c

/-- Drops blanks and comments when the switches say so; `fuel` bounds the comments. -/
def skipSpace (flags : Flags) : (fuel : Nat) → List Char → List Char
  | 0, text => text
  | fuel + 1, text =>
    if flags.spaced then
      match text.dropWhile Text.isBlank with
      | '#' :: rest => skipSpace flags fuel (rest.dropWhile (· ≠ '\n'))
      | rest => rest
    else text

/-- What an escape stands for. -/
inductive Escaped where
  | char (c : Char)
  | cls (c : CharClass)
  | anchor (a : Anchor)

/-- A character given by hexadecimal digits, in braces or as many as `width` says. -/
def readHex (width : Nat) (text : List Char) : Option (Char × List Char) :=
  match text with
  | '\x7b' :: rest =>
    match rest.span (· ≠ '\x7d') with
    | (digits@(_ :: _), _ :: rest) => do
      let c ← Text.charOfHex? digits
      return (c, rest)
    | _ => none
  | text =>
    let digits := text.take width
    if digits.length = width then do
      let c ← Text.charOfHex? digits
      return (c, text.drop width)
    else none

/-- The boundary named in braces after `\b`, or the plain one when what follows is a repetition. -/
def readBoundary (text : List Char) : Option (Escaped × List Char) :=
  let isNameChar := fun c : Char => c.isAlpha || c == '-'
  match text with
  | '\x7b' :: rest =>
    match rest.span isNameChar with
    | ([], []) => none
    | ([], _) => some (.anchor .boundary, text)
    | (name, '\x7d' :: rest) =>
      match String.ofList name with
      | "start" => some (.anchor .wordStart, rest)
      | "end" => some (.anchor .wordEnd, rest)
      | "start-half" => some (.anchor .afterNoWord, rest)
      | "end-half" => some (.anchor .beforeNoWord, rest)
      | _ => none
    | _ => none
  | text => some (.anchor .boundary, text)

/-- What an escape stands for, of which the text holds what follows the backslash. Punctuation
stands for itself; other letters and digits mean nothing. -/
def readEscape : List Char → Option (Escaped × List Char)
  | [] => none
  | c :: rest =>
    match c with
    | 'd' => some (.cls .digit, rest)
    | 'D' => some (.cls (.compl .digit), rest)
    | 's' => some (.cls .blank, rest)
    | 'S' => some (.cls (.compl .blank), rest)
    | 'w' => some (.cls .word, rest)
    | 'W' => some (.cls (.compl .word), rest)
    | 'b' => readBoundary rest
    | 'B' => some (.anchor .noBoundary, rest)
    | 'A' => some (.anchor .textStart, rest)
    | 'z' => some (.anchor .textEnd, rest)
    | '<' => some (.anchor .wordStart, rest)
    | '>' => some (.anchor .wordEnd, rest)
    | 'a' => some (.char '\x07', rest)
    | 'f' => some (.char '\x0c', rest)
    | 't' => some (.char '\t', rest)
    | 'n' => some (.char '\n', rest)
    | 'r' => some (.char '\r', rest)
    | 'v' => some (.char '\x0b', rest)
    | 'x' => (readHex 2 rest).map fun (c, rest) => (.char c, rest)
    | 'u' => (readHex 4 rest).map fun (c, rest) => (.char c, rest)
    | 'U' => (readHex 8 rest).map fun (c, rest) => (.char c, rest)
    | c => if c.toNat < 0x80 ∧ !c.isAlphanum then some (.char c, rest) else none

/-- The classes that have names of their own inside brackets. -/
def namedClass? (name : String) : Option CharClass :=
  match name with
  | "alnum" => some .alnum
  | "alpha" => some (.union .lower .upper)
  | "ascii" => some (.range '\x00' '\x7f')
  | "blank" => some (.ofString "\t ")
  | "cntrl" => some (.union (.range '\x00' '\x1f') (.single '\x7f'))
  | "digit" => some .asciiDigit
  | "graph" => some (.range '!' '~')
  | "lower" => some .lower
  | "print" => some (.range ' ' '~')
  | "punct" =>
    some (.unions [.range '!' '/', .range ':' '@', .range '[' '\x60', .range '\x7b' '~'])
  | "space" => some (.union (.range '\t' '\r') (.single ' '))
  | "upper" => some .upper
  | "word" => some (.union .alnum (.single '_'))
  | "xdigit" => some (.unions [.asciiDigit, .range 'a' 'f', .range 'A' 'F'])
  | _ => none

/-- A class such as `[:alpha:]`, of which the text holds what follows the bracket. -/
def readNamedClass (text : List Char) : Option (CharClass × List Char) :=
  match text with
  | ':' :: rest =>
    let (negated, rest) :=
      match rest with
      | '^' :: rest => (true, rest)
      | rest => (false, rest)
    match rest.span (· ≠ ':') with
    | (name, ':' :: ']' :: rest) => do
      let c ← namedClass? (String.ofList name)
      return (if negated then .compl c else c, rest)
    | _ => none
  | _ => none

/-- One item of a class: a character or an escape. -/
def readClassItem : List Char → Option (Escaped × List Char)
  | '\\' :: rest => readEscape rest
  | c :: rest => some (.char c, rest)
  | [] => none

/-- One item of a class or a range of two. -/
def readClassRange (flags : Flags) (text : List Char) : Option (CharClass × List Char) := do
  let skip := fun text : List Char => skipSpace flags text.length text
  let (first, rest) ← readClassItem text
  let alone : Option CharClass :=
    match first with
    | .char c => some (.single c)
    | .cls c => some c
    | .anchor _ => none
  match skip rest with
  | [] => none
  | '-' :: rest' =>
    match skip rest' with
    | [] => none
    | next :: _ =>
      if next = ']' ∨ next = '-' then return (← alone, skip rest)
      else
        let (last, rest) ← readClassItem (skip rest')
        match first, last with
        | .char a, .char b => if a ≤ b then return (.range a b, rest) else none
        | _, _ => none
  | rest => return (← alone, rest)

/-- The operations between the parts of a class. -/
inductive ClassOp where
  | both
  | without
  | either

/-- The class of two parts. -/
def ClassOp.apply : ClassOp → CharClass → CharClass → CharClass
  | both, a, b => .both a b
  | without, a, b => .without a b
  | either, a, b => .either a b

/-- What has been read of a class: the parts before the last operation, and the items after it. -/
structure ClassState where
  negated : Bool
  before? : Option (ClassOp × CharClass)
  items : List CharClass

namespace ClassState

/-- The class read so far. -/
def value (flags : Flags) (state : ClassState) : CharClass :=
  let items := CharClass.unions state.items.reverse
  match state.before? with
  | none => items
  | some (op, before) => op.apply (flags.fold before) (flags.fold items)

def push (state : ClassState) (c : CharClass) : ClassState :=
  { state with items := c :: state.items }

/-- Begins the part after an operation. -/
def operate (flags : Flags) (state : ClassState) (op : ClassOp) : ClassState :=
  { state with before? := some (op, state.value flags), items := [] }

/-- The class at its closing bracket. -/
def close (flags : Flags) (state : ClassState) : CharClass :=
  let c := flags.fold (state.value flags)
  if state.negated then .compl c else c

end ClassState

/-- The opening of a class after its bracket: a `^` negates it, and hyphens and then a closing
bracket that come first stand for themselves. -/
def openClass (flags : Flags) (text : List Char) : Option (ClassState × List Char) :=
  let skip := fun text : List Char => skipSpace flags text.length text
  let (negated, rest) :=
    match skip text with
    | '^' :: rest => (true, skip rest)
    | rest => (false, rest)
  let hyphens := rest.takeWhile (· = '-')
  let rest := skip (rest.dropWhile (· = '-'))
  let items := hyphens.map CharClass.single
  match rest, items with
  | [], _ => none
  | ']' :: rest, [] => some (⟨negated, none, [.single ']']⟩, rest)
  | rest, items => some (⟨negated, none, items⟩, rest)

/-- A class up to its closing bracket; the classes around it wait in `outer`. -/
def readClass (flags : Flags) :
    (fuel : Nat) → (outer : List ClassState) → ClassState → List Char →
      Option (CharClass × List Char)
  | 0, _, _, _ => none
  | fuel + 1, outer, state, text =>
    match skipSpace flags text.length text with
    | [] => none
    | '[' :: rest =>
      match readNamedClass rest with
      | some (c, rest) => readClass flags fuel outer (state.push c) rest
      | none => do
        let (inner, rest) ← openClass flags rest
        readClass flags fuel (state :: outer) inner rest
    | ']' :: rest =>
      match outer with
      | [] => some (state.close flags, rest)
      | parent :: outer => readClass flags fuel outer (parent.push (state.close flags)) rest
    | '&' :: '&' :: rest => readClass flags fuel outer (state.operate flags .both) rest
    | '-' :: '-' :: rest => readClass flags fuel outer (state.operate flags .without) rest
    | '~' :: '~' :: rest => readClass flags fuel outer (state.operate flags .either) rest
    | text => do
      let (c, rest) ← readClassRange flags text
      readClass flags fuel outer (state.push c) rest

/-- What a sequence is made of: expressions, and places where switches change, which cannot be
repeated. -/
inductive Part where
  | regex (r : Regex)
  | switch

/-- The expression of a sequence whose parts are given in reverse. -/
def seqOf (parts : List Part) : Regex :=
  .seqs (parts.reverse.filterMap fun
    | .regex r => some r
    | .switch => none)

/-- A group that stands open, with what was read around it. -/
structure Frame where
  branches : List Regex
  parts : List Part
  flags : Flags
  group? : Option Nat

/-- What has been read of a pattern: the branches and parts of the innermost open group, in reverse,
and the groups around it. -/
structure State where
  branches : List Regex
  parts : List Part
  flags : Flags
  stack : List Frame
  nextGroup : Nat
  names : List (String × Nat)

namespace State

/-- Nothing has been read. -/
def initial : State := ⟨[], [], .off, [], 1, []⟩

def push (state : State) (r : Regex) : State :=
  { state with parts := .regex r :: state.parts }

/-- Takes one character of a class. -/
def pushClass (state : State) (c : CharClass) : State :=
  state.push (.one c)

/-- Takes a character that stands for itself. -/
def pushChar (state : State) (c : Char) : State :=
  state.pushClass (state.flags.fold (.single c))

/-- The expression of the branches. -/
def value (state : State) : Regex :=
  .alts (state.branches.reverse ++ [seqOf state.parts])

def branch (state : State) : State :=
  { state with branches := seqOf state.parts :: state.branches, parts := [] }

def openGroup (state : State) (flags : Flags) (group? : Option Nat) : State :=
  { state with
    branches := []
    parts := []
    flags := flags
    stack := ⟨state.branches, state.parts, state.flags, group?⟩ :: state.stack }

/-- Closes the innermost group, when one stands open. -/
def closeGroup? (state : State) : Option State :=
  match state.stack with
  | [] => none
  | frame :: stack =>
    let r :=
      match frame.group? with
      | some index => .group index state.value
      | none => state.value
    some { state with
      branches := frame.branches
      parts := .regex r :: frame.parts
      flags := frame.flags
      stack := stack }

/-- Opens a group that notes its match. -/
def openCapture (state : State) : State :=
  { state.openGroup state.flags (some state.nextGroup) with nextGroup := state.nextGroup + 1 }

/-- Opens a group with a name, which must be new. -/
def openNamed? (state : State) (name : String) : Option State :=
  if (state.names.lookup name).isSome then none
  else
    some { state.openCapture with names := (name, state.nextGroup) :: state.names }

/-- Repeats the last part. There must be one, and it must be an expression. -/
def repeatLast? (state : State) (greedy : Bool) (least : Nat) (most? : Option Nat) :
    Option State :=
  match state.parts with
  | .regex r :: parts =>
    let greedy := greedy != state.flags.reluctant
    some { state with parts := .regex (.repeated greedy r least most?) :: parts }
  | _ => none

end State

/-- Switches up to a colon or a closing parenthesis: letters, with those after a hyphen turned off.
No letter comes twice, and the hyphen is followed by one. -/
def readFlags (flags : Flags) (value : Bool) (seen : List Char) :
    List Char → Option (Flags × List Char × List Char)
  | [] => none
  | c :: rest =>
    if c = ':' ∨ c = ')' then
      if seen.head? = some '-' then none else some (flags, seen, c :: rest)
    else if seen.contains c then none
    else if c = '-' then readFlags flags false ('-' :: seen) rest
    else do
      let flags ← flags.set? c value
      readFlags flags value (c :: seen) rest

/-- A character of the name of a group; the first one is no digit, dot or bracket. -/
def isGroupChar (first : Bool) (c : Char) : Bool :=
  if c.toNat < 0x80 then
    c.isAlpha || c == '_' || (!first && (c.isDigit || c == '.' || c == '[' || c == ']'))
  else Text.isWord c && !(first && Text.isDigit c)

/-- The name of a group up to its closing bracket. -/
def readGroupName (text : List Char) : Option (String × List Char) :=
  match text.span (· ≠ '>') with
  | (name@(c :: more), _ :: rest) =>
    if isGroupChar true c && more.all (isGroupChar false) then some (String.ofList name, rest)
    else none
  | _ => none

/-- The opening of a group, of which the text holds what follows the parenthesis. -/
def readOpening (state : State) (text : List Char) : Option (State × List Char) :=
  match text with
  | '?' :: 'P' :: '<' :: rest => named rest
  | '?' :: '<' :: rest => named rest
  | '?' :: rest =>
    match readFlags state.flags true [] rest with
    | some (flags, [], ':' :: rest) => some (state.openGroup flags none, rest)
    | some (flags, _ :: _, ':' :: rest) => some (state.openGroup flags none, rest)
    | some (flags, _ :: _, ')' :: rest) =>
      some ({ state with flags := flags, parts := .switch :: state.parts }, rest)
    | _ => none
  | rest => some (state.openCapture, rest)
where
  named (rest : List Char) : Option (State × List Char) := do
    let (name, rest) ← readGroupName rest
    return (← state.openNamed? name, rest)

/-- A repetition count, with blanks around it. Counts are numbers of 32 bits. -/
def readCount (text : List Char) : Option (Nat × List Char) :=
  match (text.dropWhile Text.isBlank).span Char.isDigit with
  | ([], _) => none
  | (digits, rest) =>
    let count := Text.digitsValue digits
    if count < Nat.pow 2 32 then some (count, rest.dropWhile Text.isBlank) else none

/-- The bounds of a repetition, of which the text holds what follows the brace. -/
def readBounds (text : List Char) : Option (Nat × Option Nat × List Char) := do
  let (least, rest) ← readCount text
  match rest with
  | '\x7d' :: rest => return (least, some least, rest)
  | ',' :: rest =>
    match rest with
    | '\x7d' :: rest => return (least, none, rest)
    | rest =>
      let (most, rest) ← readCount rest
      match rest with
      | '\x7d' :: rest => if least ≤ most then return (least, some most, rest) else none
      | _ => none
  | _ => none

/-- A question mark after a repetition, which turns its greed around. -/
def readGreed : List Char → Bool × List Char
  | '?' :: rest => (false, rest)
  | rest => (true, rest)

/-- Reads on from what has been read; each round takes one character or more, and `fuel` bounds
them. -/
def readFrom : (fuel : Nat) → State → List Char → Option State
  | 0, _, _ => none
  | fuel + 1, state, text =>
    let repeated := fun (least : Nat) (most? : Option Nat) (rest : List Char) => do
      let (greedy, rest) := readGreed rest
      readFrom fuel (← state.repeatLast? greedy least most?) rest
    match skipSpace state.flags text.length text with
    | [] => if state.stack.isEmpty then some state else none
    | '(' :: rest => do
      let (state, rest) ← readOpening state rest
      readFrom fuel state rest
    | ')' :: rest => do readFrom fuel (← state.closeGroup?) rest
    | '|' :: rest => readFrom fuel state.branch rest
    | '[' :: rest => do
      let (inner, rest) ← openClass state.flags rest
      let (c, rest) ← readClass state.flags (rest.length + 1) [] inner rest
      readFrom fuel (state.pushClass c) rest
    | '?' :: rest => repeated 0 (some 1) rest
    | '*' :: rest => repeated 0 none rest
    | '+' :: rest => repeated 1 none rest
    | '\x7b' :: rest => do
      let (least, most?, rest) ← readBounds rest
      repeated least most? rest
    | '\\' :: rest => do
      let (escaped, rest) ← readEscape rest
      let state :=
        match escaped with
        | .char c => state.pushChar c
        | .cls c => state.pushClass c
        | .anchor a => state.push (.anchor a)
      readFrom fuel state rest
    | '.' :: rest =>
      readFrom fuel (state.pushClass (if state.flags.dotAll then .any else .noLineFeed)) rest
    | '^' :: rest =>
      readFrom fuel
        (state.push (.anchor (if state.flags.multiline then .lineStart else .textStart))) rest
    | '$' :: rest =>
      readFrom fuel
        (state.push (.anchor (if state.flags.multiline then .lineEnd else .textEnd))) rest
    | c :: rest => readFrom fuel (state.pushChar c) rest

def read (text : String) : Except PatternError Pattern :=
  let chars := text.toList
  match readFrom (chars.length + 1) .initial chars with
  | some state => .ok ⟨state.value, state.names⟩
  | none => .error (.invalid text)

/-- Reads a pattern that must match at the start of a line. -/
def readAnchored (text : String) : Except PatternError Pattern :=
  read ("^(?:" ++ text ++ ")")

end Pattern

end CrossIndex
