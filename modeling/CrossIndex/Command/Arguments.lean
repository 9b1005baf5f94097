import CrossIndex.Command.Basic
import CrossIndex.Version

/-!
The words of a command line. The first word names the question; options may stand anywhere after it,
and two dashes alone end them. Every word that starts with a dash, and is not one dash alone, is an
option until then.
-/

namespace CrossIndex

inductive UsageError where
  | noCommand
  | unknownCommand (word : String)
  | unknownOption (word : String)
  | repeatedOption (name : String)
  | badFormat (word : String)
  | badValue (name : String)
  | missing (name : String)
  | unexpected (word : String)
  deriving DecidableEq, Repr

def UsageError.message : UsageError → String
  | noCommand => "a command is required: index, defs, refs or lookup"
  | unknownCommand word => "unrecognized command: " ++ word
  | unknownOption word => "unexpected option: " ++ word
  | repeatedOption name => "option given twice: " ++ name
  | badFormat word => "the format is text or json, not: " ++ word
  | badValue name => "invalid value for " ++ name
  | missing name => "missing value: " ++ name
  | unexpected word => "unexpected argument: " ++ word

inductive Invocation where
  | version
  | command (c : Command)
  deriving Repr

namespace Arguments

/-- The words after the first, sorted: those that are no options, and the options. -/
structure Words where
  positional : List String
  format? : Option Format
  references : Bool
  deriving Repr

def Words.empty : Words := ⟨[], none, false⟩

def format (word : String) : Except UsageError Format :=
  if word = "text" then .ok .text
  else if word = "json" then .ok .json
  else .error (.badFormat word)

/-- Sets the format, which may be done once. -/
def Words.setFormat (words : Words) (word : String) : Except UsageError Words := do
  let format ← format word
  if words.format?.isSome then .error (.repeatedOption "--format")
  else return { words with format? := some format }

def Words.setReferences (words : Words) : Except UsageError Words :=
  if words.references then .error (.repeatedOption "--references")
  else .ok { words with references := true }

/-- What an option does to the words read so far: it is done, or takes its value from the next
word. -/
inductive Effect where
  | done (words : Words)
  | wantsFormat (words : Words)

/-- Reads letters after one dash. `references` tells whether `r` is one of the options. -/
def letters (references : Bool) (words : Words) : List Char → Except UsageError Effect
  | [] => .ok (.done words)
  | 'f' :: rest =>
    match rest with
    | [] => .ok (.wantsFormat words)
    | '=' :: value => do return .done (← words.setFormat (.ofList value))
    | value => do return .done (← words.setFormat (.ofList value))
  | c :: rest =>
    if c = 'r' ∧ references then do letters references (← words.setReferences) rest
    else .error (.unknownOption (.ofList ['-', c]))

/-- Reads a name after two dashes, perhaps with a value after an equals sign. -/
def long (references : Bool) (words : Words) (text : List Char) : Except UsageError Effect :=
  let name := text.takeWhile (· ≠ '=')
  let value := text.dropWhile (· ≠ '=')
  if name = "format".toList then
    match value with
    | [] => .ok (.wantsFormat words)
    | _ :: value => do return .done (← words.setFormat (.ofList value))
  else if name = "references".toList ∧ value = [] ∧ references then
    do return .done (← words.setReferences)
  else .error (.unknownOption (.ofList ('-' :: '-' :: text)))

/-- Sorts the words after the first. -/
def sort (references : Bool) (words : Words) : List String → Except UsageError Words
  | [] => .ok words
  | word :: rest =>
    let option := fun (effect : Except UsageError Effect) => do
      match ← effect, rest with
      | .done words, rest => sort references words rest
      | .wantsFormat words, value :: rest => sort references (← words.setFormat value) rest
      | .wantsFormat _, [] => .error (.missing "--format")
    match word.toList with
    | ['-', '-'] => .ok { words with positional := words.positional ++ rest }
    | '-' :: '-' :: text => option (long references words text)
    | '-' :: c :: text => option (letters references words (c :: text))
    | _ => sort references { words with positional := words.positional ++ [word] } rest

def path (name word : String) : Except UsageError Path :=
  if word = "" then .error (.badValue name) else .ok (.ofString word)

/-- A coordinate, before which a sign may stand. -/
def number (name word : String) : Except UsageError Nat :=
  let (negative, digits) :=
    match word.toList with
    | '-' :: digits => (true, digits)
    | '+' :: digits => (false, digits)
    | digits => (false, digits)
  let value := Text.digitsValue digits
  if digits = [] ∨ !digits.all Char.isDigit ∨ value ≥ coordinateLimit ∨ (negative ∧ value ≠ 0) then
    .error (.badValue name)
  else .ok value

/-- What a command needs beside its words, in order. -/
def names : String → List String
  | "defs" => ["root", "file", "symbol"]
  | "refs" => ["root", "key"]
  | "lookup" => ["root", "file", "line", "character"]
  | _ => []

/-- The first thing that a command is missing, or the first word too many. -/
def mismatch (needed given : List String) : UsageError :=
  match needed.drop given.length, given.drop needed.length with
  | name :: _, _ => .missing name
  | [], word :: _ => .unexpected word
  | [], [] => .noCommand

/-- The command of a first word and the others. Lines and columns count from one, and zero counts
as one. -/
def command (name : String) (words : Words) : Except UsageError Command := do
  let format := words.format?.getD .text
  match name, words.positional with
  | "index", [] => return ⟨.ofString ".", .stats, format⟩
  | "index", [root] => return ⟨← path "root" root, .stats, format⟩
  | "index", _ :: word :: _ => .error (.unexpected word)
  | "defs", [root, file, symbol] =>
    return ⟨← path "root" root, .definitions (← path "file" file) symbol, format⟩
  | "refs", [root, key] => return ⟨← path "root" root, .references key, format⟩
  | "lookup", [root, file, line, character] =>
    let root ← path "root" root
    let file ← path "file" file
    let cursor : Position := ⟨(← number "line" line) - 1, (← number "character" character) - 1⟩
    return ⟨root, .lookup file cursor words.references, format⟩
  | name, given => .error (mismatch (names name) given)

def commandNames : List String := ["index", "defs", "refs", "lookup"]

def read (words : List String) : Except UsageError Invocation :=
  match words with
  | [] => .error .noCommand
  | name :: rest =>
    if commandNames.contains name then do
      return .command (← command name (← sort (name = "lookup") .empty rest))
    else if name = "--version" ∨ ['-', 'V'].isPrefixOf name.toList then .ok .version
    else .error (.unknownCommand name)

end Arguments

/-- What a program run leaves behind: its exit code, and what it writes to its two outputs. -/
structure Outcome where
  code : UInt32
  output : String
  errors : String
  deriving Repr

namespace Invocation

/-- Carries out what a command line asks for. -/
def run (tree : FileTree) : Invocation → Outcome
  | version => ⟨0, "ffi-navigator " ++ CrossIndex.version ++ "\n", ""⟩
  | command c =>
    match c.run tree with
    | .ok output => ⟨0, output, ""⟩
    | .error e => ⟨1, "", "Error: " ++ e.message ++ "\n"⟩

def runWords (tree : FileTree) (words : List String) : Outcome :=
  match Arguments.read words with
  | .ok invocation => invocation.run tree
  | .error e => ⟨2, "", "error: " ++ e.message ++ "\n"⟩

end Invocation

end CrossIndex
