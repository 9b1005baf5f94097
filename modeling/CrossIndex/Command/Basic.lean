import CrossIndex.Fact.Json
import CrossIndex.Workspace.Query

/-!
Commands: each scans a source tree and answers one question about it, as text or as JSON.
-/

namespace CrossIndex

inductive Format where
  | text
  | json
  deriving DecidableEq, Repr

/-- A question about a source tree. -/
inductive Question where
  | stats
  /-- The definitions of an expression in a file. -/
  | definitions (file : Path) (expression : String)
  | references (key : String)
  /-- What stands under a cursor, and its definitions or its references. -/
  | lookup (file : Path) (cursor : Position) (references : Bool)
  deriving Repr

/-- A command: the root of a source tree, a question, and how to answer it. -/
structure Command where
  root : Path
  question : Question
  format : Format
  deriving Repr

inductive CommandError where
  | noIndex (root : Path) (cause : WorkspaceError)
  | noFile (file : Path)
  | unreadable (path : Path)
  deriving Repr

def CommandError.message : CommandError → String
  | noIndex root _ => "Failed to index " ++ root.toString
  | noFile file => "Input file not found: " ++ file.toString
  | unreadable path => "Failed to read input file: " ++ path.toString

def Stats.toJson (s : Stats) : Json :=
  .object [("root", .string s.root.toString), ("dialects", .array (s.dialects.map .string)),
    ("files", .nat s.files), ("definition_keys", .nat s.definitionKeys),
    ("reference_keys", .nat s.referenceKeys), ("exports", .nat s.exports)]

structure Report where
  path : Path
  cursor : Position
  fact? : Option Fact
  locations : List Location
  deriving Repr

inductive Answer where
  | stats (s : Stats)
  | definitions (expression : String) (found : List Definition)
  | references (key : String) (found : List Reference)
  | report (r : Report)
  deriving Repr

namespace Answer

/-- A place as text, with the line and the column counted from one. -/
def describe (path : Path) (p : Position) : String :=
  path.toString ++ ":" ++ toString (p.line + 1) ++ ":" ++ toString (p.column + 1)

def statsLines (s : Stats) : List String := [
  "Root:            " ++ s.root.toString,
  "Dialects:        " ++ ", ".intercalate s.dialects,
  "Files:           " ++ toString s.files,
  "Definition keys: " ++ toString s.definitionKeys,
  "Reference keys:  " ++ toString s.referenceKeys,
  "Exports:         " ++ toString s.exports]

/-- The line that tells what stands under a cursor. -/
def factLine (r : Report) : String :=
  match r.fact? with
  | some (.symbol value) => "symbol " ++ value
  | some fact => fact.kind ++ " " ++ fact.key?.getD ""
  | none => "Nothing recognized at " ++ describe r.path r.cursor

def lines : Answer → List String
  | stats s => statsLines s
  | definitions expression [] => ["No definitions found for " ++ expression]
  | definitions _ found => found.map fun d => describe d.path d.range.start ++ "  " ++ d.key
  | references key [] => ["No references found for " ++ key]
  | references _ found =>
    found.map (fun r => describe r.path r.range.start)
      ++ ["Found " ++ toString found.length ++ " reference(s)"]
  | report r => factLine r :: r.locations.map fun l => describe l.path l.range.start

def toJson : Answer → Json
  | stats s => s.toJson
  | definitions _ found => .array (found.map Definition.toJson)
  | references _ found => .array (found.map Reference.toJson)
  | report r =>
    .object [("fact", (r.fact?.map Fact.toJson).getD .null),
      ("locations", .array (r.locations.map Location.toJson))]

/-- Writes an answer. Each line ends with a line feed, the last one too. -/
def render (format : Format) (a : Answer) : String :=
  match format with
  | .text => String.join (a.lines.map (· ++ "\n"))
  | .json => a.toJson.pretty ++ "\n"

end Answer

namespace Command

/-- The canonical path of a file, which is looked for as it is given and then below the root. -/
def locate (tree : FileTree) (root file : Path) : Except CommandError Path :=
  let candidate := if tree.contains file then file else root.join file
  match tree.canonical? candidate with
  | some path => .ok path
  | none => .error (.noFile file)

/-- The answer of a generation to a question. -/
def ask (tree : FileTree) (root : Path) (g : Generation) (question : Question) :
    Except CommandError Answer :=
  match question with
  | .stats => .ok (.stats g.stats)
  | .definitions file expression => do
    let path ← locate tree root file
    return .definitions expression ((Query.findDefs tree path expression).against g)
  | .references key =>
    .ok (.references key (Location.uniqueReferences ((Query.findRefs tree key).against g)))
  | .lookup file cursor references => do
    let path ← locate tree root file
    match tree.readText? path with
    | none => .error (.unreadable path)
    | some text =>
      let lines := Text.lines text
      let locations :=
        if references then Query.referencesAt tree path lines cursor
        else Query.definitionsAt tree path lines cursor
      return .report
        ⟨path, cursor, (Query.factAt tree path lines cursor).against g, locations.against g⟩

/-- Runs a command, and gives what it writes. -/
def run (tree : FileTree) (c : Command) : Except CommandError String := do
  let g ← (Generation.ofRoot tree c.root).mapError (.noIndex c.root)
  return (← ask tree c.root g c.question).render c.format

end Command

end CrossIndex
