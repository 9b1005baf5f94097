import CrossIndex.Proofs.Path.Components
import CrossIndex.Proofs.Table
import CrossIndex.Proofs.Text.Column
import CrossIndex.Server.Basic

/-!
Columns as clients count them. A client that counts UTF-16 units and one that counts characters ask for
the same place and are shown the same places. Main statement: at the unit column of a column of a line
a search finds what it finds at that column by characters, with the columns of the results rewritten.
-/

open Std

namespace CrossIndex

namespace Encoding

variable {documents : Documents} {tree : FileTree}

/-- The path that stands first among those of the list that are the same as the given one. -/
def firstSpelling (paths : List Path) (path : Path) : Path :=
  (paths.find? (· == path)).getD path

/-- The table holds the text at each path of the list, as it is read under the first spelling. -/
def Remembers (documents : Documents) (tree : FileTree) (texts : SortedTable Path (Option String))
    (paths : List Path) : Prop :=
  ∀ path, texts.get? path = (paths.find? (· == path)).map (documents.textOfPath? tree)

variable {texts : SortedTable Path (Option String)} {paths : List Path}

theorem remembers_empty : Remembers documents tree .empty [] := fun _ => rfl

/-- What is looked up is the text under the first spelling of the path, which may be this one. -/
theorem Remembers.getD_eq (h : Remembers documents tree texts paths) (path : Path)
    (later : List Path) :
    (texts.get? path).getD (documents.textOfPath? tree path) =
      documents.textOfPath? tree (firstSpelling (paths ++ path :: later) path) := by
  rw [h path, firstSpelling, List.find?_append]
  cases paths.find? (· == path) with
  | none => simp
  | some first => rfl

theorem Remembers.insert (h : Remembers documents tree texts paths) (path : Path) :
    Remembers documents tree
      (texts.insert path ((texts.get? path).getD (documents.textOfPath? tree path)))
      (paths ++ [path]) := by
  intro other
  rw [SortedTable.get?_insert, List.find?_append]
  by_cases hsame : (other == path) = true
  · -- the two paths are spelt alike by the first one of the list that is the same as either
    have hfind : paths.find? (· == other) = paths.find? (· == path) :=
      congrArg (paths.find? ·) (funext fun p => BEq.congr_right hsame)
    rw [if_pos (Path.compare_eq_iff.mpr hsame), h path, hfind]
    cases paths.find? (· == path) with
    | none => simp [BEq.symm hsame]
    | some first => rfl
  · have hdiffer : ¬(path == other) = true := fun hp => hsame (BEq.symm hp)
    rw [if_neg (fun hc => hsame (Path.compare_eq_iff.mp hc)), h other]
    cases paths.find? (· == other) with
    | none => simp [hdiffer]
    | some first => rfl

/-- Each location is rewritten by itself, with the text at the first spelling of its path. -/
theorem encodeInOrder_eq (encoding : Encoding) (h : Remembers documents tree texts paths)
    (locations : List Location) :
    encoding.encodeInOrder documents tree texts locations =
      locations.map fun l => encoding.encodeLocation
        (documents.textOfPath? tree (firstSpelling (paths ++ locations.map Location.path) l.path)) l := by
  induction locations generalizing texts paths with
  | nil => rfl
  | cons l rest ih =>
    rw [encodeInOrder, List.map_cons, List.map_cons, ih (h.insert l.path),
      h.getD_eq l.path (rest.map Location.path), List.append_assoc, List.singleton_append]

theorem encodeLocations_eq_map (documents : Documents) (tree : FileTree)
    (locations : List Location) :
    utf16.encodeLocations documents tree locations =
      locations.map fun l => utf16.encodeLocation
        (documents.textOfPath? tree (firstSpelling (locations.map Location.path) l.path)) l := by
  rw [encodeLocations, encodeInOrder_eq utf16 remembers_empty, List.nil_append]

theorem encodeLocation_path (encoding : Encoding) (text? : Option String) (l : Location) :
    (encoding.encodeLocation text? l).path = l.path := by
  cases text? with
  | none => rfl
  | some text => rfl

theorem decode_unitsOfColumn {lines : List String} {p : Position} {line : String}
    (hline : lines[p.line]? = some line) (hcolumn : p.column ≤ line.length) :
    utf16.decode lines ⟨p.line, Text.unitsOfColumn line p.column⟩ = p := by
  rw [decode, hline, Option.map_some, Option.getD_some,
    Text.columnOfUnits_unitsOfColumn hcolumn]

end Encoding

namespace Server

variable {server : Server} {tree : FileTree} {url : Url} {path : Path} {text line : String}
  {cursor : Position}

/-- The server with a client that counts columns in this way. -/
def counting (server : Server) (encoding : Encoding) : Server := { server with encoding }

/-- What a search finds in a text, whatever the client counts. -/
theorem locationsAt_counting (hpath : url.toPath? = some path)
    (htext : server.documents.text? tree url path = some text) (encoding : Encoding)
    (search : Search) (cursor : Position) :
    (server.counting encoding).locationsAt tree search url cursor =
      (({ server with
          workspace := ((queryOf search tree path (Text.lines text)
            (encoding.decode (Text.lines text) cursor)).run tree server.workspace).2 }).counting
          encoding,
        encoding.encodeLocations server.documents tree
          ((queryOf search tree path (Text.lines text)
            (encoding.decode (Text.lines text) cursor)).run tree server.workspace).1) := by
  simp only [locationsAt, hpath, htext, counting]

theorem filterMap_linkTo?_urls {locations : List Location} {f : Location → Location}
    (hf : ∀ l, (f l).path = l.path) :
    ((locations.map f).filterMap linkTo?).map Link.url =
      (locations.filterMap linkTo?).map Link.url := by
  induction locations with
  | nil => rfl
  | cons l rest ih =>
    rw [List.map_cons, List.filterMap_cons, List.filterMap_cons, linkTo?, linkTo?, hf l]
    cases Url.ofPath? l.path with
    | none => exact ih
    | some url => exact congrArg (url :: ·) ih

/-- A search at the unit column of a column finds what the search by characters finds there. The
results come in the same order, each with its columns in units of the text at its path. For this, unit
columns and columns undo each other on every line. -/
theorem locationsAt_utf16 (hpath : url.toPath? = some path)
    (htext : server.documents.text? tree url path = some text)
    (hline : (Text.lines text)[cursor.line]? = some line) (hcolumn : cursor.column ≤ line.length)
    (search : Search) :
    let byUnits := (server.counting .utf16).locationsAt tree search url
      ⟨cursor.line, Text.unitsOfColumn line cursor.column⟩
    let byCharacters := (server.counting .utf32).locationsAt tree search url cursor
    byUnits = (byCharacters.1.counting .utf16,
        Encoding.utf16.encodeLocations server.documents tree byCharacters.2) ∧
      byUnits.2 = byCharacters.2.map (fun l => Encoding.utf16.encodeLocation
        (server.documents.textOfPath? tree
          (Encoding.firstSpelling (byCharacters.2.map Location.path) l.path)) l) ∧
      (byUnits.2.filterMap linkTo?).map Link.url =
        (byCharacters.2.filterMap linkTo?).map Link.url ∧
      (∀ (line : String) (units : Nat),
        IsLeast {column | units ≤ Text.unitsOfColumn line column ∨ column = line.length}
          (Text.columnOfUnits line units)) ∧
      ∀ (line : String) (column : Nat), column ≤ line.length →
        Text.columnOfUnits line (Text.unitsOfColumn line column) = column := by
  intro byUnits byCharacters
  have hcursor : Encoding.utf16.decode (Text.lines text)
      ⟨cursor.line, Text.unitsOfColumn line cursor.column⟩ = cursor :=
    Encoding.decode_unitsOfColumn hline hcolumn
  -- both clients ask the same query, and what it finds is rewritten for one of them
  have hboth : byUnits = (byCharacters.1.counting .utf16,
      Encoding.utf16.encodeLocations server.documents tree byCharacters.2) := by
    simp only [byUnits, byCharacters, locationsAt_counting hpath htext, hcursor]
    rfl
  have hfound := congrArg Prod.snd hboth
  have hmap := hfound.trans (Encoding.encodeLocations_eq_map server.documents tree byCharacters.2)
  refine ⟨hboth, hmap, ?_, Text.isLeast_columnOfUnits, fun line column =>
    Text.columnOfUnits_unitsOfColumn⟩
  rw [hmap]
  exact filterMap_linkTo?_urls fun l => Encoding.encodeLocation_path _ _ _

/-- A source tree with one registration, whose key lies partly beyond the basic plane. -/
def emojiTree : FileTree :=
  (FileTree.empty.write ["src", "lower.cc"]
    "TVM_REGISTER_GLOBAL(\"relay.😀\")\n".toUTF8.toList).makeDirectory ["python", "tvm"]

def useUrl : Url := .file ⟨"", ["src", "use.cc"], none, none⟩

def useLine : String := "/* 😀 */ auto f = GetPackedFunc(\"relay.😀\");"

/-- A server that has scanned the tree, with an open document that looks the key up. -/
def emojiServer : Server where
  phase := .running
  workspace := (Workspace.empty.start emojiTree (.ofString "/")).1
  documents := Documents.empty.store useUrl useLine
  encoding := .utf16

theorem locationsAt_utf16_emoji :
    useUrl.toPath? = some (.ofString "/src/use.cc") ∧
      emojiServer.documents.text? emojiTree useUrl (.ofString "/src/use.cc") = some useLine ∧
      (Text.lines useLine)[0]? = some useLine ∧ 35 ≤ useLine.length ∧
      Text.unitsOfColumn useLine 35 = 36 ∧
      ((emojiServer.counting .utf32).locationsAt emojiTree .definitions useUrl ⟨0, 35⟩).2 =
        [⟨.ofString "/src/lower.cc", .onLine 0 21 28⟩] ∧
      ((emojiServer.counting .utf16).locationsAt emojiTree .definitions useUrl ⟨0, 36⟩).2 =
        [⟨.ofString "/src/lower.cc", .onLine 0 21 29⟩] := by
  have hpath : useUrl.toPath? = some (.ofString "/src/use.cc") := by decide +kernel
  have htext : emojiServer.documents.text? emojiTree useUrl (.ofString "/src/use.cc") =
      some useLine := by decide +kernel
  have hline : (Text.lines useLine)[0]? = some useLine := by decide +kernel
  have hcolumn : 35 ≤ useLine.length := by decide +kernel
  have hunits : Text.unitsOfColumn useLine 35 = 36 := by decide +kernel
  have hfound : ((emojiServer.counting .utf32).locationsAt emojiTree .definitions useUrl
      ⟨0, 35⟩).2 = [⟨.ofString "/src/lower.cc", .onLine 0 21 28⟩] := by decide +kernel
  have hboth := (@locationsAt_utf16 emojiServer emojiTree useUrl _ useLine useLine ⟨0, 35⟩
    hpath htext hline hcolumn .definitions).1
  have hencoded := congrArg Prod.snd hboth
  dsimp only at hencoded
  rw [hunits, hfound] at hencoded
  refine ⟨hpath, htext, hline, hcolumn, hunits, hfound, hencoded.trans ?_⟩
  decide +kernel

end Server

end CrossIndex
