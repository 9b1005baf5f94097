import CrossIndex.Proofs.Server.Columns

/-!
The texts behind results. A search reads the document under the URL that the client gives, and shows each
result by the text under the URL that is written for the path of the result. Main statement: the two are
one text when the URL of the client is the one that is written for the result; no other URL of the same
file has this for all documents.
-/

open Std

namespace CrossIndex

theorem Url.ofPath?_congr {p q : Path} (h : (p == q) = true) : Url.ofPath? p = Url.ofPath? q := by
  have hcomponents := (Path.beq_iff p q).mp h
  rw [Url.ofPath?, Url.ofPath?, FileUrl.ofPath?, FileUrl.ofPath?, hcomponents,
    Path.isAbsolute_congr h]

theorem FileTree.readText?_empty (path : Path) : FileTree.empty.readText? path = none := by
  have hentry : ∀ place bytes, FileTree.empty.entryAt? place ≠ some (.file bytes) := by
    intro place bytes h
    rw [entryAt?] at h
    split at h
    · cases h
    · cases h
  rw [readText?, read?, entry?]
  cases FileTree.empty.locate? path with
  | none => rfl
  | some place =>
    rw [Option.bind_eq_bind, Option.bind_some]
    split
    · next bytes hfile => exact absurd hfile (hentry place bytes)
    · rfl

namespace Documents

variable {documents : Documents} {tree : FileTree} {url : Url} {file path : Path} {text : String}

theorem textOfPath?_of_written (hwritten : Url.ofPath? path = some url)
    (hopen : documents.get? url = some text) : documents.textOfPath? tree path = some text := by
  rw [textOfPath?, hwritten, Option.bind_some, hopen, Option.some_or]

/-- An open document is what is read at a path, whatever else there is, just when its URL is the one that
is written for the path. -/
theorem written_iff (path : Path) (url : Url) :
    Url.ofPath? path = some url ↔
      ∀ (documents : Documents) (tree : FileTree) (text : String),
        documents.get? url = some text → documents.textOfPath? tree path = some text := by
  constructor
  · intro hwritten documents tree text hopen
    exact textOfPath?_of_written hwritten hopen
  · intro h
    -- where there is no file and no other document, nothing else can be read
    have halone := h ⟨[(url, "")]⟩ .empty "" (by simp [get?])
    rw [textOfPath?, FileTree.readText?_empty, Option.or_none] at halone
    obtain ⟨written, hwritten, hget⟩ := Option.bind_eq_some_iff.mp halone
    by_cases hsame : url = written
    · rw [hwritten, hsame]
    · simp [get?, hsame] at hget

end Documents

namespace Encoding

/-- The text by which a location is shown among others: the one at the first spelling of its path. -/
def textFor? (documents : Documents) (tree : FileTree) (locations : List Location) (l : Location) :
    Option String :=
  documents.textOfPath? tree (firstSpelling (locations.map Location.path) l.path)

variable {documents : Documents} {tree : FileTree} {locations : List Location} {l : Location}

theorem firstSpelling_beq (paths : List Path) (path : Path) :
    (firstSpelling paths path == path) = true := by
  rw [firstSpelling]
  cases hfind : paths.find? (· == path) with
  | none => exact BEq.rfl
  | some first =>
    have hfirst := List.find?_some hfind
    exact hfirst

theorem textFor?_eq (documents : Documents) (tree : FileTree) (locations : List Location)
    (l : Location) :
    ∃ path, (path == l.path) = true ∧
      textFor? documents tree locations l =
        ((Url.ofPath? l.path).bind documents.get?).or (tree.readText? path) := by
  refine ⟨firstSpelling (locations.map Location.path) l.path, firstSpelling_beq _ _, ?_⟩
  rw [textFor?, Documents.textOfPath?, Url.ofPath?_congr (firstSpelling_beq _ l.path)]

end Encoding

namespace Server

variable {server : Server} {tree : FileTree} {url : Url} {path : Path} {text : String}

/-- A search in an open document reads its text for the cursor. Each result is shown by the text of the
document that is open under the URL written for the path of the result, or else by that of the file. That
is the text of the cursor when the URL of the search is the one that is written there; and under no other
URL is it so for all documents. -/
theorem locationsAt_openText (hpath : url.toPath? = some path)
    (hopen : server.documents.get? url = some text) (search : Search) (cursor : Position) :
    let found := ((queryOf search tree path (Text.lines text)
      (Encoding.utf16.decode (Text.lines text) cursor)).run tree server.workspace).1
    let text? := Encoding.textFor? server.documents tree found
    ((server.counting .utf16).locationsAt tree search url cursor).2 =
        found.map (fun l => Encoding.utf16.encodeLocation (text? l) l) ∧
      ∀ l ∈ found,
        (∃ spelling, (spelling == l.path) = true ∧ text? l =
          ((Url.ofPath? l.path).bind server.documents.get?).or (tree.readText? spelling)) ∧
        (Url.ofPath? l.path = some url → text? l = some text) ∧
        (Url.ofPath? l.path = some url ↔
          ∀ (documents : Documents) (tree : FileTree) (text : String),
            documents.get? url = some text → documents.textOfPath? tree l.path = some text) := by
  intro found text?
  have htext : server.documents.text? tree url path = some text := by
    rw [Documents.text?, hopen, Option.some_or]
  constructor
  · rw [locationsAt_counting hpath htext .utf16 search cursor]
    exact Encoding.encodeLocations_eq_map server.documents tree found
  · intro l _
    obtain ⟨spelling, hspelling, heq⟩ := Encoding.textFor?_eq server.documents tree found l
    refine ⟨⟨spelling, hspelling, heq⟩, ?_, Documents.written_iff l.path url⟩
    intro hwritten
    change Encoding.textFor? server.documents tree found l = some text
    rw [heq, hwritten, Option.bind_some, hopen, Option.some_or]

/-- A source tree with one use of a key. -/
def useTree : FileTree :=
  (FileTree.empty.write ["src", "use.cc"]
    "/* x */ auto f = GetPackedFunc(\"relay.lower\");".toUTF8.toList).makeDirectory
      ["python", "tvm"]

/-- What a client has made of the file, with a character beyond the basic plane in front of the use. -/
def useBuffer : String := "/* 😀 */ auto f = GetPackedFunc(\"relay.lower\");"

/-- A server that has scanned the tree, with the file open under a URL. -/
def serverWith (url : Url) : Server where
  phase := .running
  workspace := (Workspace.empty.start useTree (.ofString "/")).1
  documents := Documents.empty.store url useBuffer
  encoding := .utf16

/-- The URL of the file with a letter encoded that needs no encoding. -/
def escapedUrl : Url := .file ⟨"", ["src", "us%65.cc"], none, none⟩

theorem locationsAt_openText_use :
    useUrl.toPath? = some (.ofString "/src/use.cc") ∧
      (serverWith useUrl).documents.get? useUrl = some useBuffer ∧
      Url.ofPath? (.ofString "/src/use.cc") = some useUrl ∧
      (((serverWith useUrl).counting .utf16).locationsAt useTree .references useUrl ⟨0, 35⟩).2 =
        [⟨.ofString "/src/use.cc", .onLine 0 33 44⟩] := by
  have hpath : useUrl.toPath? = some (.ofString "/src/use.cc") := by decide +kernel
  have hopen : (serverWith useUrl).documents.get? useUrl = some useBuffer := by decide +kernel
  have hwritten : Url.ofPath? (.ofString "/src/use.cc") = some useUrl := by decide +kernel
  have hfound : ((queryOf .references useTree (.ofString "/src/use.cc") (Text.lines useBuffer)
      (Encoding.utf16.decode (Text.lines useBuffer) ⟨0, 35⟩)).run useTree
        (serverWith useUrl).workspace).1 = [⟨.ofString "/src/use.cc", .onLine 0 32 43⟩] := by
    decide +kernel
  obtain ⟨hshown, htexts⟩ := locationsAt_openText hpath hopen .references ⟨0, 35⟩
  rw [hfound] at hshown htexts
  have htext := (htexts _ (List.mem_singleton_self _)).2.1 hwritten
  rw [List.map_singleton, htext] at hshown
  refine ⟨hpath, hopen, hwritten, hshown.trans ?_⟩
  decide +kernel

/-- Under a URL that encodes a letter without need the cursor is read in the buffer, but the use in the
same file is shown by the text on disk, in which it stands one unit further left. -/
theorem locationsAt_openText_escaped :
    Url.read? "file:///src/us%65.cc" = some escapedUrl ∧
      escapedUrl.toPath? = some (.ofString "/src/use.cc") ∧
      (serverWith escapedUrl).documents.text? useTree escapedUrl (.ofString "/src/use.cc") =
        some useBuffer ∧
      ((serverWith escapedUrl).locationsAt useTree .references escapedUrl ⟨0, 35⟩).2 =
        [⟨.ofString "/src/use.cc", .onLine 0 32 43⟩] ∧
      (((serverWith escapedUrl).counting .utf32).locationsAt useTree .references escapedUrl
          ⟨0, 34⟩).2.map (Encoding.utf16.encodeLocation (some useBuffer)) =
        [⟨.ofString "/src/use.cc", .onLine 0 33 44⟩] := by
  decide +kernel

end Server

end CrossIndex
