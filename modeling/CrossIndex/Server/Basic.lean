import CrossIndex.Fact.Json
import CrossIndex.Server.Documents
import CrossIndex.Version
import CrossIndex.Workspace.Query

/-!
The language server: what it keeps between messages, and how it answers each. A client starts it
once and shuts it down once; between these it asks for definitions and references.
-/

namespace CrossIndex

/-- Where a server is in its life. -/
inductive Phase where
  | fresh
  | running
  | shutDown
  deriving DecidableEq, Repr

/-- Why a request is refused. -/
inductive RequestError where
  | notStarted
  /-- The server has been started before, or has been shut down. -/
  | badRequest
  /-- A URL in the request is none. -/
  | badUrl
  deriving DecidableEq, Repr

def RequestError.code : RequestError → Int
  | notStarted => -32002
  | badRequest => -32600
  | badUrl => -32602

/-- What a client says of itself when it starts the server. -/
structure Client where
  rootUrl? : Option String
  folders : List String
  /-- The encodings of columns that it can take. -/
  encodings : List String
  deriving Repr

/-- What a query asks for. -/
inductive Search where
  | definitions
  | references
  deriving DecidableEq, Repr

/-- A message that is answered. -/
inductive Request where
  | start (client : Client)
  | search (search : Search) (url : String) (cursor : Position)
  | shutDown
  deriving Repr

/-- A message that is not answered. -/
inductive Notification where
  | started
  | opened (url text : String)
  /-- Each change is the whole new text. -/
  | changed (url : String) (texts : List String)
  | saved (url : String) (text? : Option String)
  | closed (url : String)
  | fileChanged (url : String)
  deriving Repr

/-- A place in a document of the client. -/
structure Link where
  url : Url
  range : Range
  deriving Repr

/-- What a server answers. -/
inductive Reply where
  | started (encoding : Encoding)
  | links (links : List Link)
  | shutDown
  deriving Repr

/-- What a server keeps between messages. -/
structure Server where
  phase : Phase
  workspace : Workspace
  documents : Documents
  encoding : Encoding
  deriving Repr

namespace Server

def fresh : Server := ⟨.fresh, .empty, .empty, .utf16⟩

def readUrls (texts : List String) : Except RequestError (List Url) :=
  texts.mapM fun text =>
    match Url.read? text with
    | some url => .ok url
    | none => .error .badUrl

/-- The root that a client names. Its first folder goes before the root, also when that is no
directory of this machine. -/
def rootOf (folders roots : List Url) : Option Path :=
  (folders ++ roots).head?.bind Url.toPath?

/-- Starts the server. A root that cannot be scanned leaves the workspace as it is. -/
def start (server : Server) (tree : FileTree) (client : Client) :
    Except RequestError (Server × Reply) := do
  let folders ← readUrls client.folders
  let roots ← readUrls client.rootUrl?.toList
  let encoding := Encoding.choose client.encodings
  let workspace :=
    match rootOf folders roots with
    | some root => (server.workspace.start tree root).1
    | none => server.workspace
  return ({ server with phase := .running, workspace, encoding }, .started encoding)

/-- The query that a search stands for. -/
def queryOf (search : Search) (tree : FileTree) (path : Path) (lines : List String)
    (cursor : Position) : Query (List Location) :=
  match search with
  | .definitions => Query.definitionsAt tree path lines cursor
  | .references => Query.referencesAt tree path lines cursor

/-- What a search finds at a cursor of a document, with columns as the client counts them. Where
there is no text there is nothing. -/
def locationsAt (server : Server) (tree : FileTree) (search : Search) (url : Url)
    (cursor : Position) : Server × List Location :=
  match url.toPath? with
  | none => (server, [])
  | some path =>
    match server.documents.text? tree url path with
    | none => (server, [])
    | some text =>
      let lines := Text.lines text
      let query := queryOf search tree path lines (server.encoding.decode lines cursor)
      let (found, workspace) := query.run tree server.workspace
      ({ server with workspace },
        server.encoding.encodeLocations server.documents tree found)

/-- The link to a location. -/
def linkTo? (l : Location) : Option Link := (Url.ofPath? l.path).map fun url => ⟨url, l.range⟩

/-- Answers a request of a client that has started the server. -/
def answer (server : Server) (tree : FileTree) (request : Request) :
    Except RequestError (Server × Reply) :=
  match request with
  | .start _ => .error .badRequest
  | .shutDown => .ok ({ server with phase := .shutDown }, .shutDown)
  | .search search url cursor =>
    match Url.read? url with
    | none => .error .badUrl
    | some url =>
      let (server, found) := server.locationsAt tree search url cursor
      .ok (server, .links (found.filterMap linkTo?))

/-- Takes a request. One that is refused changes nothing. -/
def request (server : Server) (tree : FileTree) (request : Request) :
    Server × Except RequestError Reply :=
  let outcome :=
    match server.phase, request with
    | .fresh, .start client => server.start tree client
    | .fresh, _ => .error .notStarted
    | .running, request => server.answer tree request
    | .shutDown, _ => .error .badRequest
  match outcome with
  | .ok (server, reply) => (server, .ok reply)
  | .error e => (server, .error e)

/-- The message that says what has been indexed. -/
def welcome : Option Stats → String
  | some stats =>
    "ffi-navigator indexed " ++ toString stats.files ++ " files ("
      ++ ", ".intercalate stats.dialects ++ ")"
  | none => "ffi-navigator started without a workspace"

/-- Stores the text of a document, if there is one. -/
def storeText (server : Server) (url : Url) : Option String → Server
  | some text => { server with documents := server.documents.store url text }
  | none => server

def requestReload (server : Server) : Server :=
  { server with workspace := server.workspace.requestReload }

/-- What a server does with a notification about a document. Of several changes the first counts. -/
def heed (server : Server) (tree : FileTree) (notification : Notification) :
    Server × List String :=
  let about := fun (text : String) (act : Url → Server) =>
    ((Url.read? text).elim server act, [])
  match notification with
  | .started =>
    let (stats, workspace) := Query.stats.run tree server.workspace
    ({ server with workspace }, [welcome stats])
  | .opened url text => about url fun url => server.storeText url (some text)
  | .changed url texts => about url fun url => server.storeText url texts.head?
  | .saved url text? => about url fun url => (server.storeText url text?).requestReload
  | .closed url => about url fun url =>
    { server with documents := server.documents.close url }
  | .fileChanged url => about url fun _ => server.requestReload

/-- Takes a notification, and gives the messages logged for it. Before the start and after the end
it is ignored. -/
def notify (server : Server) (tree : FileTree) (notification : Notification) :
    Server × List String :=
  match server.phase with
  | .running => server.heed tree notification
  | .fresh | .shutDown => (server, [])

end Server

end CrossIndex
