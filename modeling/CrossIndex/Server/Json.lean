import CrossIndex.Server.Basic

/-!
The JSON forms of the replies of a server.
-/

namespace CrossIndex

def Link.toJson (link : Link) : Json :=
  .object [("uri", .string link.url.toString), ("range", link.range.toJson)]

/-- The JSON form of a reply. Documents are synchronized by their whole texts; where nothing is
found the reply is null. -/
def Reply.toJson : Reply → Json
  | .started encoding =>
    .object [
      ("capabilities", .object [
        ("positionEncoding", .string encoding.name),
        ("textDocumentSync", .nat 1),
        ("definitionProvider", .bool true),
        ("referencesProvider", .bool true)]),
      ("serverInfo", .object [
        ("name", .string "ffi-navigator-lsp"), ("version", .string version)])]
  | .links [] | .shutDown => .null
  | .links found => .array (found.map Link.toJson)

end CrossIndex
