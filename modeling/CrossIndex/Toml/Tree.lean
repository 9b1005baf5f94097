import CrossIndex.Toml.Basic

/-!
The tables of a TOML document while it is read. What may still be added to a table depends on how
the table came to be: a header may open it once, and dotted keys extend only tables that no header
has opened.
-/

namespace CrossIndex.Toml

/-- How a table came to be. -/
inductive Origin where
  /-- A header of its own, or the document itself. -/
  | header
  /-- The path of a header of another table. -/
  | headerPath
  /-- The path of a dotted key. -/
  | keyPath
  deriving DecidableEq, Repr

/-- What stands under a key of a document. -/
inductive Node where
  | value (v : Toml)
  | table (origin : Origin) (members : List (String × Node))
  /-- An array of tables, the last one first. -/
  | tables (reversed : List (List (String × Node)))
  deriving Inhabited

namespace Node

abbrev Members := List (String × Node)

def find? (members : Members) (key : String) : Option Node :=
  (members.find? (·.1 = key)).map Prod.snd

/-- Puts something under a key, in place of what stood there. -/
def put (members : Members) (key : String) (node : Node) : Members :=
  match members with
  | [] => [(key, node)]
  | (other, old) :: rest =>
    if other = key then (key, node) :: rest else (other, old) :: put rest key node

/-- Changes the table at the end of a path, and makes the tables that are missing on the way. `made`
is the origin of those; dotted keys do not pass a table with a header of its own. An array of tables
leads on to its last one. -/
def change (made : Origin) (path : List String) (origin : Origin) (members : Members)
    (act : Origin → Members → Option Members) : Option Members :=
  match path with
  | [] => act origin members
  | key :: path =>
    match find? members key with
    | none => do
      let inner ← change made path made [] act
      return put members key (.table made inner)
    | some (.table inside inner) =>
      if made = .keyPath ∧ inside = .header then none
      else do
        let inner ← change made path inside inner act
        return put members key (.table inside inner)
    | some (.tables (last :: before)) => do
      let last ← change made path .header last act
      return put members key (.tables (last :: before))
    | some (.tables []) | some (.value _) => none

/-- Puts a value under the last part of a dotted key. The table there must have come from dotted
keys too, unless the key has one part. -/
def addValue (path : List String) (key : String) (v : Toml) (origin : Origin)
    (members : Members) : Option Members :=
  change .keyPath path origin members fun origin members =>
    if (find? members key).isSome ∨ (path ≠ [] ∧ origin ≠ .keyPath) then none
    else some (put members key (.value v))

/-- Opens a table with a header. -/
def openTable (path : List String) (key : String) (root : Members) : Option Members :=
  change .headerPath path .header root fun _ members =>
    match find? members key with
    | none => some (put members key (.table .header []))
    | some (.table .headerPath inner) => some (put members key (.table .header inner))
    | some _ => none

/-- Opens one more table of an array of tables. -/
def openItem (path : List String) (key : String) (root : Members) : Option Members :=
  change .headerPath path .header root fun _ members =>
    match find? members key with
    | none => some (put members key (.tables [[]]))
    | some (.tables reversed) => some (put members key (.tables ([] :: reversed)))
    | some _ => none

mutual

def toValue : Node → Toml
  | value v => v
  | table _ members => .table (membersValue members)
  | tables reversed => .array (tablesValue reversed [])

def membersValue : List (String × Node) → List (String × Toml)
  | [] => []
  | (key, node) :: rest => (key, toValue node) :: membersValue rest

/-- The values of tables, the last of which comes first, before others. -/
def tablesValue : List (List (String × Node)) → List Toml → List Toml
  | [], items => items
  | members :: before, items => tablesValue before (.table (membersValue members) :: items)

end

end Node

end CrossIndex.Toml
