/-!
Tables. A sorted table keeps its entries in the order of their keys; a group table keeps lists under
keys in the order in which the keys first came.
-/

namespace CrossIndex

/-- Entries in the order of their keys, no two of which compare as equal. -/
structure SortedTable (κ α : Type) where
  entries : List (κ × α)
  deriving Repr, Inhabited

namespace SortedTable

variable {κ α : Type}

def empty : SortedTable κ α := ⟨[]⟩

/-- Puts an entry into its place. A key that compares as equal to one already there keeps the
spelling of that one. -/
def insertEntry [Ord κ] (key : κ) (value : α) : List (κ × α) → List (κ × α)
  | [] => [(key, value)]
  | (other, old) :: rest =>
    match compare key other with
    | .lt => (key, value) :: (other, old) :: rest
    | .eq => (other, value) :: rest
    | .gt => (other, old) :: insertEntry key value rest

/-- Puts a value under a key, in place of the one there. -/
def insert [Ord κ] (table : SortedTable κ α) (key : κ) (value : α) : SortedTable κ α :=
  ⟨insertEntry key value table.entries⟩

def get? [Ord κ] (table : SortedTable κ α) (key : κ) : Option α :=
  (table.entries.find? fun entry => compare key entry.1 == .eq).map Prod.snd

def contains [Ord κ] (table : SortedTable κ α) (key : κ) : Bool :=
  (table.get? key).isSome

end SortedTable

/-- Lists of values under keys. -/
structure GroupTable (κ α : Type) where
  groups : List (κ × List α)
  deriving Repr, Inhabited

namespace GroupTable

variable {κ α : Type}

def empty : GroupTable κ α := ⟨[]⟩

/-- Puts a value at the end of the group of a key, which is opened when there is none. -/
def addTo [BEq κ] (key : κ) (value : α) : List (κ × List α) → List (κ × List α)
  | [] => [(key, [value])]
  | (other, values) :: rest =>
    if other == key then (other, values ++ [value]) :: rest
    else (other, values) :: addTo key value rest

/-- Puts a value at the end of the group of a key. -/
def add [BEq κ] (table : GroupTable κ α) (key : κ) (value : α) : GroupTable κ α :=
  ⟨addTo key value table.groups⟩

/-- The values under a key, in the order in which they came. -/
def get [BEq κ] (table : GroupTable κ α) (key : κ) : List α :=
  ((table.groups.find? fun group => group.1 == key).map Prod.snd).getD []

def keyCount (table : GroupTable κ α) : Nat := table.groups.length

/-- All values with their keys, group by group. -/
def toList (table : GroupTable κ α) : List (κ × α) :=
  table.groups.flatMap fun (key, values) => values.map fun value => (key, value)

end GroupTable

end CrossIndex
