import CrossIndex.Text.Split

/-!
File paths. A path is kept as it is written, as the segments between its slashes, and is compared by
its components: doubled slashes, `.` inside and a slash at the end do not count.
-/

namespace CrossIndex

/-- A path as written: the segments between the slashes. An absolute path has an empty first
segment and at least one more. -/
structure Path where
  segments : List String
  deriving DecidableEq, Repr, Inhabited

/-- One step of a path. -/
inductive Component where
  | root
  | current
  | parent
  | name (text : String)
  deriving DecidableEq, Repr

namespace Component

def text : Component → String
  | root => "/"
  | current => "."
  | parent => ".."
  | name text => text

/-- The place of each kind of component in the order. -/
def rank : Component → Nat
  | root => 0
  | current => 1
  | parent => 2
  | name _ => 3

/-- Components are ordered by kind, and names by their characters. -/
def compare : Component → Component → Ordering
  | name a, name b => Ord.compare a b
  | a, b => Ord.compare a.rank b.rank

instance : Ord Component := ⟨Component.compare⟩

end Component

namespace Path

def ofString (text : String) : Path := ⟨Text.pieces '/' text⟩

def toString (p : Path) : String := "/".intercalate p.segments

instance : ToString Path := ⟨Path.toString⟩

def empty : Path := ⟨[""]⟩

def isAbsolute (p : Path) : Bool :=
  match p.segments with
  | "" :: _ :: _ => true
  | _ => false

/-- A segment that is no component: an empty one, or `.` after the first. -/
def isFiller (segment : String) : Bool :=
  segment == "" || segment == "."

/-- The segments that count as they stand at the front: the root, or a leading `.`. -/
def front (p : Path) : List String :=
  match p.segments with
  | "" :: _ :: _ => [""]
  | "." :: _ => ["."]
  | _ => []

/-- The segments after the front. -/
def body (p : Path) : List String :=
  p.segments.drop p.front.length

/-- The component of a segment of the body. -/
def bodyComponent? (segment : String) : Option Component :=
  if isFiller segment then none
  else if segment = ".." then some .parent
  else some (.name segment)

/-- The components of a path. -/
def components (p : Path) : List Component :=
  (match p.front with
    | [""] => [.root]
    | ["."] => [.current]
    | _ => []) ++ p.body.filterMap bodyComponent?

/-- Two paths are the same when their components are. -/
def same (p q : Path) : Bool :=
  p.components == q.components

instance : BEq Path := ⟨Path.same⟩

theorem beq_iff (p q : Path) : (p == q) = true ↔ p.components = q.components :=
  show (p.components == q.components) = true ↔ _ from beq_iff_eq

/-- Paths are ordered by their components. -/
def compare (p q : Path) : Ordering :=
  Ord.compare p.components q.components

instance : Ord Path := ⟨Path.compare⟩

/-- Drops the filler at the end of a list of segments. -/
def dropFiller (segments : List String) : List String :=
  (segments.reverse.dropWhile isFiller).reverse

/-- A path of a front and a body. -/
def ofParts (front body : List String) : Path :=
  match front, body with
  | [], [] => empty
  | [""], [] => ⟨["", ""]⟩
  | _, _ => ⟨front ++ body⟩

/-- The path without its last component; the root and the empty path have none. -/
def parent? (p : Path) : Option Path :=
  match dropFiller p.body with
  | [] => if p.front = ["."] then some empty else none
  | body => some (ofParts p.front (dropFiller body.dropLast))

/-- The last component, when it is a name. -/
def fileName? (p : Path) : Option String :=
  match p.components.getLast? with
  | some (.name text) => some text
  | _ => none

/-- Goes on from one path along another; an absolute path replaces what was there, and the empty
path leaves a slash at the end. -/
def join (p q : Path) : Path :=
  if q.isAbsolute then q
  else if p.segments.getLast? = some "" then ⟨p.segments.dropLast ++ q.segments⟩
  else ⟨p.segments ++ q.segments⟩

def joinText (p : Path) (text : String) : Path := p.join (ofString text)

/-- What is left of a relative path after its first component, without filler before it. -/
def afterFirst (p : Path) : Path :=
  let rest := if p.front = ["."] then p.body else (p.body.dropWhile isFiller).drop 1
  ofParts [] (rest.dropWhile isFiller)

/-- The components of the second path are the first ones of the first path. -/
def startsWith (p q : Path) : Bool :=
  q.components.isPrefixOf p.components

/-- The components of the second path are the last ones of the first path. -/
def endsWith (p q : Path) : Bool :=
  q.components.isSuffixOf p.components

/-- The path with text put after its last segment. -/
def append (p : Path) (text : String) : Path :=
  match p.segments.getLast? with
  | some last => ⟨p.segments.dropLast ++ [last ++ text]⟩
  | none => ⟨[text]⟩

end Path

end CrossIndex
