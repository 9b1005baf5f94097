import CrossIndex.Regex.Basic

/-!
Matching. A match is found by trying the alternatives of an expression in their order, from left to
right in the text; the first way through wins. A round of a repetition that passes no character ends
the repetition when it is the first round, and is no way through when it is a later one.
-/

namespace CrossIndex

/-- A place in a text: the character before it, its index, and the text after it. -/
structure Cursor where
  before : Option Char
  index : Nat
  rest : List Char
  deriving DecidableEq, Repr, Inhabited

def Cursor.start (text : List Char) : Cursor := ⟨none, 0, text⟩

/-- Where groups matched: their index, start and end, the latest first. -/
abbrev Captures := List (Nat × Nat × Nat)

/-- A match: where it starts and ends, and where its groups matched. -/
structure Match where
  start : Nat
  stop : Cursor
  captures : Captures
  deriving DecidableEq, Repr, Inhabited

namespace Match

/-- The span of a group; the group with index zero is the whole match. -/
def span? (m : Match) (group : Nat) : Option (Nat × Nat) :=
  if group = 0 then some (m.start, m.stop.index)
  else (m.captures.find? (·.1 = group)).map Prod.snd

def isEmpty (m : Match) : Bool := m.start == m.stop.index

end Match

namespace Regex

/-- What is tried after a part of an expression has matched. -/
abbrev Continuation (α : Type) := Cursor → Captures → Option α

/-- More rounds of a repetition, or its end, from a place that the last round came to; `rounds`
bounds their number. -/
def again {α : Type} (greedy : Bool)
    (body : Cursor → Captures → Continuation α → Option α) (k : Continuation α) :
    (rounds : Nat) → Continuation α
  | 0, place, captures => k place captures
  | rounds + 1, place, captures =>
    let round := fun (_ : Unit) =>
      body place captures fun next captures =>
        if next.index = place.index then none else again greedy body k rounds next captures
    if greedy then (round ()).orElse fun _ => k place captures
    else (k place captures).orElse round

/-- Matches an expression at a place and goes on with what follows. No repetition has more than
`rounds` rounds that pass a character, which the length of the text ensures. -/
def run {α : Type} (rounds : Nat) : Regex → Cursor → Captures → Continuation α → Option α
  | empty, place, captures, k => k place captures
  | one c, ⟨_, index, rest⟩, captures, k =>
    match rest with
    | [] => none
    | x :: rest => if c.contains x then k ⟨some x, index + 1, rest⟩ captures else none
  | anchor a, place, captures, k =>
    if a.holds place.before place.rest.head? then k place captures else none
  | seq a b, place, captures, k =>
    run rounds a place captures fun place captures => run rounds b place captures k
  | alt a b, place, captures, k =>
    (run rounds a place captures k).orElse fun _ => run rounds b place captures k
  | plus greedy body, place, captures, k =>
    run rounds body place captures fun next captures =>
      if next.index = place.index then k next captures
      else again greedy (run rounds body) k rounds next captures
  | group index body, place, captures, k =>
    run rounds body place captures fun next captures =>
      k next ((index, place.index, next.index) :: captures)

/-- The match of an expression that starts at a place. -/
def matchAt? (r : Regex) (rounds : Nat) (place : Cursor) : Option Match :=
  r.run rounds place [] fun stop captures => some ⟨place.index, stop, captures⟩

/-- The first match that starts at a place or after it; `rest` is the text after the place. -/
def searchFrom (r : Regex) (rounds : Nat) (before : Option Char) (index : Nat) :
    (rest : List Char) → Option Match
  | [] => r.matchAt? rounds ⟨before, index, []⟩
  | c :: rest =>
    (r.matchAt? rounds ⟨before, index, c :: rest⟩).orElse fun _ =>
      searchFrom r rounds (some c) (index + 1) rest

/-- The first match in a text. -/
def search? (r : Regex) (text : List Char) : Option Match :=
  r.searchFrom (text.length + 1) none 0 text

/-- The next match from a place on that is not an empty one right at the end of the last match. -/
def next? (r : Regex) (rounds : Nat) (last? : Option Nat) (place : Cursor) : Option Match := do
  let m ← r.searchFrom rounds place.before place.index place.rest
  if m.isEmpty && last? == some m.start then
    match place.rest with
    | [] => none
    | c :: rest => r.searchFrom rounds (some c) (place.index + 1) rest
  else return m

/-- All matches from a place on, each starting where the one before ends or later; at most `count`
of them. -/
def matchesFrom (r : Regex) (rounds : Nat) : (count : Nat) → Option Nat → Cursor → List Match
  | 0, _, _ => []
  | count + 1, last?, place =>
    match r.next? rounds last? place with
    | none => []
    | some m => m :: matchesFrom r rounds count (some m.stop.index) m.stop

/-- All matches in a text, from left to right. A text has at most one match more than it has
characters. -/
def allMatches (r : Regex) (text : List Char) : List Match :=
  r.matchesFrom (text.length + 1) (text.length + 1) none (.start text)

end Regex

end CrossIndex
