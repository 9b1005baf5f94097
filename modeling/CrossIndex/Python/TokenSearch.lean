import CrossIndex.Position
import CrossIndex.Text.Blank
import CrossIndex.Text.Column

/-!
Search for whole tokens. A token is bounded on both sides by a delimiter or an end of the line. All terms
are looked for at once, as the alternatives of one pattern.
-/

namespace CrossIndex.Python

/-- The characters that bound tokens. -/
def isDelimiter (c : Char) : Bool :=
  Text.isBlank c || ".,()[]\x7b\x7d:=+-*".toList.contains c

/-- The terms in the order in which they are tried: those of more bytes first, empty ones left
out. -/
def searchOrder (terms : List String) : List (List Char) :=
  ((terms.filter (· ≠ "")).mergeSort fun a b => b.utf8ByteSize ≤ a.utf8ByteSize).map String.toList

/-- The first of the terms that starts the text as a whole token, with its length. -/
def termAt? (terms : List (List Char)) (text : List Char) : Option Nat :=
  (terms.find? fun term =>
    term.isPrefixOf text && (text.drop term.length).head?.all isDelimiter).map List.length

/-- The columns of the tokens found in the rest of a line, of which `column` is the column. A token
may start at the very start of the line, or after a delimiter; the search goes on at the end of each
token, so that its delimiter can open the next one. `skip` counts the characters of the token found
last that are still to be passed. -/
def tokensFrom (terms : List (List Char)) (column skip : Nat) (atStart : Bool) :
    List Char → List (Nat × Nat)
  | [] => []
  | c :: rest =>
    if skip > 0 then tokensFrom terms (column + 1) (skip - 1) false rest
    else
      match (if atStart then termAt? terms (c :: rest) else none) with
      | some length =>
        (column, column + length) :: tokensFrom terms (column + 1) (length - 1) false rest
      | none =>
        match (if isDelimiter c then termAt? terms rest else none) with
        | some length =>
          (column + 1, column + 1 + length) :: tokensFrom terms (column + 1) length false rest
        | none => tokensFrom terms (column + 1) 0 false rest

/-- The ranges of all whole tokens among the terms, line by line. The pattern of the terms has no limit on
its size: the case that it is too large to be searched for, and nothing is found, is left out. -/
def findTokens (lines : List String) (terms : List String) : List Range :=
  let terms := searchOrder terms
  lines.zipIdx.flatMap fun (line, index) =>
    (tokensFrom terms 0 0 true line.toList).map fun (first, last) =>
      Range.onLine index first last

end CrossIndex.Python
