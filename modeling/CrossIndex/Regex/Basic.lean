import CrossIndex.Regex.CharClass

/-!
Regular expressions with groups, as terms, and the forms built from them.
-/

namespace CrossIndex

/-- A condition on the place between two characters. -/
inductive Anchor where
  | textStart
  | textEnd
  | lineStart
  | lineEnd
  | boundary
  | noBoundary
  | wordStart
  | wordEnd
  /-- No word character comes before. -/
  | afterNoWord
  /-- No word character comes after. -/
  | beforeNoWord
  deriving DecidableEq, Repr

/-- The condition holds between two neighbours, of which the ends of the text have one. -/
def Anchor.holds (before after : Option Char) : Anchor → Bool
  | textStart => before.isNone
  | textEnd => after.isNone
  | lineStart => before.all (· == '\n')
  | lineEnd => after.all (· == '\n')
  | boundary => Text.isBoundary before after
  | noBoundary => !Text.isBoundary before after
  | wordStart => !before.any Text.isWord && after.any Text.isWord
  | wordEnd => before.any Text.isWord && !after.any Text.isWord
  | afterNoWord => !before.any Text.isWord
  | beforeNoWord => !after.any Text.isWord

inductive Regex where
  /-- Nothing. -/
  | empty
  /-- One character of a class. -/
  | one (c : CharClass)
  | anchor (a : Anchor)
  | seq (a b : Regex)
  /-- The first of the two that leads to a match. -/
  | alt (a b : Regex)
  /-- The body once or more; with `greedy` as often as possible, else as rarely. -/
  | plus (greedy : Bool) (body : Regex)
  /-- A group, which notes where its body matched. -/
  | group (index : Nat) (body : Regex)
  deriving DecidableEq, Repr, Inhabited

namespace Regex

def char (c : Char) : Regex := one (.single c)

def seqs : List Regex → Regex
  | [] => empty
  | [r] => r
  | r :: more => seq r (seqs more)

/-- The first of several expressions that leads to a match. -/
def alts : List Regex → Regex
  | [] => one .none
  | [r] => r
  | r :: more => alt r (alts more)

/-- The characters of a text, one after the other. -/
def text (chars : String) : Regex := seqs (chars.toList.map char)

/-- The body or nothing, the body first when greedy. -/
def opt (greedy : Bool) (body : Regex) : Regex :=
  if greedy then alt body empty else alt empty body

/-- The body any number of times. -/
def star (greedy : Bool) (body : Regex) : Regex := opt greedy (plus greedy body)

def times (n : Nat) (body : Regex) : Regex := seqs (List.replicate n body)

/-- The body up to a given number of times. -/
def upTo (greedy : Bool) (body : Regex) : Nat → Regex
  | 0 => empty
  | n + 1 => opt greedy (seq body (upTo greedy body n))

/-- The body at least `least` times, and at most `most` times where that is given. -/
def repeated (greedy : Bool) (body : Regex) (least : Nat) (most? : Option Nat) : Regex :=
  match most?, least with
  | none, 0 => star greedy body
  | none, n + 1 => seqs (List.replicate n body ++ [plus greedy body])
  | some most, least =>
    if most = 0 then empty
    else if least = most then times least body
    else seqs (List.replicate least body ++ [upTo greedy body (most - least)])

def blanks : Regex := star true (one .blank)

def blanks1 : Regex := plus true (one .blank)

/-- The number of groups up to the last one of an expression, the whole match counted as one. -/
def groupCount : Regex → Nat
  | empty | one _ | anchor _ => 1
  | seq a b | alt a b => max a.groupCount b.groupCount
  | plus _ body => body.groupCount
  | group index body => max (index + 1) body.groupCount

end Regex

end CrossIndex
