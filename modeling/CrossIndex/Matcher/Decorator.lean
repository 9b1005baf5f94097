import CrossIndex.Matcher.Key

/-!
Registration decorators: `@ns.NAME("key")`, or a bare `@ns.NAME` whose key is the name declared on
the next line.
-/

namespace CrossIndex

/-- A decorator and the declaration below it. -/
structure DecoratorMatcher where
  decorator : Pattern
  declaration : Pattern
  deriving Repr, Inhabited

namespace Pattern

def identifierStart : CharClass := .unions [.upper, .lower, .single '_']

def identifierPart : CharClass := .unions [.upper, .lower, .single '_', .asciiDigit]

def identifier : Regex :=
  .seq (.one identifierStart) (.star true (.one identifierPart))

/-- Blanks, an optional `@`, a dotted name that ends in one of the names, and either a key in quotes
after a parenthesis or nothing more than an empty pair of parentheses between blanks. -/
def decorator (names : List String) : Pattern :=
  ⟨.seqs [.anchor .textStart, .blanks, .opt true (.char '@'),
    .group 1 (.seq (.star true (.seq identifier (.char '.'))) (anyName names)),
    .alt
      (.seqs [.char '(', quote, keyGroup 2, quote])
      (.seqs [.blanks, .opt true (.seqs [.char '(', .blanks, .char ')']), .blanks,
        .anchor .textEnd])],
    keyNames⟩

/-- A keyword between blanks, and the identifier that it declares, which is followed by a
parenthesis or a colon. -/
def declaration (keyword : String) : Pattern :=
  ⟨.seqs [.anchor .textStart, .blanks, .text keyword, .blanks1, .group 1 identifier, .blanks,
    .one (.union (.single '(') (.single ':'))], [("key", 1)]⟩

end Pattern

namespace DecoratorMatcher

/-- The decorators of these names, over declarations with the keyword. -/
def ofNames (names : List String) (keyword : String) : DecoratorMatcher :=
  ⟨.decorator names, .declaration keyword⟩

/-- The same, for which there must be a name. -/
def ofNames? (names : List String) (keyword : String) : Except PatternError DecoratorMatcher :=
  if names = [] then .error .noNames else .ok (ofNames names keyword)

/-- The key of a decorator on a line: the one in its quotes, or the name declared on the line
below. -/
def hit? (d : DecoratorMatcher) (index : Nat) (line : String) (below? : Option String) :
    Option KeyHit := do
  let text := line.toList
  let place ← d.decorator.body.search? text
  let (nameFirst, nameLast) ← d.decorator.named? place "name"
  let name := slice text nameFirst nameLast
  match d.decorator.named? place "key" with
  | some (first, last) => return ⟨name, slice text first last, Range.onLine index first last⟩
  | none =>
    let text := (← below?).toList
    let place ← d.declaration.body.search? text
    let (first, last) ← d.declaration.named? place "key"
    return ⟨name, slice text first last, Range.onLine (index + 1) first last⟩

/-- The keys of the decorators in a window. The declaration of a decorator may lie below the
window. -/
def hits (d : DecoratorMatcher) (lines : List String) (w : Window) : List KeyHit :=
  w.scan lines fun index line below? => (d.hit? index line below?).toList

end DecoratorMatcher

end CrossIndex
