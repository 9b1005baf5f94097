import CrossIndex.Text.Blank
import CrossIndex.Text.CaseFold
import CrossIndex.Text.Digit
import CrossIndex.Text.Word

/-!
Classes of characters, as the terms from which patterns build them.
-/

namespace CrossIndex

inductive CharClass where
  | none
  | range (first last : Char)
  | blank
  | digit
  | word
  | union (a b : CharClass)
  | both (a b : CharClass)
  | compl (a : CharClass)
  /-- The characters that differ at most in case from one of the class. -/
  | folded (a : CharClass)
  deriving DecidableEq, Repr, Inhabited

namespace CharClass

def contains : CharClass → Char → Bool
  | none, _ => false
  | range first last, c => first ≤ c && c ≤ last
  | blank, c => Text.isBlank c
  | digit, c => Text.isDigit c
  | word, c => Text.isWord c
  | union a b, c => a.contains c || b.contains c
  | both a b, c => a.contains c && b.contains c
  | compl a, c => !a.contains c
  | folded a, c => (Text.caseVariants c).any a.contains

def single (c : Char) : CharClass := range c c

/-- The class of every character. -/
def any : CharClass := compl none

/-- The class of every character but the line feed. -/
def noLineFeed : CharClass := compl (single '\n')

/-- The characters of the first class that are not in the second. -/
def without (a b : CharClass) : CharClass := both a (compl b)

/-- The characters of just one of two classes. -/
def either (a b : CharClass) : CharClass := union (without a b) (without b a)

/-- The union of classes. -/
def unions (classes : List CharClass) : CharClass :=
  classes.foldr union none

def ofString (chars : String) : CharClass :=
  unions (chars.toList.map single)

def lower : CharClass := range 'a' 'z'

def upper : CharClass := range 'A' 'Z'

def asciiDigit : CharClass := range '0' '9'

def alnum : CharClass := unions [upper, lower, asciiDigit]

@[simp] theorem contains_single (c d : Char) : (single c).contains d = true ↔ d = c := by
  simp only [single, contains, Bool.and_eq_true, decide_eq_true_eq]
  constructor
  · intro ⟨h, h'⟩
    exact Char.le_antisymm h' h
  · rintro rfl
    exact ⟨Char.le_refl _, Char.le_refl _⟩

@[simp] theorem contains_compl (a : CharClass) (c : Char) :
    (compl a).contains c = !a.contains c := rfl

@[simp] theorem contains_union (a b : CharClass) (c : Char) :
    (union a b).contains c = (a.contains c || b.contains c) := rfl

end CharClass

end CrossIndex
