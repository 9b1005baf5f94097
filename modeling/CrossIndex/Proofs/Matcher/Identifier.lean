import CrossIndex.Matcher.Decorator
import CrossIndex.Proofs.Matcher.Key

/-!
Words that the patterns of decorators are made of: blanks, identifiers, and names behind a namespace. Main
statements: each is the language of its expression.
-/

namespace CrossIndex

open Regex Computability

def AreBlanks (text : List Char) : Prop := ∀ c ∈ text, Text.isBlank c = true

def isIdentifierStart (c : Char) : Bool := c.isAlpha || c == '_'

def isIdentifierPart (c : Char) : Bool := c.isAlphanum || c == '_'

/-- An identifier is a letter or an underscore, and behind it letters, digits and underscores, all of them
of ASCII. -/
def IsIdentifier : List Char → Prop
  | [] => False
  | c :: more => isIdentifierStart c = true ∧ ∀ d ∈ more, isIdentifierPart d = true

instance : DecidablePred IsIdentifier
  | [] => inferInstanceAs (Decidable False)
  | c :: more =>
    decidable_of_iff (isIdentifierStart c = true ∧ more.all isIdentifierPart = true)
      (and_congr_right fun _ => List.all_eq_true)

/-- Identifiers, each with a dot behind it. -/
def namespaceOf (parts : List (List Char)) : List Char := parts.flatMap (· ++ ['.'])

/-- One of the names, behind a namespace that may be empty. -/
def IsQualified (names : List String) (name : String) : Prop :=
  ∃ parts, (∀ part ∈ parts, IsIdentifier part) ∧
    ∃ last ∈ names, name.toList = namespaceOf parts ++ last.toList

variable {names : List String} {name : String} {word : List Char} {c : Char}

/-! ### Characters -/

theorem contains_upper (c : Char) : CharClass.upper.contains c = c.isUpper :=
  (Bool.decide_and _ _).symm

theorem contains_lower (c : Char) : CharClass.lower.contains c = c.isLower := rfl

theorem contains_asciiDigit (c : Char) : CharClass.asciiDigit.contains c = c.isDigit := rfl

theorem contains_underscore (c : Char) : (CharClass.single '_').contains c = (c == '_') :=
  Bool.eq_iff_iff.mpr ((CharClass.contains_single '_' c).trans beq_iff_eq.symm)

theorem contains_identifierStart (c : Char) :
    Pattern.identifierStart.contains c = isIdentifierStart c := by
  simp only [Pattern.identifierStart, CharClass.unions, List.foldr_cons, List.foldr_nil,
    CharClass.contains_union, contains_upper, contains_lower, contains_underscore, CharClass.contains,
    Bool.or_false, ← Bool.or_assoc]
  rfl

theorem contains_identifierPart (c : Char) :
    Pattern.identifierPart.contains c = isIdentifierPart c := by
  simp only [Pattern.identifierPart, CharClass.unions, List.foldr_cons, List.foldr_nil,
    CharClass.contains_union, contains_upper, contains_lower, contains_underscore,
    contains_asciiDigit, CharClass.contains, Bool.or_false]
  rw [Bool.or_comm (c == '_')]
  simp only [← Bool.or_assoc]
  rfl

theorem bounds_of_isIdentifierPart (h : isIdentifierPart c = true) :
    '0'.toNat ≤ c.toNat ∧ c.toNat ≤ 'z'.toNat := by
  have hcases : (((c.isUpper || c.isLower) || c.isDigit) || c == '_') = true := h
  rw [Bool.or_eq_true, Bool.or_eq_true, Bool.or_eq_true, beq_iff_eq] at hcases
  show 0x30 ≤ c.toNat ∧ c.toNat ≤ 0x7A
  rcases hcases with ((hupper | hlower) | hdigit) | rfl
  · obtain ⟨hge, hle⟩ := of_decide_eq_true hupper
    have hge : 0x41 ≤ c.toNat := UInt32.le_iff_toNat_le.mp hge
    have hle : c.toNat ≤ 0x5A := UInt32.le_iff_toNat_le.mp hle
    omega
  · obtain ⟨hge, hle⟩ := Bool.and_eq_true_iff.mp hlower
    have hge : 0x61 ≤ c.toNat := UInt32.le_iff_toNat_le.mp (of_decide_eq_true hge)
    have hle : c.toNat ≤ 0x7A := UInt32.le_iff_toNat_le.mp (of_decide_eq_true hle)
    omega
  · obtain ⟨hge, hle⟩ := Bool.and_eq_true_iff.mp hdigit
    have hge : 0x30 ≤ c.toNat := UInt32.le_iff_toNat_le.mp (of_decide_eq_true hge)
    have hle : c.toNat ≤ 0x39 := UInt32.le_iff_toNat_le.mp (of_decide_eq_true hle)
    omega
  · decide

theorem not_isBlank_of_isIdentifierPart (h : isIdentifierPart c = true) : Text.isBlank c = false := by
  have hapart : (Text.blankRanges.all fun blank =>
      Nat.blt blank.2 '0'.toNat || Nat.blt 'z'.toNat blank.1) = true := by
    decide
  have hbounds := bounds_of_isIdentifierPart h
  refine Bool.eq_false_iff.mpr fun hblank => ?_
  obtain ⟨blank, hmem, hle, hge⟩ := (Text.inRanges_iff _ _).mp hblank
  have hone := List.all_eq_true.mp hapart blank hmem
  simp only [Bool.or_eq_true, Nat.blt_eq] at hone
  omega

theorem isIdentifierPart_of_isIdentifierStart (h : isIdentifierStart c = true) :
    isIdentifierPart c = true := by
  rw [isIdentifierStart, Bool.or_eq_true] at h
  show ((c.isAlpha || c.isDigit) || c == '_') = true
  rw [Bool.or_eq_true, Bool.or_eq_true]
  exact h.imp_left Or.inl

/-! ### Words -/

theorem IsIdentifier.forall_mem (h : IsIdentifier word) : ∀ c ∈ word, isIdentifierPart c = true := by
  cases word with
  | nil => exact h.elim
  | cons first more =>
    intro c hc
    rcases List.mem_cons.mp hc with rfl | hc
    · exact isIdentifierPart_of_isIdentifierStart h.1
    · exact h.2 c hc

theorem IsIdentifier.head (h : IsIdentifier word) (rest : List Char) :
    ∀ c, (word ++ rest).head? = some c → isIdentifierPart c = true := by
  cases word with
  | nil => exact h.elim
  | cons first more =>
    intro c hc
    obtain rfl : first = c := Option.some.inj hc
    exact h.forall_mem first List.mem_cons_self

theorem mem_of_mem_namespaceOf {parts : List (List Char)}
    (hparts : ∀ part ∈ parts, IsIdentifier part) (h : c ∈ namespaceOf parts) :
    isIdentifierPart c = true ∨ c = '.' := by
  obtain ⟨part, hpart, hc⟩ := List.mem_flatMap.mp h
  rcases List.mem_append.mp hc with hc | hc
  · exact Or.inl ((hparts part hpart).forall_mem c hc)
  · exact Or.inr (List.mem_singleton.mp hc)

/-- A name behind a namespace has identifier characters and dots only. -/
theorem IsQualified.forall_mem (hnames : ∀ name ∈ names, IsIdentifier name.toList)
    (h : IsQualified names name) : ∀ c ∈ name.toList, (isIdentifierPart c || c == '.') = true := by
  obtain ⟨parts, hparts, last, hlast, hname⟩ := h
  intro c hc
  rw [hname] at hc
  rw [Bool.or_eq_true, beq_iff_eq]
  rcases List.mem_append.mp hc with hc | hc
  · exact mem_of_mem_namespaceOf hparts hc
  · exact Or.inl ((hnames last hlast).forall_mem c hc)

/-- A name behind a namespace starts as an identifier does. -/
theorem IsQualified.head (hnames : ∀ name ∈ names, IsIdentifier name.toList)
    (h : IsQualified names name) (rest : List Char) :
    ∀ c, (name.toList ++ rest).head? = some c → isIdentifierPart c = true := by
  obtain ⟨parts, hparts, last, hlast, hname⟩ := h
  rw [hname]
  cases parts with
  | nil => exact (hnames last hlast).head rest
  | cons part parts =>
    rw [namespaceOf, List.flatMap_cons, List.append_assoc, List.append_assoc, List.append_assoc]
    exact (hparts part List.mem_cons_self).head _

/-! ### Languages -/

theorem mem_language_blanks : word ∈ blanks.language ↔ AreBlanks word := by
  rw [blanks, language_star, mem_kstar_one]
  rfl

theorem mem_language_blanks1 : word ∈ blanks1.language ↔ word ≠ [] ∧ AreBlanks word :=
  mem_language_plus_one

theorem mem_language_identifier : word ∈ Pattern.identifier.language ↔ IsIdentifier word := by
  rw [Pattern.identifier, language, language_star, Language.mem_mul]
  constructor
  · rintro ⟨_, ⟨c, hc, rfl⟩, more, hmore, rfl⟩
    rw [mem_kstar_one] at hmore
    exact ⟨contains_identifierStart c ▸ hc, fun d hd => contains_identifierPart d ▸ hmore d hd⟩
  · intro h
    cases word with
    | nil => exact h.elim
    | cons c more =>
      refine ⟨[c], ⟨c, (contains_identifierStart c).trans h.1, rfl⟩, more, ?_, rfl⟩
      exact mem_kstar_one.mpr fun d hd => (contains_identifierPart d).trans (h.2 d hd)

theorem mem_language_part : word ∈ (seq Pattern.identifier (char '.')).language ↔
    ∃ part, IsIdentifier part ∧ word = part ++ ['.'] := by
  rw [language, Language.mem_mul]
  constructor
  · rintro ⟨part, hpart, _, hdot, rfl⟩
    rw [mem_language_char.mp hdot]
    exact ⟨part, mem_language_identifier.mp hpart, rfl⟩
  · rintro ⟨part, hpart, rfl⟩
    exact ⟨part, mem_language_identifier.mpr hpart, ['.'], mem_language_char.mpr rfl, rfl⟩

theorem mem_kstar_part : word ∈ (seq Pattern.identifier (char '.')).language∗ ↔
    ∃ parts, (∀ part ∈ parts, IsIdentifier part) ∧ word = namespaceOf parts := by
  rw [Language.mem_kstar]
  constructor
  · rintro ⟨words, rfl, hwords⟩
    induction words with
    | nil => exact ⟨[], List.forall_mem_nil _, rfl⟩
    | cons first words ih =>
      obtain ⟨part, hpart, rfl⟩ := mem_language_part.mp (hwords first List.mem_cons_self)
      obtain ⟨parts, hparts, hmore⟩ := ih fun other ho => hwords other (List.mem_cons_of_mem _ ho)
      refine ⟨part :: parts, List.forall_mem_cons.mpr ⟨hpart, hparts⟩, ?_⟩
      rw [List.flatten_cons, hmore, namespaceOf, namespaceOf, List.flatMap_cons]
  · rintro ⟨parts, hparts, rfl⟩
    refine ⟨parts.map (· ++ ['.']), List.flatMap_def, fun other ho => ?_⟩
    obtain ⟨part, hpart, rfl⟩ := List.mem_map.mp ho
    exact mem_language_part.mpr ⟨part, hparts part hpart, rfl⟩

theorem mem_language_qualified :
    word ∈ (seq (star true (seq Pattern.identifier (char '.'))) (Pattern.anyName names)).language ↔
      ∃ name, IsQualified names name ∧ word = name.toList := by
  rw [language, language_star, Language.mem_mul]
  constructor
  · rintro ⟨_, hspace, _, hlast, rfl⟩
    obtain ⟨parts, hparts, rfl⟩ := mem_kstar_part.mp hspace
    obtain ⟨last, hmem, rfl⟩ := Pattern.mem_language_anyName.mp hlast
    exact ⟨String.ofList _, ⟨parts, hparts, last, hmem, String.toList_ofList⟩,
      String.toList_ofList.symm⟩
  · rintro ⟨name, ⟨parts, hparts, last, hlast, hname⟩, rfl⟩
    exact ⟨_, mem_kstar_part.mpr ⟨parts, hparts, rfl⟩, _,
      Pattern.mem_language_anyName.mpr ⟨last, hlast, rfl⟩, hname.symm⟩

theorem isPlain_qualified (names : List String) :
    (seq (star true (seq Pattern.identifier (char '.'))) (Pattern.anyName names)).isPlain = true :=
  Bool.and_eq_true_iff.mpr ⟨rfl, Pattern.isPlain_anyName names⟩

end CrossIndex
