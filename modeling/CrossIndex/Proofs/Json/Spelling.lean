import CrossIndex.Json.Printer
import CrossIndex.Json.Reader
import CrossIndex.Text.Split

/-!
How JSON values are spelt: the texts of a value with any blanks between the tokens. Main statements: both
printers spell every value that nests no deeper than allowed and has well-formed numbers.
-/

namespace CrossIndex

namespace JsonNumber

def IsDigits (digits : List Char) : Prop := digits ≠ [] ∧ ∀ c ∈ digits, c.isDigit = true

/-- The number follows the syntax, and is not too large for a double. -/
structure WellFormed (n : JsonNumber) : Prop where
  whole : IsDigits n.whole
  /-- A zero in front is the whole part. -/
  zero : n.whole.length = 1 ∨ n.whole.head? ≠ some '0'
  fraction : ∀ digits, n.fraction? = some digits → IsDigits digits
  exponent : ∀ e, n.exponent? = some e → IsDigits e.2
  finite : n.overflows = false

/-- The decimal digits of a number have its value. -/
theorem digitsValue_toDigits (n : Nat) : Text.digitsValue (Nat.toDigits 10 n) = n := by
  have h := Nat.ofDigitChars_ten_toDigits (n := n)
  simp only [Nat.ofDigitChars_eq_foldl, Nat.mul_comm 10] at h
  exact h

/-- The decimal digits of a number that is not zero do not start with one. -/
theorem head?_toDigits {n : Nat} (hn : 0 < n) : (Nat.toDigits 10 n).head? ≠ some '0' := by
  induction n using Nat.strongRecOn with
  | _ n ih =>
    by_cases h : n < 10
    · have hdigit : ∀ d < 10, 0 < d → (some (Nat.digitChar d)) ≠ some '0' := by decide
      rw [Nat.toDigits_of_lt_base h]
      exact hdigit n h hn
    · have hlt : n / 10 < n := by omega
      have hpos : 0 < n / 10 := by omega
      rw [Nat.toDigits_of_base_le (by decide) (Nat.le_of_not_lt h), List.head?_append,
        Option.or_of_isSome (List.isSome_head?.mpr Nat.toDigits_ne_nil)]
      exact ih (n / 10) hlt hpos

/-- A natural number below the range of doubles is a number of the syntax. -/
theorem ofNat_wellFormed {n : Nat} (hn : n < Text.doubleLimit) : (ofNat n).WellFormed where
  whole := ⟨Nat.toDigits_ne_nil, fun _ hc => Nat.isDigit_of_mem_toDigits (by decide) (by decide) hc⟩
  zero := by
    rcases Nat.eq_zero_or_pos n with rfl | hpos
    · exact .inl rfl
    · exact .inr (head?_toDigits hpos)
  fraction := by
    intro digits h
    cases h
  exponent := by
    intro e h
    cases h
  finite := by
    have hvalue : Text.digitsValue (Nat.toDigits 10 n ++ []) = n := by
      rw [List.append_nil, digitsValue_toDigits]
    unfold overflows Text.Decimal.overflows
    simp only [ofNat, exponent, Option.getD_none, hvalue, List.length_nil]
    split
    · rfl
    · simp [Nat.not_le.mpr hn]

end JsonNumber

namespace Json

/-- Blanks, or nothing. -/
def Blanks (text : List Char) : Prop := ∀ c ∈ text, isBlank c = true

theorem Blanks.nil : Blanks [] := fun _ h => (List.not_mem_nil h).elim

theorem Blanks.append {text more : List Char} (h : Blanks text) (h' : Blanks more) :
    Blanks (text ++ more) := by
  intro c hc
  rcases List.mem_append.mp hc with hc | hc
  · exact h c hc
  · exact h' c hc

theorem Blanks.newLine (level : Nat) : Blanks (newLine level) := by
  intro c hc
  rcases List.mem_cons.mp hc with rfl | hc
  · rfl
  · rw [List.eq_of_mem_replicate hc]
    rfl

/-- A member of an object in a text: its name between blanks, and the text of its value. -/
structure MemberText where
  before : List Char
  name : String
  after : List Char
  value : Json
  text : List Char

namespace MemberText

def member (m : MemberText) : String × Json := (m.name, m.value)

def chars (m : MemberText) : List Char := m.before ++ stringChars m.name ++ m.after ++ ':' :: m.text

end MemberText

/-- The text is the value, in which arrays and objects nest at most so deep. -/
inductive Spells : Nat → Json → List Char → Prop where
  | null {depth : Nat} : Spells depth .null "null".toList
  | true {depth : Nat} : Spells depth (.bool true) "true".toList
  | false {depth : Nat} : Spells depth (.bool false) "false".toList
  | number {depth : Nat} {n : JsonNumber} (h : n.WellFormed) :
      Spells depth (.number n) (numberChars n)
  | string {depth : Nat} (text : String) : Spells depth (.string text) (stringChars text)
  | array {depth : Nat} (items : List (Json × List Char)) {opening closing : List Char}
      (hopening : Blanks opening) (hclosing : Blanks closing)
      (h : ∀ item ∈ items, Spells depth item.1 item.2) :
      Spells (depth + 1) (.array (items.map Prod.fst))
        ('[' :: (opening ++ (Text.joinWith ',' (items.map Prod.snd) ++ (closing ++ [']']))))
  | object {depth : Nat} (members : List MemberText) {opening closing : List Char}
      (hopening : Blanks opening) (hclosing : Blanks closing)
      (hblanks : ∀ m ∈ members, Blanks m.before ∧ Blanks m.after)
      (h : ∀ m ∈ members, Spells depth m.value m.text) :
      Spells (depth + 1) (.object (members.map MemberText.member))
        ('\x7b' :: (opening ++ (Text.joinWith ',' (members.map MemberText.chars) ++
          (closing ++ ['\x7d']))))
  | padded {depth : Nat} {value : Json} {before text after : List Char} (hbefore : Blanks before)
      (hafter : Blanks after) (h : Spells depth value text) :
      Spells depth value (before ++ (text ++ after))

/-- The value has well-formed numbers, and its arrays and objects nest at most so deep. -/
inductive Readable : Nat → Json → Prop where
  | null {depth : Nat} : Readable depth .null
  | bool {depth : Nat} (value : Bool) : Readable depth (.bool value)
  | number {depth : Nat} {n : JsonNumber} (h : n.WellFormed) : Readable depth (.number n)
  | string {depth : Nat} (text : String) : Readable depth (.string text)
  | array {depth : Nat} {items : List Json} (h : ∀ item ∈ items, Readable depth item) :
      Readable (depth + 1) (.array items)
  | object {depth : Nat} {members : List (String × Json)}
      (h : ∀ m ∈ members, Readable depth m.2) : Readable (depth + 1) (.object members)

variable {depth : Nat} {value : Json}

/-- The compact printer puts a comma between the items of an array, and nothing else. -/
theorem compactItems_eq (items : List Json) :
    compactItems items = Text.joinWith ',' (items.map compactChars) := by
  induction items with
  | nil => rfl
  | cons item more ih =>
    cases more with
    | nil => rfl
    | cons next more =>
      rw [compactItems, ih]
      · rfl
      · exact List.cons_ne_nil next more

/-- A member as the compact printer writes it. -/
def compactMember (m : String × Json) : MemberText := ⟨[], m.1, [], m.2, compactChars m.2⟩

/-- The compact printer puts a comma between the members of an object, and nothing else. -/
theorem compactMembers_eq (members : List (String × Json)) :
    compactMembers members =
      Text.joinWith ',' ((members.map compactMember).map MemberText.chars) := by
  induction members with
  | nil => rfl
  | cons m more ih =>
    have hchars : (compactMember m).chars = stringChars m.1 ++ ':' :: compactChars m.2 := by
      simp [MemberText.chars, compactMember]
    cases more with
    | nil => 
      rw [compactMembers]
      exact hchars.symm
    | cons next more =>
      rw [compactMembers, ih]
      · simp [Text.joinWith, hchars]
      · exact List.cons_ne_nil next more

/-- The compact printer spells every readable value. -/
theorem spells_compact (h : Readable depth value) : Spells depth value (compactChars value) := by
  induction h with
  | null => exact .null
  | bool value =>
    cases value with
    | true => exact .true
    | false => exact .false
  | number h => exact .number h
  | string text => exact .string text
  | @array depth items _ ih =>
    have hspells := Spells.array (items.map fun item => (item, compactChars item)) .nil .nil
      (List.forall_mem_map.mpr ih)
    rw [List.map_map, List.map_map] at hspells
    rw [compactChars, compactItems_eq]
    simpa [Function.comp_def] using hspells
  | @object depth members _ ih =>
    have hspells := Spells.object (members.map compactMember) .nil .nil
      (List.forall_mem_map.mpr fun _ _ => ⟨.nil, .nil⟩) (List.forall_mem_map.mpr ih)
    rw [compactChars, compactMembers_eq]
    simpa [Function.comp_def, MemberText.member, compactMember] using hspells

/-- The indenting printer puts a comma between the items of an array, each on a line of its own. -/
theorem prettyItems_eq (level : Nat) (item : Json) (more : List Json) :
    newLine level ++ prettyChars level item ++ prettyItems level more =
      Text.joinWith ',' ((item :: more).map fun item => newLine level ++ prettyChars level item) := by
  induction more generalizing item with
  | nil => simp [prettyItems, Text.joinWith]
  | cons next more ih =>
    rw [prettyItems, ih next]
    rfl

/-- A member as the indenting printer writes it. -/
def prettyMember (level : Nat) (m : String × Json) : MemberText :=
  ⟨newLine level, m.1, [], m.2, ' ' :: prettyChars level m.2⟩

theorem prettyMember_chars (level : Nat) (m : String × Json) : (prettyMember level m).chars =
    newLine level ++ stringChars m.1 ++ ':' :: ' ' :: prettyChars level m.2 := by
  simp [MemberText.chars, prettyMember]

/-- The indenting printer puts a comma between the members of an object, each on a line of its own. -/
theorem prettyMembers_eq (level : Nat) (m : String × Json) (more : List (String × Json)) :
    newLine level ++ stringChars m.1 ++ ':' :: ' ' :: prettyChars level m.2 ++
        prettyMembers level more =
      Text.joinWith ',' (((m :: more).map (prettyMember level)).map MemberText.chars) := by
  induction more generalizing m with
  | nil =>
    rw [prettyMembers, List.append_nil, ← prettyMember_chars]
    rfl
  | cons next more ih =>
    rw [prettyMembers, ih next, ← prettyMember_chars]
    rfl

/-- The indenting printer spells every readable value, at any level of its indentation. -/
theorem spells_pretty (h : Readable depth value) (level : Nat) :
    Spells depth value (prettyChars level value) := by
  induction h generalizing level with
  | null => exact .null
  | bool value =>
    cases value with
    | true => exact .true
    | false => exact .false
  | number h => exact .number h
  | string text => exact .string text
  | @array depth items _ ih =>
    cases items with
    | nil => exact .array [] .nil .nil fun _ h => (List.not_mem_nil h).elim
    | cons item more =>
      have hitems : ∀ text ∈ (item :: more).map fun item' =>
          (item', newLine (level + 1) ++ prettyChars (level + 1) item'),
          Spells depth text.1 text.2 := by
        refine List.forall_mem_map.mpr fun item' hitem => ?_
        have hpadded := (ih item' hitem (level + 1)).padded (.newLine (level + 1)) .nil
        rw [List.append_nil] at hpadded
        exact hpadded
      have hspells := Spells.array _ .nil (.newLine level) hitems
      rw [List.map_map, List.map_map] at hspells
      rw [prettyChars, prettyItems_eq]
      simpa [Function.comp_def] using hspells
  | @object depth members _ ih =>
    cases members with
    | nil =>
      exact .object [] .nil .nil (fun _ h => (List.not_mem_nil h).elim)
        fun _ h => (List.not_mem_nil h).elim
    | cons m more =>
      have hblank : Blanks [' '] := by
        intro c hc
        rw [List.mem_singleton.mp hc]
        rfl
      -- the blank after the colon belongs to the value
      have hvalue : ∀ text ∈ (m :: more).map (prettyMember (level + 1)),
          Spells depth text.value text.text := by
        refine List.forall_mem_map.mpr fun m' hm' => ?_
        have hpadded := (ih m' hm' (level + 1)).padded hblank .nil
        rw [List.append_nil] at hpadded
        exact hpadded
      have hspells := Spells.object ((m :: more).map (prettyMember (level + 1))) .nil
        (.newLine level) (List.forall_mem_map.mpr fun _ _ => ⟨.newLine _, .nil⟩) hvalue
      rw [prettyChars, prettyMembers_eq]
      simpa [Function.comp_def, MemberText.member, prettyMember] using hspells

end Json

end CrossIndex
