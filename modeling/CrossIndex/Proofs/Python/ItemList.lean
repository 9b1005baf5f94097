import CrossIndex.Proofs.Text.Split
import CrossIndex.Proofs.Text.Trim
import CrossIndex.Python.Import

/-!
How the items of an import statement are written, with the blanks and the commas that may stand around
them. Main statement: a list is read back item by item, whatever closes it.
-/

namespace CrossIndex.Python

/-! ### Writing -/

/-- A character of a module text, a name or an alias in a statement. -/
def isPlain (c : Char) : Bool := !Text.isBlank c && !"(),#\\".toList.contains c

/-- Blanks, or nothing. -/
structure Blanks where
  chars : List Char
  blank : ∀ c ∈ chars, Text.isBlank c = true

structure Gap extends Blanks where
  ne_nil : chars ≠ []

/-- A module text, a name or an alias. -/
structure Word where
  chars : List Char
  ne_nil : chars ≠ []
  plain : ∀ c ∈ chars, isPlain c = true

structure AliasText where
  beforeAs : Gap
  afterAs : Gap
  name : Word

structure ItemText where
  before : Blanks
  name : Word
  noStar : name.chars ≠ ['*']
  alias? : Option AliasText
  after : Blanks

/-- The items of a statement, with a comma between neighbours, and perhaps one behind the last. -/
structure ListText where
  first : ItemText
  more : List ItemText
  lastComma? : Option Blanks

def AliasText.chars (a : AliasText) : List Char :=
  a.beforeAs.chars ++ ("as".toList ++ (a.afterAs.chars ++ a.name.chars))

def ItemText.aliasChars (i : ItemText) : List Char := (i.alias?.map AliasText.chars).getD []

def ItemText.chars (i : ItemText) : List Char :=
  i.before.chars ++ ((i.name.chars ++ i.aliasChars) ++ i.after.chars)

def ListText.chars (l : ListText) : List Char :=
  Text.joinWith ',' ((l.first :: l.more).map ItemText.chars) ++
    (l.lastComma?.map fun blanks => ',' :: blanks.chars).getD []

/-- The name of an item and its alias. -/
def ItemText.item (i : ItemText) : String × Option String :=
  (String.ofList i.name.chars, i.alias?.map fun a => String.ofList a.name.chars)

def ListText.items (l : ListText) : List (String × Option String) :=
  (l.first :: l.more).map ItemText.item

/-! ### Reading an item -/

variable {text more : List Char}

/-- A plain character is no blank and no mark of the syntax. -/
theorem isPlain_iff {c : Char} :
    isPlain c = true ↔ Text.isBlank c = false ∧ c ∉ "(),#\\".toList := by
  simp [isPlain]

theorem Word.not_isBlank (w : Word) : ∀ c ∈ w.chars, Text.isBlank c = false :=
  fun c hc => (isPlain_iff.mp (w.plain c hc)).1

/-- The reader takes all characters of a word for those of a name. -/
theorem Word.isNameChar (w : Word) : ∀ c ∈ w.chars, isNameChar c = true := by
  intro c hc
  obtain ⟨hblank, hmarks⟩ := isPlain_iff.mp (w.plain c hc)
  have hopen : c ≠ '(' := fun h => hmarks (h ▸ by decide)
  have hclose : c ≠ ')' := fun h => hmarks (h ▸ by decide)
  simp [Python.isNameChar, hblank, hopen, hclose]

theorem Word.head?_append (w : Word) (text : List Char) :
    ∀ c, (w.chars ++ text).head? = some c → c ∈ w.chars := by
  intro c hc
  rw [List.head?_append_of_ne_nil _ w.ne_nil] at hc
  exact List.mem_of_mem_head? hc

theorem Word.dropWhile_append (w : Word) (text : List Char) :
    (w.chars ++ text).dropWhile Text.isBlank = w.chars ++ text :=
  Text.dropWhile_of_head fun c hc => w.not_isBlank c (w.head?_append text c hc)

theorem Gap.head?_append (gap : Gap) (text : List Char) :
    ∀ c, (gap.chars ++ text).head? = some c → Text.isBlank c = true := by
  intro c hc
  rw [List.head?_append_of_ne_nil _ gap.ne_nil] at hc
  exact gap.blank c (List.mem_of_mem_head? hc)

/-- A word is passed that stands at the start. -/
theorem afterWord?_append (word : String) (text : List Char) :
    afterWord? word (word.toList ++ text) = some text := by
  have hprefix : word.toList.isPrefixOf (word.toList ++ text) = true :=
    List.isPrefixOf_iff_prefix.mpr (List.prefix_append _ _)
  rw [afterWord?, if_pos hprefix, ← String.length_toList, List.drop_left]

/-- A gap is passed with all blanks behind it. -/
theorem afterBlanks?_append (gap : Gap) (text : List Char) :
    afterBlanks? (gap.chars ++ text) = some (text.dropWhile Text.isBlank) := by
  have hblank := gap.blank
  obtain ⟨c, chars, hchars⟩ := List.exists_cons_of_ne_nil gap.ne_nil
  rw [hchars] at hblank ⊢
  have hrest : ∀ d ∈ chars, Text.isBlank d = true :=
    fun d hd => hblank d (List.mem_cons_of_mem _ hd)
  rw [List.cons_append, afterBlanks?, if_pos (hblank c List.mem_cons_self),
    List.dropWhile_append_of_pos hrest]

/-- What is left behind blanks starts with none. -/
theorem eq_dropWhile_of_afterBlanks? {rest : List Char} (h : afterBlanks? text = some rest) :
    rest = text.dropWhile Text.isBlank := by
  cases text with
  | nil => cases h
  | cons c text =>
    rw [afterBlanks?] at h
    split at h
    · next hc =>
      cases h
      rw [List.dropWhile_cons, if_pos hc]
    · cases h

/-- Blanks and closing parentheses, which may follow the last item. -/
def IsClosing (text : List Char) : Prop := ∀ c ∈ text, Text.isBlank c = true ∨ c = ')'

theorem IsClosing.nil : IsClosing [] := fun _ hc => (List.not_mem_nil hc).elim

theorem IsClosing.append (h : IsClosing text) (h' : IsClosing more) : IsClosing (text ++ more) := by
  intro c hc
  rcases List.mem_append.mp hc with hc | hc
  · exact h c hc
  · exact h' c hc

theorem Blanks.isClosing (blanks : Blanks) : IsClosing blanks.chars :=
  fun c hc => Or.inl (blanks.blank c hc)

theorem IsClosing.dropEndWhile (h : IsClosing text) (p : Char → Bool) :
    IsClosing (Text.dropEndWhile p text) :=
  fun c hc => h c (Text.mem_of_mem_dropEndWhile hc)

theorem IsClosing.dropWhile (h : IsClosing text) (p : Char → Bool) :
    IsClosing (text.dropWhile p) :=
  fun c hc => h c ((List.dropWhile_suffix p).subset hc)

/-- No name starts where a list is closed. -/
theorem IsClosing.not_isNameChar (h : IsClosing text) :
    ∀ c, text.head? = some c → isNameChar c = false := by
  intro c hc
  rcases h c (List.mem_of_mem_head? hc) with hblank | rfl
  · simp [isNameChar, hblank]
  · decide

/-- There is no alias where a list is closed. -/
theorem alias?_closing (h : IsClosing text) : alias? text = none := by
  cases hblanks : afterBlanks? text with
  | none => rw [alias?, hblanks]; rfl
  | some rest =>
    obtain rfl := eq_dropWhile_of_afterBlanks? hblanks
    -- what the blanks leave is nothing or begins with a parenthesis
    have hword : afterWord? "as" (text.dropWhile Text.isBlank) = none := by
      cases hdrop : text.dropWhile Text.isBlank with
      | nil => rfl
      | cons c more =>
        have hc := Text.head?_dropWhile Text.isBlank text c (by rw [hdrop]; rfl)
        have hmem : c ∈ text.dropWhile Text.isBlank := hdrop ▸ List.mem_cons_self
        rcases h.dropWhile Text.isBlank c hmem with hblank | rfl
        · rw [hc] at hblank
          cases hblank
        · rfl
    rw [alias?, hblanks, Option.bind_eq_bind, Option.bind_some, hword]
    rfl

/-- An alias is read if there are blanks, the word for it, blanks again and a name. -/
theorem alias?_eq_some {afterName afterAs rest : List Char} (hname : afterBlanks? text = some afterName)
    (has : afterWord? "as" afterName = some afterAs) (hrest : afterBlanks? afterAs = some rest)
    (hne : rest.takeWhile isNameChar ≠ []) : alias? text = some (rest.takeWhile isNameChar) := by
  rw [alias?, hname, Option.bind_eq_bind, Option.bind_some, has, Option.bind_eq_bind,
    Option.bind_some, hrest, Option.bind_some]
  simp only [guard, if_pos hne]
  rfl

/-- An alias is read back, whatever closes the list behind it. -/
theorem alias?_chars (a : AliasText) (h : IsClosing more) :
    alias? (a.chars ++ more) = some a.name.chars := by
  have has : ("as".toList ++ (a.afterAs.chars ++ (a.name.chars ++ more))).dropWhile Text.isBlank =
      "as".toList ++ (a.afterAs.chars ++ (a.name.chars ++ more)) := rfl
  have hname : (a.name.chars ++ more).takeWhile isNameChar = a.name.chars :=
    Text.takeWhile_append_of_head a.name.isNameChar h.not_isNameChar
  have hfirst : afterBlanks? (a.chars ++ more) =
      some ("as".toList ++ (a.afterAs.chars ++ (a.name.chars ++ more))) := by
    rw [AliasText.chars, List.append_assoc, afterBlanks?_append, List.append_assoc,
      List.append_assoc, has]
  have hsecond : afterBlanks? (a.afterAs.chars ++ (a.name.chars ++ more)) =
      some (a.name.chars ++ more) := by
    rw [afterBlanks?_append, Word.dropWhile_append]
  have hne : (a.name.chars ++ more).takeWhile isNameChar ≠ [] := by
    rw [hname]
    exact a.name.ne_nil
  rw [alias?_eq_some hfirst (afterWord?_append "as" _) hsecond hne, hname]

/-- The name of an item ends where its alias starts, or where the list is closed. -/
theorem ItemText.head?_aliasChars (i : ItemText) (h : IsClosing more) :
    ∀ c, (i.aliasChars ++ more).head? = some c → isNameChar c = false := by
  rw [aliasChars]
  cases i.alias? with
  | none => exact h.not_isNameChar
  | some a =>
    intro c hc
    have hchars : (a.chars ++ more).head? = some c := hc
    rw [AliasText.chars, List.append_assoc] at hchars
    simp [isNameChar, a.beforeAs.head?_append _ c hchars]

theorem alias?_aliasChars (i : ItemText) (h : IsClosing more) :
    alias? (i.aliasChars ++ more) = i.alias?.map fun a => a.name.chars := by
  rw [ItemText.aliasChars]
  cases i.alias? with
  | none => exact alias?_closing h
  | some a => exact alias?_chars a h

/-- An item ends in no blank but for those written behind it. -/
theorem ItemText.dropEndWhile_core (i : ItemText) :
    Text.dropEndWhile Text.isBlank (i.name.chars ++ i.aliasChars) = i.name.chars ++ i.aliasChars := by
  rw [aliasChars]
  cases i.alias? with
  | none =>
    change Text.dropEndWhile Text.isBlank (i.name.chars ++ []) = i.name.chars ++ []
    rw [List.append_nil]
    exact Text.dropEndWhile_of_not i.name.not_isBlank
  | some a =>
    change Text.dropEndWhile Text.isBlank (i.name.chars ++ a.chars) = i.name.chars ++ a.chars
    rw [AliasText.chars, ← List.append_assoc, ← List.append_assoc, ← List.append_assoc]
    exact Text.dropEndWhile_append_word a.name.not_isBlank a.name.ne_nil _

/-- An item is read, whatever blanks stand around it and whatever closes the list behind it. -/
theorem item?_chars (i : ItemText) (h : IsClosing more) : item? (i.chars ++ more) = some i.item := by
  have hrest := (i.after.isClosing.append h).dropEndWhile Text.isBlank
  -- neither the name nor the alias ends in a blank, so that only what follows the item is cut
  have htrim : Text.trim (i.chars ++ more) =
      i.name.chars ++ (i.aliasChars ++ Text.dropEndWhile Text.isBlank (i.after.chars ++ more)) := by
    rw [Text.trim, ItemText.chars, List.append_assoc, List.dropWhile_append_of_pos i.before.blank,
      List.append_assoc, List.append_assoc, Word.dropWhile_append, ← List.append_assoc,
      Text.dropEndWhile_append_of_eq i.dropEndWhile_core, List.append_assoc]
  have hname := Text.takeWhile_append_of_head i.name.isNameChar (i.head?_aliasChars hrest)
  have hbehind := Text.dropWhile_append_of_head i.name.isNameChar (i.head?_aliasChars hrest)
  have hno : ¬(i.name.chars = [] ∨ i.name.chars = ['*']) := not_or.mpr ⟨i.name.ne_nil, i.noStar⟩
  simp only [item?, htrim, hname, hbehind, if_neg hno, alias?_aliasChars i hrest, Option.map_map]
  rfl

/-- Where a list is closed there is no item. -/
theorem item?_closing (h : IsClosing text) : item? text = none := by
  have htrim : IsClosing (Text.trim text) := (h.dropWhile _).dropEndWhile _
  have hname : (Text.trim text).takeWhile isNameChar = [] := by
    have hnone : ∀ c ∈ ([] : List Char), isNameChar c = true := fun c hc => by cases hc
    exact Text.takeWhile_append_of_head hnone htrim.not_isNameChar
  simp [item?, hname]

/-! ### Reading a list -/

def itemsBetween (text : List Char) : List (String × Option String) :=
  (Text.splitOn ',' text).filterMap item?

theorem item?_congr {a b : List Char} (h : Text.trim a = Text.trim b) : item? a = item? b := by
  simp only [item?, h]

theorem not_mem_of_isBlank (h : ∀ c ∈ text, Text.isBlank c = true) : ',' ∉ text := by
  intro hc
  exact absurd (h ',' hc) (by decide)

/-- Blanks in front of a list change none of its items. -/
theorem itemsBetween_blanks_append (h : ∀ c ∈ more, Text.isBlank c = true) (text : List Char) :
    itemsBetween (more ++ text) = itemsBetween text := by
  obtain ⟨first, rest, hsplit, hmore⟩ :=
    Text.exists_splitOn_append_left (not_mem_of_isBlank h) text
  rw [itemsBetween, itemsBetween, hsplit, hmore, List.filterMap_cons, List.filterMap_cons,
    item?_congr (Text.trim_blanks_append h first)]

/-- Blanks behind a list change none of its items. -/
theorem itemsBetween_append_blanks (h : ∀ c ∈ more, Text.isBlank c = true) (text : List Char) :
    itemsBetween (text ++ more) = itemsBetween text := by
  obtain ⟨pieces, last, hsplit, hmore⟩ :=
    Text.exists_splitOn_append_right (not_mem_of_isBlank h) text
  rw [itemsBetween, itemsBetween, hsplit, hmore, List.filterMap_append, List.filterMap_append,
    List.filterMap_cons, List.filterMap_cons, item?_congr (Text.trim_append_blanks h last)]

theorem itemsBetween_dropWhile (text : List Char) :
    itemsBetween (text.dropWhile Text.isBlank) = itemsBetween text := by
  have hblanks : ∀ c ∈ text.takeWhile Text.isBlank, Text.isBlank c = true :=
    fun c hc => List.mem_takeWhile_imp hc
  calc itemsBetween (text.dropWhile Text.isBlank)
      = itemsBetween (text.takeWhile Text.isBlank ++ text.dropWhile Text.isBlank) :=
        (itemsBetween_blanks_append hblanks _).symm
    _ = itemsBetween text := by rw [List.takeWhile_append_dropWhile]

theorem itemsBetween_trim (text : List Char) : itemsBetween (Text.trim text) = itemsBetween text := by
  obtain ⟨dropped, hsplit, hblank⟩ :=
    Text.exists_dropEndWhile Text.isBlank (text.dropWhile Text.isBlank)
  calc itemsBetween (Text.trim text)
      = itemsBetween (Text.trim text ++ dropped) := (itemsBetween_append_blanks hblank _).symm
    _ = itemsBetween (text.dropWhile Text.isBlank) := by rw [Text.trim, ← hsplit]
    _ = itemsBetween text := itemsBetween_dropWhile text

theorem not_isBlank_of_mark {c : Char} (h : c ∈ "(),#\\".toList) : Text.isBlank c = false := by
  have hall : ("(),#\\".toList.all fun mark => !Text.isBlank mark) = true := by decide
  simpa using List.all_eq_true.mp hall c h

theorem Word.not_mem (w : Word) {c : Char} (h : c ∈ "(),#\\".toList) : c ∉ w.chars :=
  fun hc => (isPlain_iff.mp (w.plain c hc)).2 h

theorem Blanks.not_mem (blanks : Blanks) {c : Char} (h : Text.isBlank c = false) :
    c ∉ blanks.chars := by
  intro hc
  rw [blanks.blank c hc] at h
  cases h

/-- No mark of the syntax is in an item. -/
theorem ItemText.not_mem (i : ItemText) {c : Char} (h : c ∈ "(),#\\".toList) : c ∉ i.chars := by
  have hblank := not_isBlank_of_mark h
  have has : c ∉ "as".toList := by
    have hall : ("(),#\\".toList.all fun mark => !"as".toList.contains mark) = true := by decide
    have hno := List.all_eq_true.mp hall c h
    rwa [Bool.not_eq_true', ← Bool.not_eq_true, List.contains_iff_mem] at hno
  have halias : c ∉ i.aliasChars := by
    rw [aliasChars]
    cases i.alias? with
    | none => exact List.not_mem_nil
    | some a =>
      change c ∉ a.chars
      simp only [AliasText.chars, List.mem_append, not_or]
      exact ⟨a.beforeAs.not_mem hblank, has, a.afterAs.not_mem hblank, a.name.not_mem h⟩
  simp only [ItemText.chars, List.mem_append, not_or]
  exact ⟨i.before.not_mem hblank, ⟨i.name.not_mem h, halias⟩, i.after.not_mem hblank⟩

/-- An item is read up to the comma behind it. -/
theorem itemsBetween_comma (i : ItemText) (text : List Char) :
    itemsBetween (i.chars ++ ',' :: text) = i.item :: itemsBetween text := by
  have hitem : item? i.chars = some i.item := by
    have happend := item?_chars i .nil
    rwa [List.append_nil] at happend
  rw [itemsBetween, Text.splitOn_append (i.not_mem (by decide)), List.filterMap_cons, hitem]
  rfl

/-- The items of a list are read in their order, whatever closes it. -/
theorem itemsBetween_chars (l : ListText) (h : IsClosing text) (hcomma : ',' ∉ text) :
    itemsBetween (l.chars ++ text) = l.items := by
  obtain ⟨first, more, lastComma?⟩ := l
  rw [ListText.chars, ListText.items, List.append_assoc]
  generalize hending : (lastComma?.map fun blanks => ',' :: blanks.chars).getD [] = ending
  -- each comma between neighbours ends an item, so that the induction is on those behind the first
  induction more generalizing first with
  | cons next more ih =>
    change itemsBetween ((first.chars ++
      ',' :: Text.joinWith ',' ((next :: more).map ItemText.chars)) ++ (ending ++ text)) =
        first.item :: ((next :: more).map ItemText.item)
    rw [List.append_assoc, List.cons_append, itemsBetween_comma, ih]
  | nil =>
    change itemsBetween (first.chars ++ (ending ++ text)) = [first.item]
    cases lastComma? with
    | none =>
      subst hending
      have hno : ',' ∉ first.chars ++ text := by
        rw [List.mem_append, not_or]
        exact ⟨first.not_mem (by decide), hcomma⟩
      change itemsBetween (first.chars ++ text) = [first.item]
      rw [itemsBetween, Text.splitOn_of_not_mem hno, List.filterMap_cons, item?_chars first h]
      rfl
    | some blanks =>
      subst hending
      -- what follows the last comma is no item
      have hno : ',' ∉ blanks.chars ++ text := by
        rw [List.mem_append, not_or]
        exact ⟨blanks.not_mem (by decide), hcomma⟩
      change itemsBetween (first.chars ++ ',' :: (blanks.chars ++ text)) = [first.item]
      rw [itemsBetween_comma, itemsBetween, Text.splitOn_of_not_mem hno, List.filterMap_cons,
        item?_closing (blanks.isClosing.append h)]
      rfl

/-- No mark of the syntax but the comma is in a list. -/
theorem ListText.not_mem (l : ListText) {c : Char} (h : c ∈ "(),#\\".toList) (hcomma : c ≠ ',') :
    c ∉ l.chars := by
  rw [ListText.chars, List.mem_append, not_or]
  constructor
  · intro hc
    rcases Text.mem_joinWith hc with rfl | ⟨piece, hpiece, hmem⟩
    · exact hcomma rfl
    · obtain ⟨i, -, rfl⟩ := List.mem_map.mp hpiece
      exact i.not_mem h hmem
  · cases l.lastComma? with
    | none => exact List.not_mem_nil
    | some blanks =>
      intro hc
      rcases List.mem_cons.mp hc with rfl | hmem
      · exact hcomma rfl
      · exact blanks.not_mem (not_isBlank_of_mark h) hmem

end CrossIndex.Python
