import CrossIndex.Proofs.Json.Spelling
import Mathlib.Data.List.TakeDrop
import Mathlib.Data.List.TakeWhile
import Mathlib.Data.Option.Basic
import Mathlib.Tactic.SplitIfs

/-!
Reading what is spelt. Each reader finds its part of a text, whatever stands behind it, and leaves the
rest. Main statement: a text that spells a value is read as that value.
-/

namespace CrossIndex.Json

variable {rest : List Char}

/-! ### Blanks -/

theorem skipBlanks_append {blanks : List Char} (h : Blanks blanks) (text : List Char) :
    skipBlanks (blanks ++ text) = skipBlanks text := by
  induction blanks with
  | nil => rfl
  | cons c blanks ih =>
    have hc := h c List.mem_cons_self
    rw [List.cons_append, skipBlanks, List.dropWhile_cons_of_pos hc]
    exact ih fun c hc => h c (List.mem_cons_of_mem _ hc)

theorem skipBlanks_cons {c : Char} (h : isBlank c = false) (text : List Char) :
    skipBlanks (c :: text) = c :: text := List.dropWhile_cons_of_neg (by rw [h]; decide)

theorem skipBlanks_skipBlanks (text : List Char) : skipBlanks (skipBlanks text) = skipBlanks text := by
  have hblanks : Blanks (text.takeWhile isBlank) := fun _ hc => List.mem_takeWhile_imp hc
  have hsplit : text.takeWhile isBlank ++ skipBlanks text = text := List.takeWhile_append_dropWhile
  rw [← skipBlanks_append hblanks, hsplit]

theorem readValue_skipBlanks (fuel depth : Nat) (text : List Char) :
    readValue fuel depth (skipBlanks text) = readValue fuel depth text := by
  cases fuel with
  | zero => rfl
  | succ fuel => rw [readValue, readValue, skipBlanks_skipBlanks]

/-! ### Numbers -/

/-- What can stand behind a value: nothing, a blank, a comma or a closing bracket. -/
def Ends (rest : List Char) : Prop :=
  ∀ c, rest.head? = some c → isBlank c = true ∨ c = ',' ∨ c = ']' ∨ c = '\x7d'

theorem Ends.append {blanks : List Char} (h : Ends rest) (hblanks : Blanks blanks) :
    Ends (blanks ++ rest) := by
  cases blanks with
  | nil => exact h
  | cons first blanks =>
    intro c hc
    rw [List.cons_append, List.head?_cons, Option.some.injEq] at hc
    subst hc
    exact .inl (hblanks first List.mem_cons_self)

theorem isBlank_cases {c : Char} (h : isBlank c = true) :
    c = ' ' ∨ c = '\n' ∨ c = '\t' ∨ c = '\r' := by
  simpa [isBlank, or_assoc] using h

/-- What stands behind a number does not go on with it. -/
theorem Ends.stops (h : Ends rest) {c : Char} (hc : rest.head? = some c) :
    c.isDigit = false ∧ c ≠ '.' ∧ c ≠ 'e' ∧ c ≠ 'E' := by
  rcases h c hc with hblank | rfl | rfl | rfl
  · rcases isBlank_cases hblank with rfl | rfl | rfl | rfl <;> decide
  · decide
  · decide
  · decide

theorem readDigits_append {digits : List Char} (hdigits : JsonNumber.IsDigits digits)
    (hrest : ∀ c, rest.head? = some c → c.isDigit = false) :
    readDigits (digits ++ rest) = some (digits, rest) := by
  obtain ⟨hne, hall⟩ := hdigits
  have hnone : rest.takeWhile Char.isDigit = [] ∧ rest.dropWhile Char.isDigit = rest := by
    cases rest with
    | nil => exact ⟨rfl, rfl⟩
    | cons c rest =>
      have hc : ¬c.isDigit = true := by rw [hrest c rfl]; decide
      exact ⟨List.takeWhile_cons_of_neg hc, List.dropWhile_cons_of_neg hc⟩
  rw [readDigits, List.span_eq_takeWhile_dropWhile, List.takeWhile_append_of_pos hall,
    List.dropWhile_append_of_pos hall, hnone.1, hnone.2, List.append_nil]
  cases digits with
  | nil => exact absurd rfl hne
  | cons c digits => rfl

def fractionChars : Option (List Char) → List Char
  | some digits => '.' :: digits
  | none => []

def exponentChars : Option (Bool × List Char) → List Char
  | some (true, digits) => 'e' :: '-' :: digits
  | some (false, digits) => 'e' :: digits
  | none => []

theorem numberChars_eq (n : JsonNumber) : numberChars n =
    (if n.negative then ['-'] else []) ++ n.whole ++ fractionChars n.fraction? ++
      exponentChars n.exponent? := by
  rfl

/-- The head of an exponent, or of what stands behind it, goes on with no digits and no fraction. -/
theorem head?_exponentChars (e? : Option (Bool × List Char)) (h : Ends rest) {c : Char}
    (hc : (exponentChars e? ++ rest).head? = some c) : c.isDigit = false ∧ c ≠ '.' := by
  match e? with
  | none => exact ⟨(h.stops hc).1, (h.stops hc).2.1⟩
  | some (true, digits) =>
    cases hc
    decide
  | some (false, digits) =>
    cases hc
    decide

theorem readExponent_append {e? : Option (Bool × List Char)}
    (he : ∀ e, e? = some e → JsonNumber.IsDigits e.2) (hrest : Ends rest) :
    readExponent (exponentChars e? ++ rest) = some (e?, rest) := by
  have hstops : ∀ c, rest.head? = some c → c.isDigit = false := fun c hc => (hrest.stops hc).1
  match e? with
  | none =>
    cases rest with
    | nil => rfl
    | cons c rest =>
      obtain ⟨-, -, he, hE⟩ := hrest.stops rfl
      simp [exponentChars, readExponent, he, hE]
  | some (true, digits) =>
    have hdigits := he _ rfl
    simp [exponentChars, readExponent, readDigits_append hdigits hstops]
  | some (false, digits) =>
    have hdigits := he _ rfl
    cases digits with
    | nil => exact absurd rfl hdigits.1
    | cons c digits =>
      -- the first digit is no sign
      have hc := hdigits.2 c List.mem_cons_self
      have hminus : c ≠ '-' := by rintro rfl; exact absurd hc (by decide)
      have hplus : c ≠ '+' := by rintro rfl; exact absurd hc (by decide)
      have hread := readDigits_append hdigits hstops
      rw [List.cons_append] at hread
      simp [exponentChars, readExponent, hread, hminus, hplus]

theorem head?_fractionChars (fraction? : Option (List Char))
    (h : ∀ c, rest.head? = some c → c.isDigit = false ∧ c ≠ '.') :
    ∀ c, (fractionChars fraction? ++ rest).head? = some c → c.isDigit = false := by
  intro c hc
  cases fraction? with
  | none => exact (h c hc).1
  | some digits =>
    cases hc
    decide

theorem readFraction_append {fraction? : Option (List Char)}
    (hf : ∀ digits, fraction? = some digits → JsonNumber.IsDigits digits)
    (hrest : ∀ c, rest.head? = some c → c.isDigit = false ∧ c ≠ '.') :
    readFraction (fractionChars fraction? ++ rest) = some (fraction?, rest) := by
  cases fraction? with
  | none =>
    cases rest with
    | nil => rfl
    | cons c rest =>
      have hdot := (hrest c rfl).2
      simp [fractionChars, readFraction, hdot]
  | some digits =>
    have hread := readDigits_append (hf digits rfl) fun c hc => (hrest c hc).1
    simp [fractionChars, readFraction, hread]

theorem readNumber_append {n : JsonNumber} (h : n.WellFormed) (hrest : Ends rest) :
    readNumber (numberChars n ++ rest) = some (n, rest) := by
  obtain ⟨hwhole, hzero, hfraction, hexponent, hfinite⟩ := h
  have hhead : ∀ c, (exponentChars n.exponent? ++ rest).head? = some c →
      c.isDigit = false ∧ c ≠ '.' := fun c hc => head?_exponentChars n.exponent? hrest hc
  have hexponent := readExponent_append hexponent hrest
  have hfraction := readFraction_append hfraction hhead
  have hread := readDigits_append hwhole (head?_fractionChars n.fraction? hhead)
  obtain ⟨negative, whole, fraction?, exponent?⟩ := n
  cases negative with
  | true =>
    simp [numberChars_eq, readNumber, hread, hfraction, hexponent, hzero, hfinite]
  | false =>
    obtain ⟨c, digits, rfl⟩ := List.exists_cons_of_ne_nil hwhole.1
    -- a digit is no sign
    have hminus : c ≠ '-' := by
      rintro rfl
      exact absurd (hwhole.2 _ List.mem_cons_self) (by decide)
    have hzero : digits = [] ∨ ¬c = '0' := by simpa using hzero
    rw [List.cons_append] at hread
    simp [numberChars_eq, readNumber, hread, hfraction, hexponent, hminus, hzero, hfinite]

/-! ### Strings -/

theorem hexNumber?_hexDigits : ∀ n < 0x20,
    Text.hexNumber? ['0', '0', hexDigit (n / 16), hexDigit (n % 16)] = some n := by
  decide

/-- One character is read again from its escape. -/
theorem readChars_escapeChar (fuel : Nat) (c : Char) (text : List Char) :
    readChars (fuel + 1) (escapeChar c ++ text) = (do
      let (cs, rest) ← readChars fuel text
      return (c :: cs, rest)) := by
  unfold escapeChar
  split_ifs with hquote hbackslash hback hfeed hline hreturn htab hcontrol
  · subst hquote
    rfl
  · subst hbackslash
    rfl
  · subst hback
    rfl
  · subst hfeed
    rfl
  · subst hline
    rfl
  · subst hreturn
    rfl
  · subst htab
    rfl
  · -- a control character without a letter of its own is no surrogate
    have hunit : readEscapedUnit
        ('0' :: '0' :: hexDigit (c.toNat / 16) :: hexDigit (c.toNat % 16) :: text) =
          some (c, text) := by
      have hlow : ¬0xDC00 ≤ c.toNat := by omega
      have hhigh : ¬0xD800 ≤ c.toNat := by omega
      simp [readEscapedUnit, readUnit, hexNumber?_hexDigits _ hcontrol, hlow, hhigh, Char.ofNat_toNat]
    simp [readChars, readEscape, hunit]
  · simp [readChars, hquote, hbackslash, hcontrol]

theorem readChars_stringChars {fuel : Nat} {chars : List Char} (hfuel : chars.length < fuel) :
    readChars fuel (chars.flatMap escapeChar ++ '\x22' :: rest) = some (chars, rest) := by
  induction chars generalizing fuel with
  | nil =>
    obtain ⟨fuel, rfl⟩ := Nat.exists_eq_add_one.mpr hfuel
    rfl
  | cons c chars ih =>
    rw [List.length_cons] at hfuel
    obtain ⟨fuel, rfl⟩ := Nat.exists_eq_add_one.mpr (Nat.zero_lt_of_lt hfuel)
    have hread := ih (Nat.lt_of_succ_lt_succ hfuel)
    rw [List.flatMap_cons, List.append_assoc, readChars_escapeChar, hread]
    rfl

theorem length_le_flatMap_escapeChar (chars : List Char) :
    chars.length ≤ (chars.flatMap escapeChar).length := by
  induction chars with
  | nil => exact Nat.le_refl 0
  | cons c chars ih =>
    have hpos : 0 < (escapeChar c).length := by
      unfold escapeChar
      split_ifs <;> exact Nat.succ_pos _
    rw [List.flatMap_cons, List.length_append, List.length_cons]
    omega

theorem readString_append (text : String) :
    readString (text.toList.flatMap escapeChar ++ '\x22' :: rest) = some (text, rest) := by
  have hle := length_le_flatMap_escapeChar text.toList
  have hfuel : text.toList.length < (text.toList.flatMap escapeChar ++ '\x22' :: rest).length := by
    rw [List.length_append, List.length_cons]
    omega
  rw [readString, readChars_stringChars hfuel]
  exact congrArg (fun text => some (text, rest)) String.ofList_toList

/-! ### Values -/

/-- The text is read as the value whatever stands behind it, except that blanks may be left. -/
def Reads (depth : Nat) (value : Json) (text : List Char) : Prop :=
  ∀ fuel rest, text.length ≤ fuel → Ends rest →
    ∃ blanks, Blanks blanks ∧ readValue fuel (depth + 1) (text ++ rest) = some (value, blanks ++ rest)

variable {depth fuel : Nat} {closing : List Char}

theorem readItems_skipBlanks (text : List Char) :
    readItems fuel depth (skipBlanks text) = readItems fuel depth text := by
  cases fuel with
  | zero => rfl
  | succ fuel => rw [readItems, readItems, readValue_skipBlanks]

/-- No item begins with a closing bracket. -/
theorem readItems_closing (text : List Char) : readItems fuel depth (']' :: text) = none := by
  cases fuel with
  | zero => rfl
  | succ fuel =>
    have hvalue : readValue fuel depth (']' :: text) = none := by
      cases fuel with
      | zero => rfl
      | succ fuel =>
        rw [readValue, skipBlanks_cons (by decide)]
        rfl
    rw [readItems, hvalue]
    rfl

theorem readMembers_skipBlanks (text : List Char) :
    readMembers fuel depth (skipBlanks text) = readMembers fuel depth text := by
  cases fuel with
  | zero => rfl
  | succ fuel => rw [readMembers, readMembers, skipBlanks_skipBlanks]

theorem readMembers_closing (text : List Char) : readMembers fuel depth ('\x7d' :: text) = none := by
  cases fuel with
  | zero => rfl
  | succ fuel =>
    rw [readMembers, skipBlanks_cons (by decide)]
    rfl

theorem ends_cons {c : Char} (h : c = ',' ∨ c = ']' ∨ c = '\x7d') (text : List Char) :
    Ends (c :: text) := by
  intro first hfirst
  rw [List.head?_cons, Option.some.injEq] at hfirst
  subst hfirst
  exact .inr h

/-- What follows a value up to the next mark are blanks. -/
theorem skipBlanks_mark {blanks : List Char} (hblanks : Blanks blanks) (hclosing : Blanks closing)
    {c : Char} (hc : isBlank c = false) (text : List Char) :
    skipBlanks (blanks ++ (closing ++ c :: text)) = c :: text := by
  rw [skipBlanks_append hblanks, skipBlanks_append hclosing, skipBlanks_cons hc]

theorem readItems_joinWith {items : List (Json × List Char)} (hne : items ≠ [])
    (h : ∀ item ∈ items, Reads depth item.1 item.2) (hclosing : Blanks closing)
    (hfuel : (Text.joinWith ',' (items.map Prod.snd)).length < fuel) :
    readItems fuel (depth + 1)
        (Text.joinWith ',' (items.map Prod.snd) ++ (closing ++ ']' :: rest)) =
      some (items.map Prod.fst, rest) := by
  -- each item takes one unit of fuel, and is at least as long as the fuel that it needs
  induction items generalizing fuel with
  | nil => exact absurd rfl hne
  | cons item more ih =>
    obtain ⟨fuel, rfl⟩ := Nat.exists_eq_add_one.mpr (Nat.zero_lt_of_lt hfuel)
    have hitem := h item List.mem_cons_self
    cases more with
    | nil =>
      have hends : Ends (closing ++ ']' :: rest) := (ends_cons (by decide) rest).append hclosing
      obtain ⟨blanks, hblanks, hread⟩ := hitem fuel _ (Nat.le_of_lt_succ hfuel) hends
      have hskip := skipBlanks_mark hblanks hclosing (c := ']') (by decide) rest
      simp [readItems, Text.joinWith, hread, hskip]
    | cons next more =>
      obtain ⟨behind, hbehind⟩ : ∃ text, text = Text.joinWith ',' ((next :: more).map Prod.snd) :=
        ⟨_, rfl⟩
      have htext : Text.joinWith ',' ((item :: next :: more).map Prod.snd) =
          item.2 ++ ',' :: behind := by rw [hbehind]; rfl
      rw [htext, List.length_append, List.length_cons] at hfuel
      rw [← hbehind] at ih
      have hlength : behind.length < fuel := by omega
      have hmore := ih (List.cons_ne_nil _ _) (fun item hm => h item (List.mem_cons_of_mem _ hm))
        hlength
      -- the comma ends the item
      obtain ⟨blanks, hblanks, hread⟩ := hitem fuel (',' :: (behind ++ (closing ++ ']' :: rest)))
        (by omega) (ends_cons (by decide) _)
      have hskip := skipBlanks_mark hblanks .nil (c := ',') (by decide)
        (behind ++ (closing ++ ']' :: rest))
      rw [List.nil_append] at hskip
      rw [htext, List.append_assoc, List.cons_append, readItems, hread]
      simp [hskip, hmore]

section Members

variable {m : MemberText} {text more : List Char} {members : List (String × Json)}

theorem skipBlanks_chars (hbefore : Blanks m.before) (text : List Char) :
    skipBlanks (m.chars ++ text) = '\x22' :: (m.name.toList.flatMap escapeChar ++
      '\x22' :: (m.after ++ ':' :: (m.text ++ text))) := by
  have hchars : m.chars ++ text = m.before ++ '\x22' :: (m.name.toList.flatMap escapeChar ++
      '\x22' :: (m.after ++ ':' :: (m.text ++ text))) := by
    simp [MemberText.chars, stringChars]
  rw [hchars, skipBlanks_append hbefore, skipBlanks_cons (by decide)]

theorem skipBlanks_colon (hafter : Blanks m.after) (text : List Char) :
    skipBlanks (m.after ++ ':' :: text) = ':' :: text := by
  rw [skipBlanks_append hafter, skipBlanks_cons (by decide)]

/-- The last member of an object. -/
theorem readMembers_last (hblanks : Blanks m.before ∧ Blanks m.after)
    (hvalue : readValue fuel depth (m.text ++ text) = some (m.value, more))
    (hmore : skipBlanks more = '\x7d' :: rest) :
    readMembers (fuel + 1) depth (m.chars ++ text) = some ([m.member], rest) := by
  have hcolon := skipBlanks_colon hblanks.2 (m.text ++ text)
  rw [readMembers, skipBlanks_chars hblanks.1]
  simp [readString_append, hcolon, hvalue, hmore, MemberText.member]

/-- A member before others. -/
theorem readMembers_next (hblanks : Blanks m.before ∧ Blanks m.after)
    (hvalue : readValue fuel depth (m.text ++ text) = some (m.value, more))
    {behind : List Char} (hmore : skipBlanks more = ',' :: behind)
    (hbehind : readMembers fuel depth behind = some (members, rest)) :
    readMembers (fuel + 1) depth (m.chars ++ text) = some (m.member :: members, rest) := by
  have hcolon := skipBlanks_colon hblanks.2 (m.text ++ text)
  rw [readMembers, skipBlanks_chars hblanks.1]
  simp [readString_append, hcolon, hvalue, hmore, hbehind, MemberText.member]

end Members

theorem readMembers_joinWith {members : List MemberText} (hne : members ≠ [])
    (hblanks : ∀ m ∈ members, Blanks m.before ∧ Blanks m.after)
    (h : ∀ m ∈ members, Reads depth m.value m.text) (hclosing : Blanks closing)
    (hfuel : (Text.joinWith ',' (members.map MemberText.chars)).length < fuel) :
    readMembers fuel (depth + 1)
        (Text.joinWith ',' (members.map MemberText.chars) ++ (closing ++ '\x7d' :: rest)) =
      some (members.map MemberText.member, rest) := by
  induction members generalizing fuel with
  | nil => exact absurd rfl hne
  | cons m more ih =>
    obtain ⟨fuel, rfl⟩ := Nat.exists_eq_add_one.mpr (Nat.zero_lt_of_lt hfuel)
    have hm := h m List.mem_cons_self
    have hblank := hblanks m List.mem_cons_self
    have hlength : m.text.length < m.chars.length := by
      rw [MemberText.chars, List.length_append, List.length_cons]
      omega
    cases more with
    | nil =>
      have htext : Text.joinWith ',' ([m].map MemberText.chars) = m.chars := rfl
      rw [htext] at hfuel
      have hends : Ends (closing ++ '\x7d' :: rest) := (ends_cons (by decide) rest).append hclosing
      obtain ⟨blanks, hbehind, hread⟩ := hm fuel _ (by omega) hends
      have hskip := skipBlanks_mark hbehind hclosing (c := '\x7d') (by decide) rest
      exact readMembers_last hblank hread hskip
    | cons next more =>
      obtain ⟨behind, hbehind⟩ :
          ∃ text, text = Text.joinWith ',' ((next :: more).map MemberText.chars) := ⟨_, rfl⟩
      have htext : Text.joinWith ',' ((m :: next :: more).map MemberText.chars) =
          m.chars ++ ',' :: behind := by rw [hbehind]; rfl
      rw [htext, List.length_append, List.length_cons] at hfuel
      rw [← hbehind] at ih
      have hlt : behind.length < fuel := by omega
      have hmore := ih (List.cons_ne_nil _ _) (fun m hm => hblanks m (List.mem_cons_of_mem _ hm))
        (fun m hm => h m (List.mem_cons_of_mem _ hm)) hlt
      obtain ⟨blanks, hafter, hread⟩ := hm fuel (',' :: (behind ++ (closing ++ '\x7d' :: rest)))
        (by omega) (ends_cons (by decide) _)
      have hskip := skipBlanks_mark hafter .nil (c := ',') (by decide)
        (behind ++ (closing ++ '\x7d' :: rest))
      rw [htext, List.append_assoc, List.cons_append]
      exact readMembers_next hblank hread hskip hmore

theorem numberChars_head {n : JsonNumber} (h : n.WellFormed) :
    ∃ c text, numberChars n = c :: text ∧ (c = '-' ∨ c.isDigit = true) := by
  rw [numberChars_eq]
  cases n.negative with
  | true => exact ⟨'-', _, rfl, .inl rfl⟩
  | false =>
    obtain ⟨hne, hdigits⟩ := h.whole
    cases hwhole : n.whole with
    | nil => exact absurd hwhole hne
    | cons c whole => exact ⟨c, _, rfl, .inr (hdigits c (by rw [hwhole]; exact List.mem_cons_self))⟩

/-- The first character of a number begins no other value. -/
theorem readValue_number {c : Char} (hc : c = '-' ∨ c.isDigit = true) (text : List Char) :
    readValue (fuel + 1) depth (c :: text) = (do
      let (value, rest) ← readNumber (c :: text)
      return (.number value, rest)) := by
  have hother : ∀ d : Char, d ≠ '-' → d.isDigit = false → c ≠ d := by
    rintro d hminus hdigit rfl
    rcases hc with rfl | hc
    · exact hminus rfl
    · rw [hdigit] at hc
      cases hc
  have hblank : isBlank c = false := by
    by_contra hblank
    rcases isBlank_cases (eq_true_of_ne_false hblank) with h | h | h | h <;>
      exact hother _ (by decide) (by decide) h
  rw [readValue, skipBlanks_cons hblank]
  simp only [hother '\x22' (by decide) (by decide), hother '[' (by decide) (by decide),
    hother '\x7b' (by decide) (by decide), hother 'n' (by decide) (by decide),
    hother 't' (by decide) (by decide), hother 'f' (by decide) (by decide), if_false]

/-- A text that is not empty is read with some fuel left. -/
theorem Reads.of_cons {value : Json} {c : Char} {text : List Char}
    (h : ∀ fuel rest, text.length ≤ fuel → Ends rest → ∃ blanks, Blanks blanks ∧
      readValue (fuel + 1) (depth + 1) (c :: (text ++ rest)) = some (value, blanks ++ rest)) :
    Reads depth value (c :: text) := by
  intro fuel rest hfuel hrest
  obtain ⟨fuel, rfl⟩ := Nat.exists_eq_add_one.mpr (Nat.lt_of_lt_of_le (Nat.succ_pos _) hfuel)
  exact h fuel rest (Nat.le_of_succ_le_succ hfuel) hrest

theorem readValue_nil_array {text : List Char} (h : skipBlanks text = ']' :: rest) :
    readValue (fuel + 1) (depth + 2) ('[' :: text) = some (.array [], rest) := by
  rw [readValue, skipBlanks_cons (by decide)]
  simp [h]

theorem readValue_items {items : List Json} {text : List Char}
    (h : readItems fuel (depth + 1) text = some (items, rest)) :
    readValue (fuel + 1) (depth + 2) ('[' :: text) = some (.array items, rest) := by
  rw [← readItems_skipBlanks] at h
  rw [readValue, skipBlanks_cons (by decide)]
  cases hskip : skipBlanks text with
  | nil =>
    rw [hskip] at h
    simp [hskip, h]
  | cons c more =>
    have hne : c ≠ ']' := by
      rintro rfl
      rw [hskip, readItems_closing] at h
      cases h
    rw [hskip] at h
    simp [hskip, hne, h]

theorem readValue_nil_object {text : List Char} (h : skipBlanks text = '\x7d' :: rest) :
    readValue (fuel + 1) (depth + 2) ('\x7b' :: text) = some (.object [], rest) := by
  rw [readValue, skipBlanks_cons (by decide)]
  simp [h]

theorem readValue_members {members : List (String × Json)} {text : List Char}
    (h : readMembers fuel (depth + 1) text = some (members, rest)) :
    readValue (fuel + 1) (depth + 2) ('\x7b' :: text) = some (.object members, rest) := by
  rw [← readMembers_skipBlanks] at h
  rw [readValue, skipBlanks_cons (by decide)]
  cases hskip : skipBlanks text with
  | nil =>
    rw [hskip] at h
    simp [hskip, h]
  | cons c more =>
    have hne : c ≠ '\x7d' := by
      rintro rfl
      rw [hskip, readMembers_closing] at h
      cases h
    rw [hskip] at h
    simp [hskip, hne, h]

theorem reads_array {items : List (Json × List Char)} {opening : List Char} (hopening : Blanks opening)
    (hclosing : Blanks closing) (h : ∀ item ∈ items, Reads depth item.1 item.2) :
    Reads (depth + 1) (.array (items.map Prod.fst))
      ('[' :: (opening ++ (Text.joinWith ',' (items.map Prod.snd) ++ (closing ++ [']'])))) := by
  refine .of_cons fun fuel rest hfuel _ => ⟨[], .nil, ?_⟩
  simp only [List.append_assoc, List.cons_append, List.nil_append]
  by_cases hne : items = []
  · subst hne
    exact readValue_nil_array (skipBlanks_mark hopening hclosing (by decide) rest)
  · have hlength : (Text.joinWith ',' (items.map Prod.snd)).length < fuel := by
      simp only [List.length_append, List.length_singleton] at hfuel
      omega
    apply readValue_items
    rw [← readItems_skipBlanks, skipBlanks_append hopening, readItems_skipBlanks]
    exact readItems_joinWith hne h hclosing hlength

theorem reads_object {members : List MemberText} {opening : List Char} (hopening : Blanks opening)
    (hclosing : Blanks closing) (hblanks : ∀ m ∈ members, Blanks m.before ∧ Blanks m.after)
    (h : ∀ m ∈ members, Reads depth m.value m.text) :
    Reads (depth + 1) (.object (members.map MemberText.member))
      ('\x7b' :: (opening ++ (Text.joinWith ',' (members.map MemberText.chars) ++
        (closing ++ ['\x7d'])))) := by
  refine .of_cons fun fuel rest hfuel _ => ⟨[], .nil, ?_⟩
  simp only [List.append_assoc, List.cons_append, List.nil_append]
  by_cases hne : members = []
  · subst hne
    exact readValue_nil_object (skipBlanks_mark hopening hclosing (by decide) rest)
  · have hlength : (Text.joinWith ',' (members.map MemberText.chars)).length < fuel := by
      simp only [List.length_append, List.length_singleton] at hfuel
      omega
    apply readValue_members
    rw [← readMembers_skipBlanks, skipBlanks_append hopening, readMembers_skipBlanks]
    exact readMembers_joinWith hne hblanks h hclosing hlength

/-- What spells a value is read as that value. -/
theorem reads_of_spells {value : Json} {text : List Char} (h : Spells depth value text) :
    Reads depth value text := by
  induction h with
  | null => exact .of_cons fun _ _ _ _ => ⟨[], .nil, rfl⟩
  | true => exact .of_cons fun _ _ _ _ => ⟨[], .nil, rfl⟩
  | false => exact .of_cons fun _ _ _ _ => ⟨[], .nil, rfl⟩
  | number h =>
    obtain ⟨c, text, hchars, hc⟩ := numberChars_head h
    rw [hchars]
    refine .of_cons fun fuel rest _ hrest => ⟨[], .nil, ?_⟩
    have hread := readNumber_append h hrest
    rw [hchars, List.cons_append] at hread
    rw [readValue_number hc, hread]
    rfl
  | string text =>
    refine .of_cons fun fuel rest _ _ => ⟨[], .nil, ?_⟩
    rw [List.append_assoc, readValue, skipBlanks_cons (by decide)]
    simp [readString_append]
  | array items hopening hclosing h ih => exact reads_array hopening hclosing ih
  | object members hopening hclosing hblanks h ih =>
    exact reads_object hopening hclosing hblanks ih
  | @padded depth value before text after hbefore hafter h ih =>
    intro fuel rest hfuel hrest
    rw [List.length_append, List.length_append] at hfuel
    obtain ⟨blanks, hblanks, hread⟩ := ih fuel (after ++ rest) (by omega) (hrest.append hafter)
    refine ⟨blanks ++ after, hblanks.append hafter, ?_⟩
    rw [List.append_assoc, ← readValue_skipBlanks, skipBlanks_append hbefore, readValue_skipBlanks,
      List.append_assoc, hread, List.append_assoc]

/-- A text that spells a value holds that value. -/
theorem read?_of_spells {value : Json} {text : List Char} (h : Spells 127 value text) :
    read? (String.ofList text) = some value := by
  have hends : Ends [] := fun c hc => by cases hc
  obtain ⟨blanks, hblanks, hread⟩ := reads_of_spells h (text.length + 1) [] (Nat.le_succ _) hends
  have hskip : skipBlanks blanks = [] := by
    rw [← List.append_nil blanks, skipBlanks_append hblanks]
    rfl
  rw [List.append_nil, List.append_nil] at hread
  simp [read?, String.toList_ofList, maxDepth, hread, hskip]

theorem read?_compact {value : Json} (h : Readable 127 value) : read? value.compact = some value :=
  read?_of_spells (spells_compact h)

theorem read?_pretty {value : Json} (h : Readable 127 value) : read? value.pretty = some value :=
  read?_of_spells (spells_pretty h 0)

end CrossIndex.Json
