import CrossIndex.Matcher.Key
import CrossIndex.Proofs.Regex.Language
import CrossIndex.Proofs.Text.Trim

/-!
Parts that the patterns of keys have in common: one name out of several, and a key in quotes after a
parenthesis. Main statement: a key in quotes is passed in one way only, and its group notes the columns of
the key.
-/

namespace CrossIndex

open Cursor Regex

/-- A key is a character or more, none of them a double quote. -/
def IsKey (key : String) : Prop := key ≠ "" ∧ '\x22' ∉ key.toList

instance (key : String) : Decidable (IsKey key) := inferInstanceAs (Decidable (_ ∧ _))

/-- A key in quotes, after an opening parenthesis. -/
def quoted (key : String) : List Char := '(' :: '\x22' :: (key.toList ++ ['\x22'])

variable {names : List String} {key key' : String} {word passed text : List Char}
  {captures : Captures} {t : Stage}

theorem length_quoted (key : String) : (quoted key).length = key.length + 3 := by
  rw [quoted, List.length_cons, List.length_cons, List.length_append, String.length_toList]
  rfl

theorem quoted_append (key : String) (rest : List Char) :
    quoted key ++ rest = '(' :: '\x22' :: (key.toList ++ '\x22' :: rest) := by
  simp only [quoted, List.cons_append, List.append_assoc, List.nil_append]

/-- The key in quotes and what follows it are known from the text. -/
theorem quoted_append_inj (hkey : IsKey key) (hkey' : IsKey key') {rest rest' : List Char}
    (h : quoted key ++ rest = quoted key' ++ rest') : key = key' ∧ rest = rest' := by
  rw [quoted_append, quoted_append] at h
  have hchars := (List.cons.inj (List.cons.inj h).2).2
  have hfree : ∀ {key : String}, IsKey key → ∀ c ∈ key.toList, (c != '\x22') = true :=
    fun hk c hc => bne_iff_ne.mpr fun he => hk.2 (he ▸ hc)
  have hquote : ∀ {rest : List Char} (c : Char), ('\x22' :: rest).head? = some c →
      (c != '\x22') = false := by
    intro rest c hc
    rw [List.head?_cons, Option.some_inj] at hc
    rw [← hc]
    rfl
  obtain ⟨hsame, hrest⟩ := Text.append_inj_of_head hchars (hfree hkey) hquote (hfree hkey') hquote
  exact ⟨String.toList_injective hsame, (List.cons.inj hrest).2⟩

theorem slice_word (before after : List Char) (word : String) :
    slice (before ++ (word.toList ++ after)) before.length (before.length + word.length) = word := by
  rw [slice, List.drop_left, Nat.add_sub_cancel_left, ← String.length_toList, List.take_left,
    String.ofList_toList]

theorem slice_quoted (before after : List Char) (name key : String) :
    slice (before ++ (name.toList ++ (quoted key ++ after))) (before.length + name.length + 2)
      (before.length + name.length + 2 + key.length) = key := by
  have hlength : (before ++ name.toList ++ ['(', '\x22']).length = before.length + name.length + 2 := by
    rw [List.length_append, List.length_append, String.length_toList]
    rfl
  have hslice := slice_word (before ++ name.toList ++ ['(', '\x22']) ('\x22' :: after) key
  rw [hlength] at hslice
  rw [quoted_append]
  simpa only [List.append_assoc, List.cons_append, List.nil_append] using hslice

namespace Pattern

theorem mem_language_anyName :
    word ∈ (anyName names).language ↔ ∃ name ∈ names, word = name.toList := by
  rw [anyName, mem_language_alts]
  constructor
  · rintro ⟨r, hr, hword⟩
    obtain ⟨name, hname, rfl⟩ := List.mem_map.mp hr
    exact ⟨name, hname, mem_language_text.mp hword⟩
  · rintro ⟨name, hname, rfl⟩
    exact ⟨_, List.mem_map_of_mem hname, mem_language_text.mpr rfl⟩

theorem isPlain_anyName (names : List String) : (anyName names).isPlain = true := by
  refine isPlain_alts fun r hr => ?_
  obtain ⟨name, -, rfl⟩ := List.mem_map.mp hr
  exact isPlain_text name

/-- The words of a group for a key are the keys. -/
theorem mem_language_key :
    word ∈ (plus true (one (.compl (.single '\x22')))).language ↔
      ∃ key, IsKey key ∧ word = key.toList := by
  rw [mem_language_plus_one]
  constructor
  · rintro ⟨hne, hfree⟩
    refine ⟨String.ofList word, ⟨fun h => hne ?_, fun h => ?_⟩, String.toList_ofList.symm⟩
    · rw [← String.toList_ofList (l := word), h]
      rfl
    · rw [String.toList_ofList] at h
      have hquote := hfree _ h
      rw [CharClass.contains_compl, (CharClass.contains_single _ _).mpr rfl] at hquote
      cases hquote
  · rintro ⟨key, ⟨hne, hfree⟩, rfl⟩
    refine ⟨fun h => hne (String.toList_injective h), fun c hc => ?_⟩
    rw [CharClass.contains_compl, Bool.not_eq_true', ← Bool.not_eq_true, CharClass.contains_single]
    exact fun h => hfree (h ▸ hc)

theorem way_quoted (index : Nat) (more : List Regex) :
    (seqs (char '(' :: quote :: keyGroup index :: quote :: more)).Way (behind passed text, captures) t ↔
      ∃ key, IsKey key ∧ ∃ rest, text = quoted key ++ rest ∧
        (seqs more).Way (behind (passed ++ quoted key) rest,
          (index, passed.length + 2, passed.length + 2 + key.length) :: captures) t := by
  have hplain : (plus true (one (.compl (.single '\x22')))).isPlain = true := rfl
  have hpassed : ∀ key : String, passed ++ ['('] ++ ['\x22'] ++ key.toList ++ ['\x22'] =
      passed ++ quoted key := by
    intro key
    simp only [quoted, List.append_assoc, List.cons_append, List.nil_append]
  have hnoted : ∀ key : String, (passed ++ ['('] ++ ['\x22']).length = passed.length + 2 ∧
      (passed ++ ['('] ++ ['\x22'] ++ key.toList).length = passed.length + 2 + key.length := by
    intro key
    simp only [List.length_append, List.length_singleton, String.length_toList, and_self]
  simp only [quote, keyGroup, way_seqs_char, way_seqs_group hplain, mem_language_key]
  constructor
  · rintro ⟨_, rfl, _, rfl, _, ⟨key, hkey, rfl⟩, _, rfl, rest, rfl, hmore⟩
    rw [hpassed, (hnoted key).1, (hnoted key).2] at hmore
    exact ⟨key, hkey, rest, (quoted_append key rest).symm, hmore⟩
  · rintro ⟨key, hkey, rest, rfl, hmore⟩
    rw [quoted_append]
    refine ⟨_, rfl, _, rfl, key.toList, ⟨key, hkey, rfl⟩, '\x22' :: rest, rfl, rest, rfl, ?_⟩
    rwa [hpassed, (hnoted key).1, (hnoted key).2]

end Pattern

end CrossIndex
