import CrossIndex.Text.Utf8
import Mathlib.Data.List.Basic
import Mathlib.Tactic.IntervalCases

/-!
UTF-8. Main statements: the bytes of a text are read as that text, whether bytes that are no text are replaced
or refused; no other bytes are read as it when they are refused; and a text that starts with an ASCII character
ends another one just when its bytes end the bytes of the other.
-/

namespace CrossIndex.Text

variable {c : Char} {chars : List Char} {text : String} {byte low high : UInt8} {code more n : Nat}
  {rest bytes : List UInt8}

/-! ### Reading characters -/

theorem utf8Parts_cons (state : Utf8State) :
    utf8Parts state (byte :: rest) = (state.step byte).1 ++ utf8Parts (state.step byte).2 rest := by
  cases state with
  | ready => rfl
  | inside more low high code => rfl

/-- A byte that goes on with a character is read into its code. -/
theorem utf8Parts_inside (hmore : more ≠ 1) (hlow : low ≤ byte) (hhigh : byte ≤ high) :
    utf8Parts (.inside more low high code) (byte :: rest) =
      utf8Parts (.inside (more - 1) 0x80 0xBF (code * 0x40 + (byte.toNat - 0x80))) rest := by
  have hstep : Utf8State.step (.inside more low high code) byte =
      ([], .inside (more - 1) 0x80 0xBF (code * 0x40 + (byte.toNat - 0x80))) := by
    simp only [Utf8State.step]
    rw [if_pos ⟨hlow, hhigh⟩, if_neg hmore]
  rw [utf8Parts_cons, hstep, List.nil_append]

theorem utf8Parts_last (hlow : low ≤ byte) (hhigh : byte ≤ high) :
    utf8Parts (.inside 1 low high code) (byte :: rest) =
      some (Char.ofNat (code * 0x40 + (byte.toNat - 0x80))) :: utf8Parts .ready rest := by
  have hstep : Utf8State.step (.inside 1 low high code) byte =
      ([some (Char.ofNat (code * 0x40 + (byte.toNat - 0x80)))], .ready) := by
    simp only [Utf8State.step]
    rw [if_pos ⟨hlow, hhigh⟩, if_true]
  rw [utf8Parts_cons, hstep, List.singleton_append]

theorem utf8Parts_begin (h : Utf8State.begin byte = ([], .inside more low high code)) :
    utf8Parts .ready (byte :: rest) = utf8Parts (.inside more low high code) rest := by
  rw [utf8Parts_cons, Utf8State.step, h, List.nil_append]

theorem begin_one (h : n < 128) :
    Utf8State.begin (.ofNat n) = ([some (Char.ofNat n)], .ready) := by
  have hbyte : (UInt8.ofNat n).toNat = n := UInt8.toNat_ofNat_of_lt' (show n < 256 by omega)
  rw [Utf8State.begin, hbyte]
  exact if_pos h

theorem begin_two (hmin : 2 ≤ n) (hmax : n < 32) :
    Utf8State.begin (.ofNat (n + 192)) = ([], .inside 1 0x80 0xBF n) := by
  interval_cases n <;> rfl

/-- Three bytes are no character that has two, and no surrogate. -/
theorem begin_three (hmax : n < 16) :
    ∃ low high, Utf8State.begin (.ofNat (n + 224)) = ([], .inside 2 low high n) ∧
      (low.toNat = 128 ∨ n = 0 ∧ low.toNat = 160) ∧
        (high.toNat = 191 ∨ n = 13 ∧ high.toNat = 159) := by
  interval_cases n <;> exact ⟨_, _, rfl, by decide, by decide⟩

/-- Four bytes are no character that has three, and none past the last one. -/
theorem begin_four (hmax : n < 5) :
    ∃ low high, Utf8State.begin (.ofNat (n + 240)) = ([], .inside 3 low high n) ∧
      (low.toNat = 128 ∨ n = 0 ∧ low.toNat = 144) ∧
        (high.toNat = 191 ∨ n = 4 ∧ high.toNat = 143) := by
  interval_cases n <;> exact ⟨_, _, rfl, by decide, by decide⟩

theorem toNat_continuation (h : n < 64) : (UInt8.ofNat (n + 128)).toNat = n + 128 :=
  UInt8.toNat_ofNat_of_lt' (show n + 128 < 256 by omega)

/-- A byte after the first of a character adds six bits to its code. -/
theorem utf8Parts_continuation (hmore : more ≠ 1) (hmax : n < 64) (hlow : low.toNat ≤ n + 128)
    (hhigh : n + 128 ≤ high.toNat) :
    utf8Parts (.inside more low high code) (.ofNat (n + 128) :: rest) =
      utf8Parts (.inside (more - 1) 0x80 0xBF (code * 0x40 + n)) rest := by
  have hbyte := toNat_continuation hmax
  rw [utf8Parts_inside hmore, hbyte, Nat.add_sub_cancel]
  · rwa [UInt8.le_iff_toNat_le, hbyte]
  · rwa [UInt8.le_iff_toNat_le, hbyte]

theorem utf8Parts_lastContinuation (hmax : n < 64) :
    utf8Parts (.inside 1 0x80 0xBF code) (.ofNat (n + 128) :: rest) =
      some (Char.ofNat (code * 0x40 + n)) :: utf8Parts .ready rest := by
  have hbyte := toNat_continuation hmax
  have hlow : (0x80 : UInt8).toNat ≤ n + 128 := Nat.le_add_left 128 n
  have hhigh : n + 128 ≤ (0xBF : UInt8).toNat := Nat.add_le_add_right (Nat.le_of_lt_succ hmax) 128
  rw [utf8Parts_last, hbyte, Nat.add_sub_cancel]
  · rwa [UInt8.le_iff_toNat_le, hbyte]
  · rwa [UInt8.le_iff_toNat_le, hbyte]

/-- A character is read back from its bytes, whatever stands behind them. -/
theorem utf8Parts_encodeChar (c : Char) (rest : List UInt8) :
    utf8Parts .ready (String.utf8EncodeChar c ++ rest) = some c :: utf8Parts .ready rest := by
  have hc : Char.ofNat c.val.toNat = c := Char.ofNat_toNat c
  have hvalid : c.val.toNat < 0xD800 ∨ 0xDFFF < c.val.toNat ∧ c.val.toNat < 0x110000 := c.valid
  rw [String.utf8EncodeChar]
  generalize c.val.toNat = v at hc hvalid
  rw [← hc]
  -- one case for each number of bytes: their bits make up the code again
  split
  · rw [List.singleton_append, utf8Parts_cons, Utf8State.step, begin_one (by omega)]
    rfl
  split
  · rw [List.cons_append, List.singleton_append,
      utf8Parts_begin (begin_two (by omega) (by omega)), utf8Parts_lastContinuation (by omega)]
    congr 3
    omega
  split
  · have hlead : v / 4096 % 16 < 16 := by omega
    obtain ⟨low, high, hbegin, hlow, hhigh⟩ := begin_three hlead
    rw [List.cons_append, List.cons_append, List.singleton_append, utf8Parts_begin hbegin,
      utf8Parts_continuation (by decide) (by omega) (by omega) (by omega),
      utf8Parts_lastContinuation (by omega)]
    congr 3
    omega
  · have hlead : v / 262144 % 8 < 5 := by omega
    obtain ⟨low, high, hbegin, hlow, hhigh⟩ := begin_four hlead
    rw [List.cons_append, List.cons_append, List.cons_append, List.singleton_append,
      utf8Parts_begin hbegin,
      utf8Parts_continuation (by decide) (by omega) (by omega) (by omega),
      utf8Parts_continuation (by decide) (by omega) (by simp) (by simp; omega),
      utf8Parts_lastContinuation (by omega)]
    congr 3
    omega

theorem utf8Parts_encode (chars : List Char) :
    utf8Parts .ready (chars.flatMap String.utf8EncodeChar) = chars.map some := by
  induction chars with
  | nil => rfl
  | cons c chars ih => rw [List.flatMap_cons, utf8Parts_encodeChar, ih, List.map_cons]

/-- A text is read back from its bytes. -/
theorem decodeUtf8Lossy_encodeUtf8 (text : String) : decodeUtf8Lossy (encodeUtf8 text) = text := by
  rw [decodeUtf8Lossy, encodeUtf8, utf8Parts_encode, List.map_map]
  have hsame : (fun part : Option Char => part.getD '\uFFFD') ∘ some = id := rfl
  rw [hsame, List.map_id, String.ofList_toList]

theorem toByteArray_injective : Function.Injective (List.toByteArray : List UInt8 → ByteArray) := by
  intro a b h
  have hdata := congrArg ByteArray.data h
  rw [List.data_toByteArray, List.data_toByteArray] at hdata
  exact congrArg Array.toList hdata

/-- Bytes are refused unless they are the bytes of a text, which is then the one they are read as. -/
theorem fromUTF8?_eq_some_iff :
    String.fromUTF8? bytes.toByteArray = some text ↔ bytes = encodeUtf8 text := by
  have htext : text.toByteArray = (encodeUtf8 text).toByteArray := String.utf8Encode_toList.symm
  rw [← toByteArray_injective.eq_iff, ← htext, String.fromUTF8?]
  constructor
  · intro h
    split at h
    · cases h
      rfl
    · cases h
  · intro h
    rw [dif_pos (h ▸ text.isValidUTF8), Option.some_inj, ← String.toByteArray_inj]
    exact h

/-! ### Bytes of characters -/

theorem le_toNat_ofNat (hmin : 128 ≤ n) (hmax : n < 256) : 128 ≤ (UInt8.ofNat n).toNat := by
  rw [UInt8.toNat_ofNat_of_lt' hmax]
  exact hmin

theorem utf8EncodeChar_ascii (h : c.toNat < 128) : String.utf8EncodeChar c = [.ofNat c.toNat] := by
  rw [String.utf8EncodeChar]
  exact if_pos (Nat.le_of_lt_succ h)

theorem le_of_mem_utf8EncodeChar (h : 128 ≤ c.toNat) :
    ∀ byte ∈ String.utf8EncodeChar c, 128 ≤ byte.toNat := by
  have hmore : ¬ c.val.toNat ≤ 127 := Nat.not_le_of_lt h
  rw [String.utf8EncodeChar, if_neg hmore]
  split
  · simp only [List.forall_mem_cons]
    exact ⟨le_toNat_ofNat (by omega) (by omega), le_toNat_ofNat (by omega) (by omega), by simp⟩
  split
  · simp only [List.forall_mem_cons]
    exact ⟨le_toNat_ofNat (by omega) (by omega), le_toNat_ofNat (by omega) (by omega),
      le_toNat_ofNat (by omega) (by omega), by simp⟩
  · simp only [List.forall_mem_cons]
    exact ⟨le_toNat_ofNat (by omega) (by omega), le_toNat_ofNat (by omega) (by omega),
      le_toNat_ofNat (by omega) (by omega), le_toNat_ofNat (by omega) (by omega), by simp⟩

/-- The byte of an ASCII character is in no other character. -/
theorem ascii_of_mem_utf8EncodeChar {d : Char} (hascii : c.toNat < 128)
    (h : .ofNat c.toNat ∈ String.utf8EncodeChar d) : d.toNat < 128 := by
  by_contra hd
  have hle := le_of_mem_utf8EncodeChar (Nat.le_of_not_lt hd) _ h
  rw [UInt8.toNat_ofNat_of_lt' (Nat.lt_trans hascii (by decide))] at hle
  exact absurd hascii (Nat.not_lt_of_le hle)

theorem encode_injective :
    Function.Injective fun chars : List Char => chars.flatMap String.utf8EncodeChar := by
  intro chars other h
  have hparts := congrArg (utf8Parts .ready) h
  rw [utf8Parts_encode, utf8Parts_encode] at hparts
  exact List.map_injective_iff.mpr (Option.some_injective Char) hparts

/-- A text that starts with an ASCII character ends another one just when its bytes do. -/
theorem encode_suffix_iff (hascii : c.toNat < 128) {other : List Char} :
    (c :: chars).flatMap String.utf8EncodeChar <:+ other.flatMap String.utf8EncodeChar ↔
      c :: chars <:+ other := by
  constructor
  · rintro ⟨before, hbefore⟩
    induction other generalizing before with
    | nil =>
      rw [List.flatMap_cons, utf8EncodeChar_ascii hascii] at hbefore
      exact absurd (List.append_eq_nil_iff.mp hbefore).2 (List.cons_ne_nil _ _)
    | cons d other ih =>
      have hlater := fun before heq => (ih before heq).trans (List.suffix_cons d other)
      have hcut := hbefore
      rw [List.flatMap_cons (x := d)] at hcut
      rcases List.append_eq_append_iff.mp hcut with ⟨inside, hd, hrest⟩ | ⟨more, -, hrest⟩
      · cases inside with
        | nil => exact hlater [] hrest
        | cons byte inside =>
          rw [List.flatMap_cons, utf8EncodeChar_ascii hascii] at hrest
          obtain ⟨rfl, -⟩ := List.cons.inj hrest
          have hmem : UInt8.ofNat c.toNat ∈ String.utf8EncodeChar d := by
            rw [hd]
            exact List.mem_append_right _ List.mem_cons_self
          -- the other character is this one byte, so that both texts start here
          rw [utf8EncodeChar_ascii (ascii_of_mem_utf8EncodeChar hascii hmem),
            List.singleton_eq_append_iff] at hd
          obtain ⟨rfl, -⟩ | ⟨-, hnil⟩ := hd
          · exact encode_injective hbefore ▸ List.suffix_rfl
          · cases hnil
      · exact hlater more hrest.symm
  · rintro ⟨before, rfl⟩
    rw [List.flatMap_append]
    exact List.suffix_append _ _

end CrossIndex.Text
