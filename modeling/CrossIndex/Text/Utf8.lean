/-!
UTF-8: the bytes of a text, and the text of bytes. Bytes that are no text can be refused, or be read
with a replacement character for each maximal part that begins no character.
-/

namespace CrossIndex.Text

/-- What a reader of bytes waits for. -/
inductive Utf8State where
  /-- The next byte begins a character. -/
  | ready
  /-- A character has begun: `more` bytes are to come, the next of them between `low` and `high`,
  and `code` collects the bits read so far. -/
  | inside (more : Nat) (low high : UInt8) (code : Nat)

/-- Takes a byte that should begin a character. A finished part is a character, or nothing for a
byte that begins none. -/
def Utf8State.begin (byte : UInt8) : List (Option Char) × Utf8State :=
  let bits := byte.toNat
  if bits < 0x80 then ([some (Char.ofNat bits)], .ready)
  else if 0xC2 ≤ bits ∧ bits ≤ 0xDF then ([], .inside 1 0x80 0xBF (bits - 0xC0))
  else if bits = 0xE0 then ([], .inside 2 0xA0 0xBF 0)
  else if bits = 0xED then ([], .inside 2 0x80 0x9F 0xD)
  else if 0xE1 ≤ bits ∧ bits ≤ 0xEF then ([], .inside 2 0x80 0xBF (bits - 0xE0))
  else if bits = 0xF0 then ([], .inside 3 0x90 0xBF 0)
  else if bits = 0xF4 then ([], .inside 3 0x80 0x8F 4)
  else if 0xF1 ≤ bits ∧ bits ≤ 0xF3 then ([], .inside 3 0x80 0xBF (bits - 0xF0))
  else ([none], .ready)

/-- Takes one more byte. A byte that does not continue the character begun ends that part as no
character, and is taken as the beginning of the next. -/
def Utf8State.step (state : Utf8State) (byte : UInt8) : List (Option Char) × Utf8State :=
  match state with
  | .ready => Utf8State.begin byte
  | .inside more low high code =>
    if low ≤ byte ∧ byte ≤ high then
      let code := code * 0x40 + (byte.toNat - 0x80)
      if more = 1 then ([some (Char.ofNat code)], .ready)
      else ([], .inside (more - 1) 0x80 0xBF code)
    else
      let (parts, next) := Utf8State.begin byte
      (none :: parts, next)

/-- The parts of a list of bytes, each a character or a maximal part that is none. -/
def utf8Parts : Utf8State → List UInt8 → List (Option Char)
  | .ready, [] => []
  | .inside .., [] => [none]
  | state, byte :: rest =>
    let (parts, next) := state.step byte
    parts ++ utf8Parts next rest

/-- The text of bytes in UTF-8, or nothing when they are no text. -/
def decodeUtf8? (bytes : List UInt8) : Option String :=
  ((utf8Parts .ready bytes).mapM id).map String.ofList

/-- The text of bytes in UTF-8, with a replacement character for each part that is no character. -/
def decodeUtf8Lossy (bytes : List UInt8) : String :=
  String.ofList ((utf8Parts .ready bytes).map (·.getD '\uFFFD'))

def encodeUtf8 (text : String) : List UInt8 :=
  text.toList.flatMap String.utf8EncodeChar

end CrossIndex.Text
