import CrossIndex.Proofs.Path.Components
import CrossIndex.Proofs.Text.Utf8
import CrossIndex.Scan.Naming

/-!
Names and texts. Main statements: the texts among the names are the names that texts have, and such a name is
shown as its text; a path of such names is the one that is meant by it as it is shown; and the name of a text
ends in that of a text with a dot at its start just when the text does.
-/

namespace CrossIndex.Naming

variable {naming : Naming} {name text : String} {bytes : List UInt8} {directory : Path}

/-! ### Names byte by byte -/

theorem toNat_ofNat_byte (byte : UInt8) : (Char.ofNat byte.toNat).toNat = byte.toNat := by
  have hvalid : byte.toNat.isValidChar := Or.inl (Nat.lt_trans byte.toNat_lt (by decide))
  rw [Char.ofNat, dif_pos hvalid]
  rfl

theorem byte?_eq_some_iff {c : Char} {byte : UInt8} :
    byte? c = some byte ↔ c = .ofNat byte.toNat := by
  rw [byte?]
  constructor
  · intro h
    split at h
    · next hlt =>
      obtain rfl := Option.some.inj h
      rw [UInt8.toNat_ofNat_of_lt' hlt, Char.ofNat_toNat]
    · cases h
  · rintro rfl
    rw [toNat_ofNat_byte, if_pos byte.toNat_lt, UInt8.ofNat_toNat]

theorem mapM_byte?_eq_some_iff {chars : List Char} :
    chars.mapM byte? = some bytes ↔ chars = bytes.map fun byte => .ofNat byte.toNat := by
  induction chars generalizing bytes with
  | nil =>
    rw [List.mapM_nil, eq_comm (a := []), List.map_eq_nil_iff, eq_comm]
    exact Option.some_inj
  | cons c chars ih =>
    rw [List.mapM_cons]
    constructor
    · intro h
      obtain ⟨byte, hbyte, hrest⟩ := Option.bind_eq_some_iff.mp h
      obtain ⟨more, hmore, heq⟩ := Option.bind_eq_some_iff.mp hrest
      obtain rfl := Option.some.inj heq
      rw [List.map_cons, ← byte?_eq_some_iff.mp hbyte, ← ih.mp hmore]
    · intro h
      obtain ⟨byte, more, rfl, hc, hmore⟩ := List.map_eq_cons_iff.mp h.symm
      rw [byte?_eq_some_iff.mpr hc.symm, ih.mpr hmore.symm]
      rfl

/-- The bytes of a name are those that it is the name of. -/
theorem bytes?_eq_some_iff : bytes? name = some bytes ↔ name = ofBytes bytes := by
  rw [bytes?, mapM_byte?_eq_some_iff, ofBytes, ← String.toList_inj, String.toList_ofList]

theorem bytes?_ofBytes (bytes : List UInt8) : bytes? (ofBytes bytes) = some bytes :=
  bytes?_eq_some_iff.mpr rfl

theorem charOfByte_injective : Function.Injective fun byte : UInt8 => Char.ofNat byte.toNat := by
  intro a b h
  have hnat := congrArg Char.toNat h
  rw [toNat_ofNat_byte, toNat_ofNat_byte] at hnat
  exact UInt8.toNat_inj.mp hnat

/-! ### Names that are texts -/

/-- The texts among the names are the names that texts have. -/
theorem text?_eq_some_iff : naming.text? name = some text ↔ name = naming.ofText text := by
  cases naming with
  | texts => exact Option.some_inj
  | bytes =>
    rw [text?, ofText, Option.bind_eq_some_iff]
    constructor
    · rintro ⟨bytes, hbytes, htext⟩
      rw [← Text.fromUTF8?_eq_some_iff.mp htext]
      exact bytes?_eq_some_iff.mp hbytes
    · intro h
      exact ⟨Text.encodeUtf8 text, bytes?_eq_some_iff.mpr h, Text.fromUTF8?_eq_some_iff.mpr rfl⟩

/-- A name that is a text is shown as it. -/
theorem shown_ofText (text : String) : naming.shown (naming.ofText text) = text := by
  cases naming with
  | texts => rfl
  | bytes =>
    rw [shown, ofText, bytes?_ofBytes, Option.map_some, Option.getD_some,
      Text.decodeUtf8Lossy_encodeUtf8]

/-- The bytes of the name are a text in UTF-8. -/
def IsText (naming : Naming) (name : String) : Prop := (naming.text? name).isSome = true

instance (naming : Naming) (name : String) : Decidable (naming.IsText name) :=
  inferInstanceAs (Decidable (_ = true))

/-- The names that are texts are those that texts have. -/
theorem isText_iff : naming.IsText name ↔ ∃ text, name = naming.ofText text := by
  rw [IsText, Option.isSome_iff_exists]
  exact exists_congr fun text => text?_eq_some_iff

theorem isText_texts (name : String) : IsText .texts name := rfl

/-- A path of texts is the one that is meant by it as it is shown. -/
theorem asShown_of_isText (h : ∀ segment ∈ directory.segments, naming.IsText segment) :
    naming.asShown directory = directory := by
  have hsame : directory.segments.map (fun segment => naming.ofText (naming.shown segment)) =
      directory.segments.map id := by
    apply List.map_congr_left
    intro segment hsegment
    obtain ⟨text, rfl⟩ := isText_iff.mp (h segment hsegment)
    rw [shown_ofText]
    rfl
  rw [asShown, hsame, List.map_id]

/-- The segment in front of the root is empty, and is shown as it is. -/
theorem isAbsolute_asShown (naming : Naming) (h : directory.isAbsolute = true) :
    (naming.asShown directory).isAbsolute = true := by
  obtain ⟨first, more, hs⟩ := Path.isAbsolute_iff.mp h
  have hempty : naming.ofText (naming.shown "") = "" := by cases naming <;> rfl
  rw [asShown, hs, List.map_cons, hempty]
  exact Path.isAbsolute_root (by simp)

/-- A name ends in a text with a dot at its start just when its own text does. -/
theorem ofText_suffix_iff {ending : String} {rest : List Char} (h : ending.toList = '.' :: rest) :
    (naming.ofText ending).toList <:+ (naming.ofText text).toList ↔ ending.toList <:+ text.toList := by
  cases naming with
  | texts => exact Iff.rfl
  | bytes =>
    rw [ofText, ofText, ofBytes, ofBytes, String.toList_ofList, String.toList_ofList,
      List.suffix_map_iff_of_injective charOfByte_injective, Text.encodeUtf8, Text.encodeUtf8, h,
      Text.encode_suffix_iff (by decide)]

end CrossIndex.Naming
