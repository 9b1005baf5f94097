import CrossIndex.Fact.Json
import CrossIndex.Proofs.Json.Reading
import CrossIndex.Proofs.Text.Split

/-!
Facts and their JSON forms. Main statement: a fact is read from every text that spells its JSON form, with
the fields of each object in any order and among others of other names; so no text is the form of two
facts.
-/

namespace CrossIndex

namespace Json

/-- An object with the fields, in any order and among others. -/
def HasFields (fields : List (String × Json)) (json : Json) : Prop :=
  ∃ members others, json = .object members ∧ members.Perm (fields ++ others) ∧
    ∀ m ∈ others, m.1 ∉ fields.map Prod.fst

theorem hasFields_object (fields : List (String × Json)) : HasFields fields (.object fields) :=
  ⟨fields, [], rfl, by rw [List.append_nil], fun _ h => (List.not_mem_nil h).elim⟩

section Fields

variable {fields others members : List (String × Json)} {field : String × Json}

theorem filter_name_fields (hnames : (fields.map Prod.fst).Nodup) (hfield : field ∈ fields) :
    fields.filter (·.1 = field.1) = [field] := by
  induction fields with
  | nil => cases hfield
  | cons first fields ih =>
    rw [List.map_cons, List.nodup_cons] at hnames
    rcases List.mem_cons.mp hfield with rfl | hmem
    · have hnone : fields.filter (·.1 = field.1) = [] := by
        rw [List.filter_eq_nil_iff]
        intro other hother heq
        have hname := List.mem_map_of_mem (f := Prod.fst) hother
        rw [of_decide_eq_true heq] at hname
        exact hnames.1 hname
      rw [List.filter_cons_of_pos (by simp), hnone]
    · have hne : first.1 ≠ field.1 := fun heq =>
        hnames.1 (heq ▸ List.mem_map_of_mem hmem)
      rw [List.filter_cons_of_neg (by simpa using hne), ih hnames.2 hmem]

/-- Each field is found once among the members. -/
theorem filter_name (hnames : (fields.map Prod.fst).Nodup) (hperm : members.Perm (fields ++ others))
    (hothers : ∀ m ∈ others, m.1 ∉ fields.map Prod.fst) (hfield : field ∈ fields) :
    members.filter (·.1 = field.1) = [field] := by
  have hnone : others.filter (·.1 = field.1) = [] := by
    rw [List.filter_eq_nil_iff]
    intro m hm heq
    apply hothers m hm
    rw [of_decide_eq_true heq]
    exact List.mem_map_of_mem hfield
  have hfiltered := hperm.filter (·.1 = field.1)
  rw [List.filter_append, filter_name_fields hnames hfield, hnone, List.append_nil] at hfiltered
  exact List.perm_singleton.mp hfiltered

theorem fields?_of_hasFields {json : Json} (h : json.HasFields fields)
    (hnames : (fields.map Prod.fst).Nodup) : json.fields? (fields.map Prod.fst) = some (fields.map Prod.snd) := by
  obtain ⟨members, others, rfl, hperm, hothers⟩ := h
  have hfind : ∀ field ∈ fields, members.filter (·.1 = field.1) = [field] := fun field hfield =>
    filter_name hnames hperm hothers hfield
  rw [fields?]
  -- the members stay the same while the induction takes the fields one by one
  clear hnames hperm hothers
  induction fields with
  | nil => rfl
  | cons field fields ih =>
    have hfirst := hfind field List.mem_cons_self
    have hrest := ih fun field hfield => hfind field (List.mem_cons_of_mem _ hfield)
    simp only [List.map_cons, List.mapM_cons, hfirst, hrest]
    rfl

/-- Without its first field an object has the others. -/
theorem HasFields.rest (hnames : ((field :: fields).map Prod.fst).Nodup)
    (hperm : members.Perm (field :: fields ++ others))
    (hothers : ∀ m ∈ others, m.1 ∉ (field :: fields).map Prod.fst) :
    HasFields fields (.object (members.filter (·.1 ≠ field.1))) := by
  rw [List.map_cons, List.nodup_cons] at hnames
  have hfields : fields.filter (·.1 ≠ field.1) = fields := by
    rw [List.filter_eq_self]
    intro m hm
    apply decide_eq_true
    intro heq
    exact hnames.1 (heq ▸ List.mem_map_of_mem hm)
  have hrest : others.filter (·.1 ≠ field.1) = others := by
    rw [List.filter_eq_self]
    intro m hm
    apply decide_eq_true
    intro heq
    apply hothers m hm
    rw [List.map_cons, heq]
    exact List.mem_cons_self
  refine ⟨_, others, rfl, ?_, fun m hm hname => hothers m hm (List.mem_cons_of_mem _ hname)⟩
  have hfiltered := hperm.filter (·.1 ≠ field.1)
  rw [List.cons_append, List.filter_cons_of_neg (by simp), List.filter_append, hfields, hrest]
    at hfiltered
  exact hfiltered

end Fields

theorem coordinate?_nat {n : Nat} (hn : n < coordinateLimit) : (nat n).coordinate? = some n := by
  have hvalue : (JsonNumber.ofNat n).toNat? = some n :=
    congrArg some (JsonNumber.digitsValue_toDigits n)
  simp [nat, coordinate?, hvalue, hn]

theorem readable_nat {n depth : Nat} (hn : n < coordinateLimit) : Readable depth (.nat n) := by
  have hlimit : coordinateLimit ≤ Text.doubleLimit := by decide +kernel
  exact .number (JsonNumber.ofNat_wellFormed (Nat.lt_of_lt_of_le hn hlimit))

end Json

/-- The path is one that a text names. -/
def Path.IsText (p : Path) : Prop := ∃ text, p = .ofString text

theorem Path.ofString_toString {p : Path} (h : p.IsText) : Path.ofString p.toString = p := by
  obtain ⟨text, rfl⟩ := h
  have hpieces := Text.pieces_intercalate (Text.pieces_ne_nil '/' text) fun piece hpiece hslash =>
    (Text.mem_of_mem_pieces hpiece hslash).2 rfl
  exact congrArg Path.mk hpieces

namespace Position

/-- The coordinates are numbers of 32 bits. -/
def Fits (p : Position) : Prop := p.line < coordinateLimit ∧ p.column < coordinateLimit

/-- The value is a JSON form of the position. -/
def Written (p : Position) (json : Json) : Prop :=
  json.HasFields [("line", .nat p.line), ("character", .nat p.column)]

variable {p : Position} {json : Json} {depth : Nat}

theorem ofJson?_of_written (hp : p.Fits) (h : p.Written json) : ofJson? json = some p := by
  have hnames : ["line", "character"].Nodup := by decide
  have hfields : json.fields? ["line", "character"] = some [.nat p.line, .nat p.column] :=
    Json.fields?_of_hasFields h hnames
  have hline := Json.coordinate?_nat hp.1
  have hcolumn := Json.coordinate?_nat hp.2
  simp [ofJson?, hfields, hline, hcolumn]

theorem readable_toJson (hp : p.Fits) : Json.Readable (depth + 1) p.toJson := by
  refine .object fun m hm => ?_
  rcases List.mem_cons.mp hm with rfl | hm
  · exact Json.readable_nat hp.1
  · rw [List.mem_singleton.mp hm]
    exact Json.readable_nat hp.2

end Position

namespace Range

def Fits (r : Range) : Prop := r.start.Fits ∧ r.stop.Fits

/-- The value is a JSON form of the range. -/
def Written (r : Range) (json : Json) : Prop :=
  ∃ start stop, r.start.Written start ∧ r.stop.Written stop ∧
    json.HasFields [("start", start), ("end", stop)]

variable {r : Range} {json : Json} {depth : Nat}

theorem ofJson?_of_written (hr : r.Fits) (h : r.Written json) : ofJson? json = some r := by
  obtain ⟨start, stop, hstart, hstop, h⟩ := h
  have hnames : ["start", "end"].Nodup := by decide
  have hfields : json.fields? ["start", "end"] = some [start, stop] :=
    Json.fields?_of_hasFields h hnames
  have hstart := Position.ofJson?_of_written hr.1 hstart
  have hstop := Position.ofJson?_of_written hr.2 hstop
  simp [ofJson?, hfields, hstart, hstop]

theorem written_toJson (r : Range) : r.Written r.toJson :=
  ⟨_, _, Json.hasFields_object _, Json.hasFields_object _, Json.hasFields_object _⟩

theorem readable_toJson (hr : r.Fits) : Json.Readable (depth + 2) r.toJson := by
  refine .object fun m hm => ?_
  rcases List.mem_cons.mp hm with rfl | hm
  · exact Position.readable_toJson hr.1
  · rw [List.mem_singleton.mp hm]
    exact Position.readable_toJson hr.2

end Range

theorem KeyMapping.ofJson?_name (mapping : KeyMapping) :
    KeyMapping.ofJson? (.string mapping.name) = some mapping := by
  cases mapping with
  | identity => rfl
  | namespaced => rfl

namespace Fact

/-- The coordinates are numbers of 32 bits, and the path is one that a text names. -/
def Fits : Fact → Prop
  | definition d => d.path.IsText ∧ d.range.Fits
  | reference r => r.path.IsText ∧ r.range.Fits
  | exposure e => e.path.IsText
  | symbol _ => True

def SiteWritten (key : String) (path : Path) (range : Range) (fields : List (String × Json)) : Prop :=
  ∃ json, range.Written json ∧
    fields = [("key", .string key), ("path", .string path.toString), ("range", json)]

/-- The fields are those of the fact, with any JSON form of its range. -/
def FieldsWritten : Fact → List (String × Json) → Prop
  | definition d, fields => SiteWritten d.key d.path d.range fields
  | reference r, fields => SiteWritten r.key r.path r.range fields
  | exposure e, fields => fields = (exposure e).fieldsJson
  | symbol value, fields => fields = (symbol value).fieldsJson

/-- The value is a JSON form of the fact: the kind and the fields, in any order and among others. -/
def Written (f : Fact) (json : Json) : Prop :=
  ∃ fields, f.FieldsWritten fields ∧ json.HasFields (("kind", .string f.kind) :: fields)

variable {f : Fact} {json : Json} {fields : List (String × Json)} {depth : Nat}

theorem written_toJson (f : Fact) : f.Written f.toJson := by
  refine ⟨f.fieldsJson, ?_, Json.hasFields_object _⟩
  cases f with
  | definition d => exact ⟨_, d.range.written_toJson, rfl⟩
  | reference r => exact ⟨_, r.range.written_toJson, rfl⟩
  | exposure e => rfl
  | symbol value => rfl

/-- The names of the fields differ from each other and from that of the kind. -/
theorem FieldsWritten.names (h : f.FieldsWritten fields) (kind : Json) :
    ((("kind", kind) :: fields).map Prod.fst).Nodup := by
  have hsite : ["kind", "key", "path", "range"].Nodup := by decide
  have hexport : ["kind", "key_prefix", "path", "mapping"].Nodup := by decide
  have hsymbol : ["kind", "value"].Nodup := by decide
  cases f with
  | definition d =>
    obtain ⟨json, -, rfl⟩ := h
    exact hsite
  | reference r =>
    obtain ⟨json, -, rfl⟩ := h
    exact hsite
  | exposure e =>
    cases h
    exact hexport
  | symbol value =>
    cases h
    exact hsymbol

theorem siteOfJson?_of_written {key : String} {path : Path} {range : Range} (hpath : path.IsText)
    (hrange : range.Fits) (h : SiteWritten key path range fields) (hjson : json.HasFields fields) :
    siteOfJson? json = some (key, path, range) := by
  obtain ⟨value, hvalue, rfl⟩ := h
  have hnames : ["key", "path", "range"].Nodup := by decide
  have hfields : json.fields? ["key", "path", "range"] =
      some [.string key, .string path.toString, value] := Json.fields?_of_hasFields hjson hnames
  have hread := Range.ofJson?_of_written hrange hvalue
  simp [siteOfJson?, hfields, Json.text?, hread, Path.ofString_toString hpath]

theorem ofFields?_of_written (hf : f.Fits) (h : f.FieldsWritten fields)
    (hjson : json.HasFields fields) : ofFields? f.kind json = some f := by
  cases f with
  | definition d =>
    have hsite := siteOfJson?_of_written hf.1 hf.2 h hjson
    simp [ofFields?, kind, hsite, define]
  | reference r =>
    have hsite := siteOfJson?_of_written hf.1 hf.2 h hjson
    simp [ofFields?, kind, hsite, refer]
  | exposure e =>
    cases h
    have hnames : ["key_prefix", "path", "mapping"].Nodup := by decide
    have hfields : json.fields? ["key_prefix", "path", "mapping"] =
        some [.string e.family, .string e.path.toString, .string e.mapping.name] :=
      Json.fields?_of_hasFields hjson hnames
    have hpath : Path.ofString e.path.toString = e.path := Path.ofString_toString hf
    simp [ofFields?, kind, hfields, Json.text?, hpath, KeyMapping.ofJson?_name]
  | symbol value =>
    cases h
    have hnames : ["value"].Nodup := by decide
    have hfields : json.fields? ["value"] = some [.string value] :=
      Json.fields?_of_hasFields hjson hnames
    simp [ofFields?, kind, hfields, Json.text?]

/-- A fact is read from each of its JSON forms. -/
theorem ofJson?_of_written (hf : f.Fits) (h : f.Written json) : ofJson? json = some f := by
  obtain ⟨fields, hfields, members, others, rfl, hperm, hothers⟩ := h
  have hnames := hfields.names (.string f.kind)
  -- the kind stands in one member, and the other members have the fields
  have hkind := Json.filter_name hnames hperm hothers List.mem_cons_self
  have hrest := Json.HasFields.rest hnames hperm hothers
  simp only at hkind hrest
  rw [ofJson?, hkind]
  exact ofFields?_of_written hf hfields hrest

theorem readable_siteFields {range : Range} (hrange : range.Fits) (key : String) (path : Path) :
    ∀ m ∈ siteFields key path range, Json.Readable (depth + 2) m.2 := by
  intro m hm
  simp only [siteFields, List.mem_cons, List.not_mem_nil, or_false] at hm
  rcases hm with rfl | rfl | rfl
  · exact .string key
  · exact .string path.toString
  · exact Range.readable_toJson hrange

theorem readable_toJson (hf : f.Fits) : Json.Readable (depth + 3) f.toJson := by
  refine .object (List.forall_mem_cons.mpr ⟨.string f.kind, ?_⟩)
  cases f with
  | definition d => exact readable_siteFields hf.2 d.key d.path
  | reference r => exact readable_siteFields hf.2 r.key r.path
  | exposure e =>
    intro m hm
    simp only [fieldsJson, List.mem_cons, List.not_mem_nil, or_false] at hm
    rcases hm with rfl | rfl | rfl
    · exact .string e.family
    · exact .string e.path.toString
    · exact .string e.mapping.name
  | symbol value =>
    intro m hm
    rw [List.mem_singleton.mp hm]
    exact .string value

/-- A fact is read from every text that spells one of its JSON forms, whatever the order of the fields and
with unknown ones among them. So distinct facts have distinct texts. -/
theorem read?_of_written (hf : f.Fits) :
    (∀ json text, f.Written json → Json.Spells 127 json text →
      read? (String.ofList text) = some f) ∧
    (∀ json, f.Written json → Json.Readable 127 json →
      read? json.compact = some f ∧ read? json.pretty = some f) ∧
    f.Written f.toJson ∧ Json.Readable 127 f.toJson ∧
    ∀ other : Fact, other.Fits → f ≠ other →
      f.toJson.compact ≠ other.toJson.compact ∧ f.toJson.pretty ≠ other.toJson.pretty := by
  have hread : ∀ {f : Fact} {json text}, f.Fits → f.Written json → Json.Spells 127 json text →
      read? (String.ofList text) = some f := by
    intro f json text hf hwritten hspells
    rw [read?, Json.read?_of_spells hspells]
    exact ofJson?_of_written hf hwritten
  have hcompact : ∀ {f : Fact}, f.Fits → read? f.toJson.compact = some f := fun {f} hf =>
    hread hf f.written_toJson (Json.spells_compact (readable_toJson hf))
  have hpretty : ∀ {f : Fact}, f.Fits → read? f.toJson.pretty = some f := fun {f} hf =>
    hread hf f.written_toJson (Json.spells_pretty (readable_toJson hf) 0)
  refine ⟨fun _ _ => hread hf, ?_, f.written_toJson, readable_toJson hf, ?_⟩
  · intro json hwritten hreadable
    exact ⟨hread hf hwritten (Json.spells_compact hreadable),
      hread hf hwritten (Json.spells_pretty hreadable 0)⟩
  · intro other hother hne
    constructor
    · intro heq
      have h := hcompact hf
      rw [heq, hcompact hother, Option.some.injEq] at h
      exact hne h.symm
    · intro heq
      have h := hpretty hf
      rw [heq, hpretty hother, Option.some.injEq] at h
      exact hne h.symm

/-- A definition whose key has a quote, a control character and one beyond the basic plane. -/
def oddDefinition : Fact :=
  .define "\"\\\x01😀" (.ofString "src/ü b.cc") ⟨⟨4294967295, 0⟩, ⟨0, 4294967295⟩⟩

/-- Its JSON form with the fields turned round, after an unknown one. -/
def oddJson : Json :=
  .object (("note", .array [.null, .bool true]) ::
    (("kind", .string "definition") :: oddDefinition.fieldsJson).reverse)

theorem read?_of_written_odd :
    oddDefinition.Fits ∧ oddDefinition.Written oddJson ∧ Json.Readable 127 oddJson ∧
      read? oddJson.compact = some oddDefinition ∧
      read? oddDefinition.toJson.pretty = some oddDefinition := by
  have hfits : oddDefinition.Fits :=
    ⟨⟨_, rfl⟩, ⟨by decide, by decide⟩, ⟨by decide, by decide⟩⟩
  have hperm := List.perm_append_comm.trans ((List.reverse_perm
    (("kind", .string "definition") :: oddDefinition.fieldsJson)).append_right
      [("note", .array [.null, .bool true])])
  have hnote : ∀ m ∈ [("note", Json.array [.null, .bool true])],
      m.1 ∉ (("kind", .string oddDefinition.kind) :: oddDefinition.fieldsJson).map Prod.fst := by
    intro m hm
    rw [List.mem_singleton.mp hm]
    decide
  have hwritten : oddDefinition.Written oddJson :=
    ⟨_, ⟨_, Range.written_toJson _, rfl⟩, _, _, rfl, hperm, hnote⟩
  have hitems : ∀ item ∈ [Json.null, .bool true], Json.Readable 125 item :=
    List.forall_mem_cons.mpr ⟨.null, List.forall_mem_singleton.mpr (.bool true)⟩
  have hfields : ∀ m ∈ ("kind", Json.string oddDefinition.kind) :: oddDefinition.fieldsJson,
      Json.Readable 126 m.2 :=
    List.forall_mem_cons.mpr ⟨.string _, readable_siteFields hfits.2 _ _⟩
  have hreadable : Json.Readable 127 oddJson := 
    .object (List.forall_mem_cons.mpr
      ⟨.array hitems, fun m hm => hfields m (List.mem_reverse.mp hm)⟩)
  obtain ⟨-, hprinted, hown, hownReadable, -⟩ := read?_of_written hfits
  exact ⟨hfits, hwritten, hreadable, (hprinted _ hwritten hreadable).1,
    (hprinted _ hown hownReadable).2⟩

end Fact

end CrossIndex
