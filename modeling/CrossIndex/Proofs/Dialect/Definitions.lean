import CrossIndex.Dialect.Provider
import CrossIndex.Proofs.Index
import CrossIndex.Proofs.Matcher.Decorator
import CrossIndex.Proofs.Matcher.KeyRange
import CrossIndex.Proofs.Matcher.Span

/-!
Definitions in a source. A dialect reads the keys of its definitions from their own ranges and puts
the name of a space before some of them, so that two of its patterns never give the same definition.
Main statement: no provider finds a definition of a source twice.
-/

namespace CrossIndex

/-- The definitions among facts, in their order. -/
def definitionsIn (facts : List Fact) : List Definition := facts.filterMap Fact.definition?

/-- Definitions at one path, no two of which are the same. -/
structure DefinesOnce (path : Path) (found : List Definition) : Prop where
  path_eq : ∀ d ∈ found, d.path = path
  nodup : found.Nodup

/-- The key is the text of the range, behind the name of a space. -/
def Definition.Spells (lines : List String) (space : String) (d : Definition) : Prop :=
  ∃ text, d.key = space ++ text ∧ d.range.Denotes lines text

/-- Definitions at one path whose keys are spelt with names of these spaces, each once. -/
structure Registers (path : Path) (lines : List String) (spaces : List String)
    (found : List Definition) : Prop extends DefinesOnce path found where
  spells : ∀ d ∈ found, ∃ space ∈ spaces, d.Spells lines space

variable {path : Path} {lines : List String} {spaces more : List String}
  {found later : List Definition} {d : Definition}

theorem definesOnce_nil : DefinesOnce path [] :=
  ⟨fun _ hd => absurd hd List.not_mem_nil, List.nodup_nil⟩

theorem DefinesOnce.append (h : DefinesOnce path found) (h' : DefinesOnce path later)
    (hdiffer : ∀ d ∈ found, d ∉ later) : DefinesOnce path (found ++ later) := by
  constructor
  · intro d hd
    rcases List.mem_append.mp hd with hfound | hlater
    · exact h.path_eq d hfound
    · exact h'.path_eq d hlater
  · apply List.nodup_append.mpr
    refine ⟨h.nodup, h'.nodup, ?_⟩
    rintro d hfound _ hlater rfl
    exact hdiffer d hfound hlater

theorem mem_definitionsIn {facts : List Fact} : d ∈ definitionsIn facts ↔ .definition d ∈ facts := by
  rw [definitionsIn, List.mem_filterMap]
  constructor
  · rintro ⟨fact, hmem, hfact⟩
    cases fact <;> cases hfact
    exact hmem
  · exact fun h => ⟨_, h, rfl⟩

theorem definitionsIn_append (facts rest : List Fact) :
    definitionsIn (facts ++ rest) = definitionsIn facts ++ definitionsIn rest :=
  List.filterMap_append

/-- The definitions that are made from found items. -/
theorem definitionsIn_define {β : Type} (key : β → String) (path : Path) (range : β → Range)
    (items : List β) :
    definitionsIn (items.map fun b => .define (key b) path (range b)) =
      items.map fun b => ⟨key b, path, range b⟩ := by
  rw [definitionsIn, List.filterMap_map, ← List.filterMap_eq_map]
  rfl

theorem definitionsIn_refer {β : Type} (key : β → String) (path : Path) (range : β → Range)
    (items : List β) : definitionsIn (items.map fun b => .refer (key b) path (range b)) = [] := by
  rw [definitionsIn, List.filterMap_map, List.filterMap_eq_nil_iff]
  exact fun _ _ => rfl

/-- Items with different ranges make different definitions. -/
theorem definesOnce_map {β : Type} (key : β → String) (path : Path) {range : β → Range}
    {items : List β} (h : items.Pairwise fun a b => range a ≠ range b) :
    DefinesOnce path (items.map fun b => ⟨key b, path, range b⟩) := by
  constructor
  · intro d hd
    obtain ⟨b, -, rfl⟩ := List.mem_map.mp hd
    rfl
  · apply List.pairwise_map.mpr
    exact h.imp fun hne hsame => hne (congrArg Definition.range hsame)

/-! ### Patterns -/

/-- One definition is not spelt with names of two lengths. -/
theorem Definition.Spells.length_eq {space space' : String} (h : d.Spells lines space)
    (h' : d.Spells lines space') : space.length = space'.length := by
  obtain ⟨text, hkey, hdenotes⟩ := h
  obtain ⟨text', hkey', hdenotes'⟩ := h'
  obtain rfl := hdenotes.text_eq hdenotes'
  have hlength := congrArg String.length (hkey.symm.trans hkey')
  rw [String.length_append, String.length_append] at hlength
  omega

theorem registers_nil : Registers path lines spaces [] where
  toDefinesOnce := definesOnce_nil
  spells := fun _ hd => absurd hd List.not_mem_nil

theorem Registers.append (h : Registers path lines spaces found)
    (h' : Registers path lines more later)
    (hspaces : ∀ space ∈ spaces, ∀ other ∈ more, space.length ≠ other.length) :
    Registers path lines (spaces ++ more) (found ++ later) := by
  refine ⟨h.toDefinesOnce.append h'.toDefinesOnce ?_, ?_⟩
  · -- a definition of both would be spelt with two names
    intro d hfound hlater
    obtain ⟨space, hmem, hspells⟩ := h.spells d hfound
    obtain ⟨other, hother, hspells'⟩ := h'.spells d hlater
    exact hspaces space hmem other hother (hspells.length_eq hspells')
  · intro d hd
    rcases List.mem_append.mp hd with hfound | hlater
    · obtain ⟨space, hmem, hspells⟩ := h.spells d hfound
      exact ⟨space, List.mem_append_left _ hmem, hspells⟩
    · obtain ⟨space, hmem, hspells⟩ := h'.spells d hlater
      exact ⟨space, List.mem_append_right _ hmem, hspells⟩

theorem range_ne_of_line_lt {a b : Range} (h : a.start.line < b.start.line) : a ≠ b := by
  rintro rfl
  exact absurd h (Nat.lt_irrefl _)

theorem pairwise_range_foundInLines (p : Pattern) (lines : List String) (w : Window) :
    (p.foundInLines lines w).Pairwise fun a b => a.range ≠ b.range := by
  refine (w.pairwise_scan lines (fun found : Found => found.range.start.line) ?_).imp
    range_ne_of_line_lt
  intro i line below? found h
  obtain ⟨place, -, h⟩ := Option.bind_eq_some_iff.mp h
  obtain rfl := Option.some.inj h
  rfl

theorem pairwise_range_lineKeys (p : Pattern) (lines : List String) (w : Window) :
    (p.lineKeys lines w).Pairwise fun a b => a.range ≠ b.range := by
  refine (w.pairwise_scan lines (fun hit : KeyHit => hit.range.start.line) ?_).imp
    range_ne_of_line_lt
  intro i line below? hit h
  obtain ⟨place, -, h⟩ := Option.bind_eq_some_iff.mp h
  obtain ⟨name, -, h⟩ := Option.bind_eq_some_iff.mp h
  obtain ⟨key, -, h⟩ := Option.bind_eq_some_iff.mp h
  obtain rfl := Option.some.inj h
  rfl

/-- The definitions of a pattern, with the name of a space before each key. -/
theorem registers_foundInLines {p : Pattern} (hp : p.alwaysKeyed = true) (space : String)
    (path : Path) (lines : List String) (w : Window) :
    Registers path lines [space] ((p.foundInLines lines w).map fun found =>
      ⟨space ++ found.named p "key", path, found.range⟩) where
  toDefinesOnce := definesOnce_map _ path (pairwise_range_foundInLines p lines w)
  spells := by
    intro d hd
    obtain ⟨found, hmem, rfl⟩ := List.mem_map.mp hd
    obtain ⟨i, line, -, hline, hfound⟩ := Window.mem_scan_iff.mp hmem
    exact ⟨space, List.mem_singleton_self _, _, rfl,
      Pattern.denotes_named_of_foundIn hp hline (Option.mem_toList.mp hfound)⟩

theorem registers_lineKeys (p : Pattern) (path : Path) (lines : List String) (w : Window) :
    Registers path lines [""] ((p.lineKeys lines w).map fun hit => ⟨hit.key, path, hit.range⟩) where
  toDefinesOnce := definesOnce_map _ path (pairwise_range_lineKeys p lines w)
  spells := by
    intro d hd
    obtain ⟨hit, hmem, rfl⟩ := List.mem_map.mp hd
    obtain ⟨i, line, -, hline, hfound⟩ := Window.mem_scan_iff.mp hmem
    obtain ⟨place, hplace, hhit⟩ := Option.bind_eq_some_iff.mp (Option.mem_toList.mp hfound)
    exact ⟨"", List.mem_singleton_self _, hit.key, String.empty_append.symm,
      Pattern.denotes_of_keyHit? hline (Regex.liesIn_of_search? hplace) hhit⟩

/-! ### Matches of a whole file -/

namespace Regex

variable {chars : String} {rest : List Regex} {text : List Char} {m : Match}

theorem neverEmpty_seqs_text (h : chars ≠ "") : (seqs (Regex.text chars :: rest)).NeverEmpty := by
  intro passed text t hway
  have hle := (way_seqs_text hway).2
  have hpos : 0 < chars.length :=
    Nat.pos_of_ne_zero fun hzero => h (String.length_eq_zero_iff.mp hzero)
  omega

/-- The text of a match begins as its expression does. -/
theorem prefix_of_mem_allMatches (h : m ∈ (seqs (Regex.text chars :: rest)).allMatches text) :
    chars.toList <+: text.drop m.start := by
  obtain ⟨before, after, skipped, rfl, hfinds⟩ := exists_finds_of_mem_allMatches h
  obtain ⟨following, rfl, hstart, hway⟩ := hfinds
  rw [hstart, ← List.append_assoc, List.drop_left]
  exact (way_seqs_text hway).1

end Regex

theorem pairwise_range_foundInFile {p : Pattern} (hp : p.body.NeverEmpty) (lines : List String) :
    (p.foundInFile lines).Pairwise fun a b => a.range ≠ b.range := by
  apply List.pairwise_map.mpr
  apply (Regex.pairwise_start_allMatches hp _).imp_of_mem
  intro a b ha hb hlt hsame
  have hbounds := Regex.bounds_of_mem_allMatches ha
  have hbounds' := Regex.bounds_of_mem_allMatches hb
  have hstart := eq_of_start_rangeOfSpan (Nat.le_trans hbounds.1 hbounds.2)
    (Nat.le_trans hbounds'.1 hbounds'.2) (congrArg Range.start hsame)
  omega

/-- Expressions that begin with different characters have no matches at one place. -/
theorem range_ne_of_mem_foundInFile {p q : Pattern} {chars other : String} {rest rest' : List Regex}
    (hp : p.body = .seqs (.text chars :: rest)) (hq : q.body = .seqs (.text other :: rest'))
    {c e : Char} {cs es : List Char} (hc : chars.toList = c :: cs) (he : other.toList = e :: es)
    (hne : c ≠ e) {a b : Found} (ha : a ∈ p.foundInFile lines) (hb : b ∈ q.foundInFile lines) :
    a.range ≠ b.range := by
  obtain ⟨m, hm, rfl⟩ := List.mem_map.mp ha
  obtain ⟨m', hm', rfl⟩ := List.mem_map.mp hb
  intro hsame
  have hbounds := Regex.bounds_of_mem_allMatches hm
  have hbounds' := Regex.bounds_of_mem_allMatches hm'
  have hstart : m.start = m'.start := eq_of_start_rangeOfSpan (Nat.le_trans hbounds.1 hbounds.2)
    (Nat.le_trans hbounds'.1 hbounds'.2) (congrArg Range.start hsame)
  rw [hp] at hm
  rw [hq] at hm'
  -- the text from there on would begin with both characters
  obtain ⟨after, hafter⟩ := Regex.prefix_of_mem_allMatches hm
  obtain ⟨after', hafter'⟩ := Regex.prefix_of_mem_allMatches hm'
  rw [hstart, ← hafter', hc, he] at hafter
  exact hne (List.cons.inj hafter).1

/-! ### Dialects -/

theorem Packed.registers_native (names : PackedNames) (path : Path) (lines : List String)
    (w : Window) :
    Registers path lines ["", "t:"] (definitionsIn (native names path lines w)) := by
  have hlookups := definitionsIn_refer KeyHit.key path KeyHit.range (lookup.allKeys lines w)
  rw [native, definitionsIn_append, definitionsIn_append, hlookups, List.append_nil,
    definitionsIn_define, definitionsIn_define]
  apply (registers_lineKeys _ path lines w).append (registers_foundInLines rfl "t:" path lines w)
  decide

theorem Packed.eq_of_functionDefinition? {paths : PackagePaths} {resolver : Resolver} {path : Path}
    {hit : KeyHit} {fact : Fact} (h : functionDefinition? paths resolver path hit = some fact) :
    fact = .define hit.key path hit.range := by
  rw [functionDefinition?] at h
  split at h
  · exact (Option.some.inj h).symm
  · cases h

/-- Among the facts of a Python source the registered functions alone are definitions. -/
theorem Packed.definitionsIn_python {names : PackedNames} {paths? : Option PackagePaths}
    {typeKeyOf : String → String → String} {resolver : Resolver} {path : Path} {lines : List String}
    {w : Window} :
    definitionsIn (python names paths? typeKeyOf resolver path lines w) =
      definitionsIn ((registerFunc.hits lines w).filterMap fun hit =>
        paths?.bind fun paths => functionDefinition? paths resolver path hit) := by
  have hfamilies : definitionsIn ((initApi.lineKeys lines w).filterMap fun hit =>
      paths?.bind fun paths => familyExport? names paths resolver path hit.key) = [] := by
    apply List.eq_nil_iff_forall_not_mem.mpr
    intro d hd
    obtain ⟨hit, -, hfact⟩ := List.mem_filterMap.mp (mem_definitionsIn.mp hd)
    obtain ⟨paths, -, hfamily⟩ := Option.bind_eq_some_iff.mp hfact
    rw [familyExport?] at hfamily
    split at hfamily
    · cases hfamily
    · cases hfamily
  have hobjects := definitionsIn_refer (fun hit : KeyHit => typeKeyOf hit.key hit.name) path
    KeyHit.range ((DecoratorMatcher.ofNames names.objectDecorators "class").hits lines w)
  unfold python
  rw [definitionsIn_append, definitionsIn_append, definitionsIn_append, hfamilies, hobjects,
    List.nil_append, List.nil_append]
  -- what is left behind them is an export or nothing
  cases paths? with
  | none => exact List.append_nil _
  | some paths =>
    dsimp only
    split
    · exact List.append_nil _
    · exact List.append_nil _

theorem Packed.definesOnce_python (names : PackedNames) (paths? : Option PackagePaths)
    (typeKeyOf : String → String → String) (resolver : Resolver) (path : Path) (lines : List String)
    (w : Window) :
    DefinesOnce path (definitionsIn (python names paths? typeKeyOf resolver path lines w)) := by
  have hnames : ∀ name ∈ ["register_func"], IsIdentifier name.toList := by decide +kernel
  have hkeyword : IsIdentifier "def".toList := by decide +kernel
  have hranges := DecoratorMatcher.pairwise_range_hits hnames hkeyword lines w
  have hdefined : ∀ (hit : KeyHit) (d : Definition),
      ((paths?.bind fun paths => functionDefinition? paths resolver path hit).bind
        Fact.definition?) = some d → d = ⟨hit.key, path, hit.range⟩ := by
    intro hit d h
    obtain ⟨fact, hfact, hd⟩ := Option.bind_eq_some_iff.mp h
    obtain ⟨paths, -, hfunction⟩ := Option.bind_eq_some_iff.mp hfact
    rw [eq_of_functionDefinition? hfunction] at hd
    exact (Option.some.inj hd).symm
  rw [definitionsIn_python, definitionsIn, List.filterMap_filterMap]
  constructor
  · intro d hd
    obtain ⟨hit, -, hdefines⟩ := List.mem_filterMap.mp hd
    rw [hdefined hit d hdefines]
  · apply hranges.filterMap
    rintro hit hit' hne d hd _ hd' rfl
    exact hne (congrArg Definition.range ((hdefined hit d hd).symm.trans (hdefined hit' d hd')))

theorem Tvm.registers_inFile (file space : String) (pattern : Pattern)
    (hp : pattern.alwaysKeyed = true) (path : Path) (lines : List String) (w : Window) :
    Registers path lines [space ++ "."] (definitionsIn (inFile file space pattern path lines w)) := by
  rw [inFile]
  split
  · rw [definitionsIn_define]
    exact registers_foundInLines hp (space ++ ".") path lines w
  · exact registers_nil

theorem Tvm.definesOnce_extract (paths? : Option PackagePaths) (resolver : Resolver) (path : Path)
    (lines : List String) (w : Window) :
    DefinesOnce path (definitionsIn (extract paths? resolver path lines w)) := by
  rw [extract]
  split
  · rw [definitionsIn_append, definitionsIn_append]
    have hmake := (Packed.registers_native names path lines w).append
      (registers_inFile "api_ir.cc" "make" makePattern rfl path lines w) (by decide)
    exact (hmake.append
      (registers_inFile "api_pass.cc" "ir_pass" passPattern rfl path lines w)
      (by decide)).toDefinesOnce
  · exact Packed.definesOnce_python _ _ _ _ _ _ _
  · exact definesOnce_nil

theorem Dgl.definesOnce_extract (paths? : Option PackagePaths) (resolver : Resolver) (path : Path)
    (lines : List String) (w : Window) :
    DefinesOnce path (definitionsIn (extract paths? resolver path lines w)) := by
  rw [extract]
  split
  · exact (Packed.registers_native names path lines w).toDefinesOnce
  · exact Packed.definesOnce_python _ _ _ _ _ _ _
  · exact definesOnce_nil

theorem Mxnet.definesOnce_extract (path : Path) (lines : List String) (w : Window) :
    DefinesOnce path (definitionsIn (extract path lines w)) := by
  rw [extract]
  split
  · rw [definitionsIn_define]
    exact definesOnce_map _ path (pairwise_range_foundInLines declaration lines w)
  · exact definesOnce_nil

theorem Torch.definesOnce_extract (path : Path) (lines : List String) (w : Window) :
    DefinesOnce path (definitionsIn (extract path lines w)) := by
  have hregistrations : Registers path lines [""] (definitionsIn
      ((registration.foundInLines lines w).map fun found =>
        .define (found.named registration "key") path found.range)) := by
    have hfound := registers_foundInLines (p := registration) rfl "" path lines w
    simp only [String.empty_append] at hfound
    rwa [definitionsIn_define]
  rw [extract]
  split
  · rw [definitionsIn_append]
    split
    · have hbindings := registers_foundInLines (p := binding) rfl "aten:" path lines w
      rw [← definitionsIn_define] at hbindings
      exact (hregistrations.append hbindings (by decide)).toDefinesOnce
    · change DefinesOnce path (definitionsIn _ ++ [])
      rw [List.append_nil]
      exact hregistrations.toDefinesOnce
  · exact definesOnce_nil

theorem Taichi.definesOnce_extract (path : Path) (lines : List String) (w : Window) :
    DefinesOnce path (definitionsIn (extract path lines w)) := by
  rw [extract]
  split
  · have hfunctions := pairwise_range_foundInFile (p := boundFunction)
      (Regex.neverEmpty_seqs_text (by decide)) lines
    have hclasses := pairwise_range_foundInFile (p := boundClass)
      (Regex.neverEmpty_seqs_text (by decide)) lines
    rw [List.flatMap_cons, List.flatMap_singleton, definitionsIn_append, definitionsIn_define,
      definitionsIn_define]
    apply (definesOnce_map _ path hfunctions).append (definesOnce_map _ path hclasses)
    intro d hd hd'
    obtain ⟨a, ha, rfl⟩ := List.mem_map.mp hd
    obtain ⟨b, hb, hsame⟩ := List.mem_map.mp hd'
    -- a function is bound at a dot and a class at a letter
    apply range_ne_of_mem_foundInFile (p := boundFunction) (q := boundClass) rfl rfl rfl rfl
      (by decide) ha hb
    exact (congrArg Definition.range hsame).symm
  · rw [definitionsIn_refer]
    exact definesOnce_nil
  · exact definesOnce_nil

/-- A provider finds definitions of a source at the path of the source, and none of them twice. -/
theorem Provider.definesOnce_extract (p : Provider) (resolver : Resolver) (path : Path)
    (lines : List String) (w : Window) :
    DefinesOnce path (definitionsIn (p.extract resolver path lines w)) := by
  cases p with
  | tvm paths? => exact Tvm.definesOnce_extract paths? resolver path lines w
  | dgl paths? => exact Dgl.definesOnce_extract paths? resolver path lines w
  | mxnet => exact Mxnet.definesOnce_extract path lines w
  | torch => exact Torch.definesOnce_extract path lines w
  | taichi => exact Taichi.definesOnce_extract path lines w
  | noop => exact definesOnce_nil

end CrossIndex
