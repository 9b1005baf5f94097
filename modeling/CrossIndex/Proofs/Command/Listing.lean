import CrossIndex.Command.Basic
import CrossIndex.Proofs.Dialect.Definitions
import CrossIndex.Proofs.Location
import CrossIndex.Proofs.Scan.Files
import CrossIndex.Proofs.Workspace.Recorded
import CrossIndex.Proofs.Workspace.Run
import Mathlib.Data.List.Pairwise

/-!
What answers list. Definitions are filed as often as they are found, once for each provider that finds
them. Main statement: queries and commands list no location twice, but for the definitions of an
expression, which are listed just as often as they have been filed.
-/

namespace CrossIndex

theorem eq_ok_of_mapError {ε δ α : Type} {x : Except ε α} {f : ε → δ} {a : α}
    (h : x.mapError f = .ok a) : x = .ok a := by
  cases x with
  | error e => cases h
  | ok b => exact congrArg Except.ok (Except.ok.inj h)

/-- An item that no part has twice comes as often as there are parts that have it. -/
theorem count_flatMap_of_le_one {ι α : Type} [DecidableEq α] {parts : List ι} {f : ι → List α} {a : α}
    (h : ∀ part ∈ parts, (f part).count a ≤ 1) :
    (parts.flatMap f).count a = parts.countP fun part => decide (a ∈ f part) := by
  induction parts with
  | nil => rfl
  | cons part parts ih =>
    have hpart := h part List.mem_cons_self
    rw [List.flatMap_cons, List.count_append, List.countP_cons,
      ih fun other hother => h other (List.mem_cons_of_mem _ hother)]
    by_cases hmem : a ∈ f part
    · have hpos := List.count_pos_iff.mpr hmem
      rw [if_pos (decide_eq_true hmem)]
      omega
    · rw [List.count_eq_zero.mpr hmem, if_neg (by simpa using hmem), Nat.zero_add, Nat.add_zero]

/-! ### Definitions as they are filed -/

theorem count_definitionsIn (facts : List Fact) (d : Definition) :
    (definitionsIn facts).count d = facts.count (.definition d) := by
  rw [definitionsIn, List.count, List.count, List.countP_filterMap]
  apply List.countP_congr
  intro fact _
  cases fact <;> simp [Fact.definition?]

/-- A key has the definitions that were found with it, as often as they were found. -/
theorem Index.count_defs {facts : List Fact} {key : String} {d : Definition}
    (hd : d ∈ (empty.insertAll facts).defs key) :
    .definition d ∈ facts ∧
      ((empty.insertAll facts).defs key).count d = facts.count (.definition d) := by
  have hfiled : (empty.insertAll facts).defs key =
      (definitionsIn (facts.filter accepts)).filter fun d => d.key == key := by
    rw [insertAll_empty]
    exact GroupTable.get_ofValues Definition.key _ key
  rw [hfiled] at hd ⊢
  have hkeyed := List.mem_filter.mp hd
  have haccepted := List.mem_filter.mp (mem_definitionsIn.mp hkeyed.1)
  refine ⟨haccepted.1, ?_⟩
  calc
    _ = (definitionsIn (facts.filter accepts)).count d := List.count_filter hkeyed.2
    _ = (facts.filter accepts).count (.definition d) := count_definitionsIn _ d
    _ = facts.count (.definition d) := List.count_filter haccepted.2

variable {resolver : Resolver} {path : Path} {lines : List String} {w : Window} {d : Definition}

/-- Each provider finds a definition once, if at all. -/
theorem Registry.count_extract (r : Registry) :
    (r.extract resolver path lines w).count (.definition d) =
      r.providers.countP fun p => decide (.definition d ∈ p.extract resolver path lines w) := by
  apply count_flatMap_of_le_one
  intro p _
  rw [← count_definitionsIn]
  exact List.nodup_iff_count_le_one.mp (p.definesOnce_extract resolver path lines w).nodup d

theorem Registry.path_of_mem_extract {r : Registry}
    (h : .definition d ∈ r.extract resolver path lines w) : d.path = path := by
  obtain ⟨p, -, hp⟩ := List.mem_flatMap.mp h
  exact (p.definesOnce_extract resolver path lines w).path_eq d (mem_definitionsIn.mpr hp)

namespace Generation

/-- The number of providers that find a definition in the source at its path. -/
def finders (g : Generation) (tree : FileTree) (d : Definition) : Nat :=
  g.registry.providers.countP fun p => (source? tree d.path).any fun source =>
    decide (.definition d ∈ p.extract g.resolver source.path source.lines .all)

/-- The sources have been read where they are, and are at different paths. -/
structure AreRead (tree : FileTree) (sources : List Source) : Prop where
  source? : ∀ source ∈ sources, Generation.source? tree source.path = some source
  differ : sources.Pairwise fun a b => (a.path == b.path) = false

theorem AreRead.eq_of_path {tree : FileTree} {sources : List Source} (hr : AreRead tree sources)
    {a b : Source} (ha : a ∈ sources) (hb : b ∈ sources) (h : (a.path == b.path) = true) : a = b := by
  have : Std.Symm fun a b : Source => (a.path == b.path) = false := ⟨fun _ _ => BEq.comm.trans⟩
  by_contra hne
  rw [hr.differ.forall ha hb hne] at h
  cases h

theorem path_of_source? {tree : FileTree} {path : Path} {source : Source}
    (h : source? tree path = some source) : source.path = path := by
  obtain ⟨text, -, rfl⟩ := Option.map_eq_some_iff.mp h
  rfl

/-- The index of a generation that was built holds the facts of the sources that were read. -/
theorem exists_read_of_build {tree : FileTree} {plan : Plan} {g : Generation}
    (h : build tree plan = .ok g) :
    ∃ sources, AreRead tree sources ∧
      g.index = .insertAll .empty (sources.flatMap fun source =>
        g.registry.extract g.resolver source.path source.lines .all) := by
  obtain ⟨files, hfiles, hg⟩ := exists_of_bind h
  cases hg
  obtain ⟨found, -, hfound⟩ := exists_of_bind hfiles
  cases hfound
  refine ⟨_, ⟨?_, ?_⟩, ofSources_index _ _ _⟩
  · intro source hmem
    obtain ⟨path, -, hsource⟩ := List.mem_filterMap.mp hmem
    rw [path_of_source? hsource, hsource]
  · apply (firstOccurrences_pairwise id _).filterMap
    intro path path' hdiffer source hsource source' hsource'
    rw [path_of_source? hsource, path_of_source? hsource']
    exact BEq.comm.trans hdiffer

/-- A definition is found in the source at its path alone. -/
theorem count_flatMap_extract {r : Registry} {sources : List Source} {source : Source}
    (hdiffer : sources.Pairwise fun a b => (a.path == b.path) = false) (hmem : source ∈ sources)
    (hpath : source.path = d.path) :
    (sources.flatMap fun source => r.extract resolver source.path source.lines .all).count
        (.definition d) =
      (r.extract resolver source.path source.lines .all).count (.definition d) := by
  have helsewhere : ∀ others : List Source,
      (∀ other ∈ others, (source.path == other.path) = false) →
        (others.flatMap fun other => r.extract resolver other.path other.lines .all).count
          (.definition d) = 0 := by
    intro others hothers
    apply List.count_eq_zero.mpr
    intro hfound
    obtain ⟨other, hother, hextract⟩ := List.mem_flatMap.mp hfound
    have hdiffers := hothers other hother
    rw [hpath, Registry.path_of_mem_extract hextract, BEq.rfl] at hdiffers
    cases hdiffers
  obtain ⟨before, after, rfl⟩ := List.append_of_mem hmem
  obtain ⟨-, hrest, hbefore⟩ := List.pairwise_append.mp hdiffer
  have hafter := (List.pairwise_cons.mp hrest).1
  rw [List.flatMap_append, List.flatMap_cons, List.count_append, List.count_append,
    helsewhere before fun other hother =>
      BEq.comm.trans (hbefore other hother source List.mem_cons_self),
    helsewhere after hafter, Nat.zero_add, Nat.add_zero]

variable {tree : FileTree} {plan : Plan} {g : Generation} {key : String}

/-- A key has a definition as often as there are providers that find it. -/
theorem count_defs (h : build tree plan = .ok g) (hd : d ∈ g.index.defs key) :
    (g.index.defs key).count d = g.finders tree d := by
  obtain ⟨sources, hread, hindex⟩ := exists_read_of_build h
  rw [hindex] at hd ⊢
  obtain ⟨hmem, hcount⟩ := Index.count_defs hd
  obtain ⟨source, hsource, hextract⟩ := List.mem_flatMap.mp hmem
  have hpath := (Registry.path_of_mem_extract hextract).symm
  have hsame := hread.source? source hsource
  rw [hpath] at hsame
  rw [hcount, count_flatMap_extract hread.differ hsource hpath, Registry.count_extract, finders,
    hsame]
  rfl

/-- Of the definitions of one key different ones are at different locations. -/
theorem eq_of_ofDefinition (h : build tree plan = .ok g) (hd : d ∈ g.index.defs key)
    {d' : Definition} (hd' : d' ∈ g.index.defs key)
    (hsame : (Location.ofDefinition d' == .ofDefinition d) = true) : d' = d := by
  obtain ⟨sources, hread, hindex⟩ := exists_read_of_build h
  rw [hindex] at hd hd'
  obtain ⟨source, hsource, hextract⟩ := List.mem_flatMap.mp (Index.count_defs hd).1
  obtain ⟨source', hsource', hextract'⟩ := List.mem_flatMap.mp (Index.count_defs hd').1
  obtain ⟨hcomponents, hrange⟩ := (Location.beq_iff _ _).mp hsame
  -- both have been found in the one source at their path
  have hpath : d'.path = d.path := by
    have hsources : (source'.path == source.path) = true := by
      rw [← Registry.path_of_mem_extract hextract, ← Registry.path_of_mem_extract hextract']
      exact (Path.beq_iff _ _).mpr hcomponents
    rw [Registry.path_of_mem_extract hextract, Registry.path_of_mem_extract hextract',
      hread.eq_of_path hsource' hsource hsources]
  have hkey : d'.key = d.key := (Index.key_of_mem_defs hd').trans (Index.key_of_mem_defs hd).symm
  calc
    d' = ⟨d'.key, d'.path, d'.range⟩ := rfl
    _ = ⟨d.key, d.path, d.range⟩ := by rw [hkey, hpath, show d'.range = d.range from hrange]
    _ = d := rfl

end Generation

/-! ### Queries -/

namespace Query

variable (tree : FileTree) (path : Path) (lines : List String) (cursor : Position)

theorem always_definitionsAt :
    (definitionsAt tree path lines cursor).Always Location.ListedOnce := by
  apply Always.bind
  rintro (_ | (d | r | e | value))
  · exact Location.listedOnce_dedup _
  · exact .bind _ fun _ => Location.listedOnce_dedup _
  · exact .bind _ fun _ => Location.listedOnce_dedup _
  · exact Location.listedOnce_dedup _
  · exact .bind _ fun _ => Location.listedOnce_dedup _

theorem always_referencesAt :
    (referencesAt tree path lines cursor).Always Location.ListedOnce :=
  .bind _ fun _ => .bind _ fun _ => Location.listedOnce_dedup _

end Query

/-! ### Commands -/

/-- The locations that an answer lists, in order. -/
def Answer.listed : Answer → List Location
  | stats _ => []
  | definitions _ found => found.map .ofDefinition
  | references _ found => found.map .ofReference
  | report r => r.locations

namespace Generation

variable {tree : FileTree} {root : Path} {g : Generation} {d : Definition}

theorem exists_build_of_ofRoot (h : ofRoot tree root = .ok g) :
    ∃ plan, build tree plan = .ok g := by
  obtain ⟨plan, -, hbuild⟩ := exists_of_bind h
  exact ⟨plan, eq_ok_of_mapError hbuild⟩

/-- The definitions of an expression are those of one key. -/
theorem exists_defs_of_mem_findDefs {path : Path} {expression : String}
    (hd : d ∈ g.findDefs path expression) :
    ∃ key, g.findDefs path expression = g.index.defs key := by
  rw [findDefs] at hd ⊢
  split at hd
  · cases hd
  · next module name _ =>
    obtain ⟨source, -, e, -, hdefs⟩ := exists_export_of_mem_definitionsOf hd
    exact ⟨e.keyOf name, hdefs⟩

/-- The definitions of an expression are listed as often as there are providers that find them. -/
theorem countP_findDefs (h : ofRoot tree root = .ok g) {path : Path} {expression : String}
    (hd : d ∈ g.findDefs path expression) :
    ((g.findDefs path expression).map Location.ofDefinition).countP (· == .ofDefinition d) =
      g.finders tree d := by
  obtain ⟨plan, hbuild⟩ := exists_build_of_ofRoot h
  obtain ⟨key, hkey⟩ := exists_defs_of_mem_findDefs hd
  rw [hkey] at hd ⊢
  rw [List.countP_map, ← count_defs hbuild hd, List.count]
  apply List.countP_congr
  intro d' hd'
  rw [Function.comp_apply]
  constructor
  · intro hsame
    rw [eq_of_ofDefinition hbuild hd hd' hsame, BEq.rfl]
  · intro hsame
    rw [eq_of_beq hsame, BEq.rfl]

end Generation

namespace Command

open Location (ListedOnce)

variable {tree : FileTree} {root : Path} {g : Generation} {question : Question} {answer : Answer}

/-- Of all answers those alone that give the definitions of an expression are not thinned out. -/
theorem listed_of_ask (h : ask tree root g question = .ok answer) :
    ((∀ expression found, answer ≠ .definitions expression found) → ListedOnce answer.listed) ∧
      ∀ expression found, answer = .definitions expression found →
        ∃ path, found = g.findDefs path expression := by
  cases question with
  | stats =>
    cases h
    exact ⟨fun _ => .nil, fun _ _ hanswer => by cases hanswer⟩
  | definitions file expression =>
    obtain ⟨path, -, hfound⟩ := exists_of_bind h
    cases hfound
    constructor
    · intro hnone
      exact absurd rfl (hnone _ _)
    · intro expression found hanswer
      cases hanswer
      exact ⟨Query.queryPath tree path, rfl⟩
  | references key =>
    cases h
    refine ⟨fun _ => ?_, fun _ _ hanswer => by cases hanswer⟩
    rw [Answer.listed, Location.uniqueReferences, map_firstOccurrences]
    exact Location.listedOnce_dedup _
  | lookup file cursor references =>
    obtain ⟨path, -, hread⟩ := exists_of_bind h
    split at hread
    · cases hread
    · next text _ =>
      cases hread
      refine ⟨fun _ => ?_, fun _ _ hanswer => by cases hanswer⟩
      cases references with
      | true => exact (Query.always_referencesAt tree path (Text.lines text) cursor).against g
      | false => exact (Query.always_definitionsAt tree path (Text.lines text) cursor).against g

/-- Whatever a query at a cursor sees, its answer lists no location twice. A command that gives an
answer lists none twice either, but for the definitions of an expression: these are listed as often as
there are providers that find them, and so each once just when every one has a single provider. -/
theorem listed_of_run (tree : FileTree) :
    (∀ path lines cursor,
      (Query.definitionsAt tree path lines cursor).Always ListedOnce ∧
        (Query.referencesAt tree path lines cursor).Always ListedOnce) ∧
    ∀ (c : Command) (output : String), c.run tree = .ok output →
      ∃ g answer, Generation.ofRoot tree c.root = .ok g ∧
        ask tree c.root g c.question = .ok answer ∧ output = answer.render c.format ∧
          ((∀ expression found, answer ≠ .definitions expression found) → ListedOnce answer.listed) ∧
          ∀ expression found, answer = .definitions expression found →
            (∀ d ∈ found, answer.listed.countP (· == .ofDefinition d) = g.finders tree d) ∧
              (ListedOnce answer.listed ↔ ∀ d ∈ found, g.finders tree d = 1) := by
  refine ⟨fun path lines cursor => ⟨Query.always_definitionsAt tree path lines cursor,
    Query.always_referencesAt tree path lines cursor⟩, ?_⟩
  intro c output h
  obtain ⟨g, hg, hmore⟩ := exists_of_bind h
  obtain ⟨answer, hanswer, houtput⟩ := exists_of_bind hmore
  cases houtput
  have hroot := eq_ok_of_mapError hg
  obtain ⟨honce, hdefinitions⟩ := listed_of_ask hanswer
  refine ⟨g, answer, hroot, hanswer, rfl, honce, ?_⟩
  rintro expression found rfl
  obtain ⟨path, rfl⟩ := hdefinitions expression found rfl
  have hcount : ∀ d ∈ g.findDefs path expression,
      (Answer.definitions expression (g.findDefs path expression)).listed.countP
        (· == .ofDefinition d) = g.finders tree d :=
    fun d hd => Generation.countP_findDefs hroot hd
  refine ⟨hcount, ?_⟩
  rw [Location.listedOnce_iff_countP]
  -- each listed location is that of a definition
  constructor
  · intro honce d hd
    rw [← hcount d hd, honce _ (List.mem_map_of_mem hd)]
  · intro hfinders l hl
    obtain ⟨d, hd, rfl⟩ := List.mem_map.mp hl
    rw [hcount d hd, hfinders d hd]

/-! ### A dialect that is enabled twice -/

/-- A package with a function that it registers, below settings that enable its dialect twice. -/
def loweringTree : FileTree :=
  (FileTree.empty.write [Settings.fileName]
      "[dialects]\nenabled = [\"tvm\", \"tvm\"]\n".toUTF8.toList).write
    ["python", "tvm", "__init__.py"]
    ("from ._ffi.function import _init_api, register_func\n"
      ++ "_init_api(\"relay\")\n"
      ++ "@register_func(\"relay.lower\")\n"
      ++ "def lower(f):\n").toUTF8.toList

/-- Asks where the function is defined. -/
def lowerDefinitions : Command :=
  ⟨.ofString "/", .definitions (.ofString "python/tvm/__init__.py") "lower", .text⟩

def lowerPlace : Location := ⟨.ofString "/python/tvm/__init__.py", .onLine 2 16 27⟩

def lowerLine : String := "/python/tvm/__init__.py:3:17  relay.lower\n"

theorem exists_lowerDefinitions :
    ∃ g answer, Generation.ofRoot loweringTree lowerDefinitions.root = .ok g ∧
      ask loweringTree lowerDefinitions.root g lowerDefinitions.question = .ok answer ∧
        lowerDefinitions.run loweringTree = .ok (lowerLine ++ lowerLine) ∧
          answer.listed = [lowerPlace, lowerPlace] := by
  have hevaluated :
      ((Generation.ofRoot loweringTree lowerDefinitions.root).toOption.bind fun g =>
        (ask loweringTree lowerDefinitions.root g lowerDefinitions.question).toOption).map
          (fun answer => (answer.listed, answer.render .text)) =
        some ([lowerPlace, lowerPlace], lowerLine ++ lowerLine) := by
    decide +kernel
  obtain ⟨answer, hboth, hlisted⟩ := Option.map_eq_some_iff.mp hevaluated
  obtain ⟨g, hg, hanswer⟩ := Option.bind_eq_some_iff.mp hboth
  have hscanned := eq_ok_of_toOption hg
  have hasked := eq_ok_of_toOption hanswer
  refine ⟨g, answer, hscanned, hasked, ?_, congrArg Prod.fst hlisted⟩
  calc
    lowerDefinitions.run loweringTree =
        (ask loweringTree lowerDefinitions.root g lowerDefinitions.question).bind fun answer =>
          .ok (answer.render .text) := by
      rw [run, hscanned]
      rfl
    _ = .ok (answer.render .text) := by
      rw [hasked]
      rfl
    _ = .ok (lowerLine ++ lowerLine) := congrArg (fun entry => Except.ok entry.2) hlisted

theorem listed_of_run_enabledTwice :
    (∀ path lines cursor (w : Workspace),
      ListedOnce ((Query.definitionsAt loweringTree path lines cursor).run loweringTree w).1) ∧
    ∃ g answer found,
      ask loweringTree lowerDefinitions.root g lowerDefinitions.question = .ok answer ∧
        answer = .definitions "lower" found ∧ answer.listed = [lowerPlace, lowerPlace] ∧
          ∀ d ∈ found, g.finders loweringTree d = 2 := by
  obtain ⟨hqueries, hcommands⟩ := listed_of_run loweringTree
  refine ⟨fun path lines cursor w => (hqueries path lines cursor).1.run loweringTree w, ?_⟩
  obtain ⟨g, answer, hg, hasked, hrun, hlisted⟩ := exists_lowerDefinitions
  obtain ⟨g', answer', hg', hasked', -, -, hdefinitions⟩ := hcommands _ _ hrun
  cases hg.symm.trans hg'
  cases hasked.symm.trans hasked'
  obtain ⟨path, -, hfound⟩ := exists_of_bind hasked
  cases hfound
  refine ⟨g, _, _, hasked, rfl, hlisted, ?_⟩
  intro d hd
  have hplace : Location.ofDefinition d ∈ [lowerPlace, lowerPlace] :=
    hlisted ▸ List.mem_map_of_mem hd
  have hsame : Location.ofDefinition d = lowerPlace := by simpa using hplace
  -- the place is listed twice, so that two providers have found it
  rw [← (hdefinitions _ _ rfl).1 d hd, hlisted, hsame]
  decide

/-- A command lists a place twice when a dialect is enabled twice. -/
theorem lowerDefinitions_placeTwice :
    ∃ g answer, Generation.ofRoot loweringTree lowerDefinitions.root = .ok g ∧
      ask loweringTree lowerDefinitions.root g lowerDefinitions.question = .ok answer ∧
        lowerDefinitions.run loweringTree = .ok (lowerLine ++ lowerLine) ∧
          ¬ListedOnce answer.listed := by
  obtain ⟨g, answer, hg, hasked, hrun, hlisted⟩ := exists_lowerDefinitions
  refine ⟨g, answer, hg, hasked, hrun, ?_⟩
  rw [hlisted, Location.listedOnce_iff_countP]
  decide

end Command

end CrossIndex
