import CrossIndex.Proofs.Workspace.References

/-!
The order of references. Exports are kept by their modules, and nothing is said about the order in which
these come. Main statement: the references to a key are the same list in whatever order they come; the
references that were filed stand first, and then the uses in the texts, module by module in the order of
the modules, and in each file from its start to its end.
-/

open Std

namespace CrossIndex

namespace Generation

/-- Terms of one module and terms of two modules can be added in any order, when no module is spelt in
two ways. -/
theorem addTerm_comm {a b : Path × String} (hspelt : (a.1 == b.1) = true → a.1 = b.1)
    (table : SortedTable Path (SortedTable String Unit)) :
    addTerm (addTerm table a) b = addTerm (addTerm table b) a := by
  obtain ⟨p, s⟩ := a
  obtain ⟨q, t⟩ := b
  by_cases hpq : (p == q) = true
  · obtain rfl : p = q := hspelt hpq
    -- both terms go into one row, in which they can change places
    have hrow : ((rowOf table p).insert s ()).insert t () =
        ((rowOf table p).insert t ()).insert s () := by
      by_cases hst : s = t
      · rw [hst]
      · apply SortedTable.insert_comm
        exact fun h => hst (LawfulEqOrd.eq_of_compare h).symm
    have htwice : ∀ first second : String,
        addTerm (addTerm table (p, first)) (p, second) =
          table.insert p (((rowOf table p).insert first ()).insert second ()) := by
      intro first second
      rw [addTerm, rowOf_addTerm, if_pos BEq.rfl, addTerm, SortedTable.insert_insert]
    rw [htwice, htwice, hrow]
  · have hqp : ¬(q == p) = true := fun h => hpq (BEq.symm h)
    have hkeys : compare q p ≠ .eq := fun h => hqp (Path.compare_eq_iff.mp h)
    have hq : rowOf (addTerm table (p, s)) q = rowOf table q := by
      rw [rowOf_addTerm, if_neg hqp]
    have hp : rowOf (addTerm table (q, t)) p = rowOf table p := by
      rw [rowOf_addTerm, if_neg hpq]
    calc
      addTerm (addTerm table (p, s)) (q, t)
          = (addTerm table (p, s)).insert q ((rowOf table q).insert t ()) := by rw [addTerm, hq]
      _ = (addTerm table (q, t)).insert p ((rowOf table p).insert s ()) :=
          SortedTable.insert_comm hkeys _ _ _
      _ = addTerm (addTerm table (q, t)) (p, s) := by
          rw [← hp]
          rfl

theorem termTable_perm {terms terms' : List (Path × String)} (h : terms.Perm terms')
    (hspelt : ∀ a ∈ terms, ∀ b ∈ terms, (a.1 == b.1) = true → a.1 = b.1) :
    termTable terms = termTable terms' := by
  change terms.foldl addTerm .empty = terms'.foldl addTerm .empty
  apply h.foldl_eq'
  intro a ha b hb table
  exact addTerm_comm (hspelt a ha b hb) table

/-- The keys of the table are the modules in strictly increasing order. -/
theorem ordered_termTable (terms : List (Path × String)) : (termTable terms).Ordered := by
  change (terms.foldl addTerm .empty).Ordered
  induction terms using List.reverseRecOn with
  | nil => exact SortedTable.ordered_empty
  | append_singleton terms item ih =>
    rw [List.foldl_append]
    exact ih.insert _ _

/-- The generation with the modules of its exports in another order. -/
def listing (g : Generation) (groups : List (Path × List Export)) : Generation :=
  { g with index := { g.index with exposures := ⟨groups⟩ } }

variable {g : Generation} {groups : List (Path × List Export)}

theorem searchTerms_listing (h : groups.Perm g.index.exposures.groups) (key : String) :
    ((g.listing groups).searchTerms key).Perm (g.searchTerms key) := by
  have hexports : (g.listing groups).index.allExports.Perm g.index.allExports :=
    h.flatMap_right _
  have hcovering := hexports.filter fun entry => entry.2.covers key
  exact hcovering.flatMap_right _

theorem findRefs_listing (ho : g.resolver.Ordered) (h : groups.Perm g.index.exposures.groups)
    (tree : FileTree) (key : String) :
    (g.listing groups).findRefs tree key = g.findRefs tree key := by
  have hterms := searchTerms_listing h key
  have htables : termTable ((g.listing groups).searchTerms key) =
      termTable (g.searchTerms key) := by
    apply termTable_perm hterms
    intro a ha b hb
    exact module_eq_of_mem_searchTerms ho (hterms.mem_iff.mp ha) (hterms.mem_iff.mp hb)
  rw [findRefs, htables]
  rfl

theorem textualRefs_pairwise (tree : FileTree) (key : String) (module : Path)
    (terms : List String) :
    (textualRefs tree key module terms).Pairwise fun a b => a.range.Precedes b.range := by
  rw [textualRefs]
  split
  · exact List.Pairwise.nil
  · next source _ =>
    rw [List.pairwise_map]
    exact Python.findTokens_pairwise source.lines terms

theorem eq_of_mem_textualRefs {tree : FileTree} {key : String} {module : Path}
    {terms : List String} {r : Reference} (h : r ∈ textualRefs tree key module terms) :
    r.key = key ∧ r.path = sourceFile module := by
  rw [textualRefs] at h
  split at h
  · cases h
  · obtain ⟨range, -, rfl⟩ := List.mem_map.mp h
    exact ⟨rfl, rfl⟩

/-- The references to a key come in one order, whatever the order of the modules with exports: those
that were filed in the order in which the scan found them, and then those in the texts of the modules
with terms for the key, each module once and all in the order of their paths. In the text of a module
the references come one behind the other, and no two of them overlap. -/
theorem findRefs_grouped (root : Path) (dialects : List Dialect) (sources : List Source)
    {groups : List (Path × List Export)}
    (h : groups.Perm (ofSources root dialects sources).index.exposures.groups) (tree : FileTree)
    (key : String) :
    let g := ofSources root dialects sources
    let facts := sources.flatMap fun source =>
      g.registry.extract g.resolver source.path source.lines .all
    (g.listing groups).findRefs tree key = g.findRefs tree key ∧
      ∃ rows : List (Path × List String),
        g.findRefs tree key =
          ((facts.filterMap Fact.referenceRow?).filter (·.1 == key)).map Prod.snd ++
            rows.flatMap (fun row => textualRefs tree key row.1 row.2) ∧
        (rows.Pairwise fun a b => compare a.1 b.1 = .lt) ∧
        (∀ module term, (∃ row ∈ rows, row.1 = module ∧ term ∈ row.2) ↔
          (module, term) ∈ g.searchTerms key) ∧
        ∀ row ∈ rows,
          (∃ i ∈ g.resolver.imports, i.importer = row.1) ∧
          (row.2.Pairwise fun s t => compare s t = .lt) ∧
          (∀ r ∈ textualRefs tree key row.1 row.2, r.key = key ∧ r.path = sourceFile row.1) ∧
          (textualRefs tree key row.1 row.2).Pairwise fun a b => a.range.Precedes b.range := by
  intro g facts
  have ho : g.resolver.Ordered := ordered_resolver root dialects sources
  refine ⟨findRefs_listing ho h tree key, ?_⟩
  have hc := collects_termTable (g.searchTerms key)
  have htable := ordered_termTable (g.searchTerms key)
  have hget : ∀ entry ∈ (termTable (g.searchTerms key)).entries,
      rowOf (termTable (g.searchTerms key)) entry.1 = entry.2 := by
    intro entry hentry
    rw [rowOf, htable.get?_of_mem hentry, Option.getD_some]
  -- the row of a module holds just its terms
  have hrow : ∀ entry ∈ (termTable (g.searchTerms key)).entries, ∀ term,
      term ∈ entry.2.keys ↔ (entry.1, term) ∈ g.searchTerms key := by
    intro entry hentry term
    obtain ⟨other, hother⟩ := hc.spelt entry hentry
    rw [← hget entry hentry, hc.rows]
    constructor
    · rintro ⟨module, hmem, hsame⟩
      rwa [module_eq_of_mem_searchTerms ho hother hmem hsame]
    · exact fun hmem => ⟨entry.1, hmem, BEq.rfl⟩
  refine ⟨(termTable (g.searchTerms key)).entries.map fun entry => (entry.1, entry.2.keys),
    ?_, ?_, ?_, ?_⟩
  · have hfiled : g.index.refs key =
        ((facts.filterMap Fact.referenceRow?).filter (·.1 == key)).map Prod.snd := by
      rw [← Index.refs_insertAll facts key]
      rfl
    rw [findRefs, hfiled, List.flatMap_map]
    rfl
  · rw [List.pairwise_map]
    exact htable
  · intro module term
    constructor
    · rintro ⟨row, hmem, rfl, hterm⟩
      obtain ⟨entry, hentry, rfl⟩ := List.mem_map.mp hmem
      exact (hrow entry hentry term).mp hterm
    · intro hmem
      obtain ⟨entry, hentry, hsame, -⟩ := hc.exists_row hmem
      obtain ⟨other, hother⟩ := hc.spelt entry hentry
      obtain rfl : module = entry.1 := module_eq_of_mem_searchTerms ho hmem hother hsame
      exact ⟨_, List.mem_map.mpr ⟨entry, hentry, rfl⟩, rfl, (hrow entry hentry term).mpr hmem⟩
  · intro row hmem
    obtain ⟨entry, hentry, rfl⟩ := List.mem_map.mp hmem
    refine ⟨?_, ?_, fun r hr => eq_of_mem_textualRefs hr, textualRefs_pairwise _ _ _ _⟩
    · obtain ⟨other, hother⟩ := hc.spelt entry hentry
      obtain ⟨-, -, -, -, i, hi, himporter, -⟩ := mem_searchTerms.mp hother
      exact ⟨i, hi, himporter⟩
    · have hordered := hc.ordered entry.1
      rw [hget entry hentry] at hordered
      exact List.pairwise_map.mpr hordered

/-- The text of a module that binds a name of each of two others. -/
def usingLines : List String :=
  ["from .first import lower as step", "from . import second", "second.lower(step(1))"]

/-- The tree that holds this text. -/
def usingTree : FileTree :=
  FileTree.empty.write ["r", "python", "tvm", "use.py"]
    (usingLines.flatMap fun line => Text.encodeUtf8 (line ++ "\n"))

/-- Two modules that expose one family, the module that has bound a name of each, and a native use. -/
def exposingSources : List Source :=
  [⟨.ofString "/r/python/tvm/__init__.py", []⟩,
    ⟨.ofString "/r/python/tvm/first.py",
      ["from ._ffi.function import _init_api", "_init_api(\"relay\")"]⟩,
    ⟨.ofString "/r/python/tvm/second.py",
      ["from ._ffi.function import _init_api", "_init_api(\"relay\", __name__)"]⟩,
    ⟨.ofString "/r/python/tvm/use.py", usingLines⟩,
    ⟨.ofString "/r/src/use.cc", ["auto f = GetPackedFunc(\"relay.lower\");"]⟩]

theorem findTokens_usingLines :
    Python.findTokens usingLines ["second.lower", "step"] =
      [.onLine 0 28 32, .onLine 2 0 12, .onLine 2 13 17] := by
  have hsorted : (["second.lower", "step"].filter (· ≠ "")).Pairwise fun a b =>
      decide (b.utf8ByteSize ≤ a.utf8ByteSize) = true := by
    decide
  have horder : Python.searchOrder ["second.lower", "step"] =
      ["second.lower".toList, "step".toList] := by
    rw [Python.searchOrder, List.mergeSort_of_pairwise hsorted]
    rfl
  rw [Python.findTokens, horder]
  decide +kernel

theorem findRefs_usingTree :
    (ofSources (.ofString "/r") [.tvm] exposingSources).findRefs usingTree "relay.lower" =
      [⟨"relay.lower", .ofString "/r/src/use.cc", .onLine 0 24 35⟩,
        ⟨"relay.lower", .ofString "/r/python/tvm/use.py", .onLine 0 28 32⟩,
        ⟨"relay.lower", .ofString "/r/python/tvm/use.py", .onLine 2 0 12⟩,
        ⟨"relay.lower", .ofString "/r/python/tvm/use.py", .onLine 2 13 17⟩] := by
  have hrefs : (ofSources (.ofString "/r") [.tvm] exposingSources).index.refs "relay.lower" =
      [⟨"relay.lower", .ofString "/r/src/use.cc", .onLine 0 24 35⟩] := by
    decide +kernel
  have hrows : (termTable ((ofSources (.ofString "/r") [.tvm] exposingSources).searchTerms
      "relay.lower")).entries.map (fun entry => (entry.1, entry.2.entries.map Prod.fst)) =
        [(.ofString "/r/python/tvm/use", ["second.lower", "step"])] := by
    decide +kernel
  have htext : (source? usingTree (sourceFile (.ofString "/r/python/tvm/use"))).map Source.lines =
      some usingLines := by
    decide +kernel
  obtain ⟨source, hsource, hlines⟩ := Option.map_eq_some_iff.mp htext
  have hhits : textualRefs usingTree "relay.lower" (.ofString "/r/python/tvm/use")
      ["second.lower", "step"] =
        [.onLine 0 28 32, .onLine 2 0 12, .onLine 2 13 17].map fun range =>
          ⟨"relay.lower", .ofString "/r/python/tvm/use.py", range⟩ := by
    have hfile : sourceFile (.ofString "/r/python/tvm/use") = .ofString "/r/python/tvm/use.py" := by
      decide +kernel
    rw [textualRefs, hsource, ← findTokens_usingLines, ← hlines, ← hfile]
  rw [findRefs, hrefs]
  generalize (termTable _).entries = rows at hrows
  have hfound := congrArg (List.flatMap fun row : Path × List String =>
    textualRefs usingTree "relay.lower" row.1 row.2) hrows
  rw [List.flatMap_map, List.flatMap_singleton, hhits] at hfound
  exact congrArg (_ :: ·) hfound

theorem findRefs_grouped_exposingSources :
    let g := ofSources (.ofString "/r") [.tvm] exposingSources
    g.index.exposures.groups.reverse.Perm g.index.exposures.groups ∧
      g.index.exposures.groups.map (fun group => group.1.toString) =
        ["/r/python/tvm/first", "/r/python/tvm/second"] ∧
      (∀ tree, (g.listing g.index.exposures.groups.reverse).findRefs tree "relay.lower" =
        g.findRefs tree "relay.lower") ∧
      g.findRefs usingTree "relay.lower" =
        [⟨"relay.lower", .ofString "/r/src/use.cc", .onLine 0 24 35⟩,
          ⟨"relay.lower", .ofString "/r/python/tvm/use.py", .onLine 0 28 32⟩,
          ⟨"relay.lower", .ofString "/r/python/tvm/use.py", .onLine 2 0 12⟩,
          ⟨"relay.lower", .ofString "/r/python/tvm/use.py", .onLine 2 13 17⟩] :=
  ⟨List.reverse_perm _, by decide +kernel, fun tree =>
    (findRefs_grouped (.ofString "/r") [.tvm] exposingSources (List.reverse_perm _) tree
      "relay.lower").1, findRefs_usingTree⟩

end Generation

end CrossIndex
