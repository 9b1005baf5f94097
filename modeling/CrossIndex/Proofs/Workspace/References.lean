import CrossIndex.Proofs.Python.Tokens
import CrossIndex.Proofs.Workspace.Recorded
import Mathlib.Data.List.Induction

/-!
References through imports. The search for references collects terms by the modules that write them,
and then looks for the terms in the files of those modules. Main statements: the terms of a module are
collected in one row, and what is found in its file for that row is among the references.
-/

open Std

namespace CrossIndex

namespace Generation

/-- The terms collected for a module. -/
def rowOf (table : SortedTable Path (SortedTable String Unit)) (module : Path) :
    SortedTable String Unit := (table.get? module).getD .empty

def addTerm (table : SortedTable Path (SortedTable String Unit)) (item : Path × String) :
    SortedTable Path (SortedTable String Unit) :=
  table.insert item.1 ((rowOf table item.1).insert item.2 ())

/-- The table holds the terms by modules. -/
structure Collects (table : SortedTable Path (SortedTable String Unit))
    (terms : List (Path × String)) : Prop where
  spelt : ∀ entry ∈ table.entries, ∃ term, (entry.1, term) ∈ terms
  ordered : ∀ module, (rowOf table module).Ordered
  rows : ∀ module term, term ∈ (rowOf table module).keys ↔
    ∃ other, (other, term) ∈ terms ∧ (module == other) = true

variable {table : SortedTable Path (SortedTable String Unit)} {terms : List (Path × String)}

theorem collects_empty : Collects .empty [] :=
  ⟨fun _ h => (List.not_mem_nil h).elim, fun _ => SortedTable.ordered_empty,
    fun _ _ => ⟨fun h => (List.not_mem_nil h).elim, fun ⟨_, h, _⟩ => (List.not_mem_nil h).elim⟩⟩

theorem rowOf_addTerm (item : Path × String) (module : Path) :
    rowOf (addTerm table item) module =
      if (module == item.1) = true then (rowOf table module).insert item.2 ()
      else rowOf table module := by
  rw [rowOf, addTerm, SortedTable.get?_insert]
  by_cases h : (module == item.1) = true
  · have hsame : rowOf table module = rowOf table item.1 := by
      rw [rowOf, SortedTable.get?_congr (Path.compare_eq_iff.mpr h), rowOf]
    rw [if_pos h, if_pos (Path.compare_eq_iff.mpr h), hsame, Option.getD_some]
  · rw [if_neg h, if_neg fun hc => h (Path.compare_eq_iff.mp hc), rowOf]

theorem Collects.add (h : Collects table terms) (item : Path × String) :
    Collects (addTerm table item) (terms ++ [item]) := by
  obtain ⟨added, new⟩ := item
  constructor
  case spelt =>
    intro entry hmem
    rcases SortedTable.key_of_mem_insert hmem with hkey | ⟨old, hold, hsame⟩
    · exact ⟨new, List.mem_append_right _ (by rw [hkey]; exact List.mem_singleton_self _)⟩
    · obtain ⟨term, hterm⟩ := h.spelt old hold
      exact ⟨term, List.mem_append_left _ (hsame ▸ hterm)⟩
  case ordered =>
    intro module
    rw [rowOf_addTerm]
    split
    · exact (h.ordered module).insert _ _
    · exact h.ordered module
  case rows =>
    intro module term
    have hrow := h.rows module term
    rw [SortedTable.mem_keys_iff] at hrow ⊢
    rw [rowOf_addTerm]
    by_cases hm : (module == added) = true
    · rw [if_pos hm, SortedTable.contains_insert, Bool.or_eq_true, beq_iff_eq,
        LawfulEqOrd.compare_eq_iff_eq, hrow]
      constructor
      · rintro (rfl | ⟨other, hmem, hsame⟩)
        · exact ⟨added, List.mem_append_right _ (List.mem_singleton_self _), hm⟩
        · exact ⟨other, List.mem_append_left _ hmem, hsame⟩
      · rintro ⟨other, hmem, hsame⟩
        rcases List.mem_append.mp hmem with hold | hnew
        · exact Or.inr ⟨other, hold, hsame⟩
        · cases List.mem_singleton.mp hnew
          exact Or.inl rfl
    · rw [if_neg hm, hrow]
      constructor
      · rintro ⟨other, hmem, hsame⟩
        exact ⟨other, List.mem_append_left _ hmem, hsame⟩
      · rintro ⟨other, hmem, hsame⟩
        rcases List.mem_append.mp hmem with hold | hnew
        · exact ⟨other, hold, hsame⟩
        · cases List.mem_singleton.mp hnew
          exact absurd hsame hm

/-- All terms have been collected in the end. -/
theorem collects_termTable (terms : List (Path × String)) : Collects (termTable terms) terms := by
  change Collects (terms.foldl addTerm .empty) terms
  induction terms using List.reverseRecOn with
  | nil => exact collects_empty
  | append_singleton terms item ih =>
    rw [List.foldl_append]
    exact ih.add item

/-- A module with a term has a row of its own, which holds all its terms. -/
theorem Collects.exists_row (h : Collects table terms) {module : Path} {term : String}
    (hmem : (module, term) ∈ terms) :
    ∃ entry ∈ table.entries, (module == entry.1) = true ∧ entry.2 = rowOf table module := by
  have hterm := (h.rows module term).mpr ⟨module, hmem, BEq.rfl⟩
  cases hrow : table.get? module with
  | none =>
    rw [rowOf, hrow] at hterm
    cases hterm
  | some row =>
    obtain ⟨other, hsame, hentry⟩ := SortedTable.exists_mem_of_get? hrow
    refine ⟨(other, row), hentry, Path.compare_eq_iff.mp hsame, ?_⟩
    rw [rowOf, hrow, Option.getD_some]

/-! ### What is searched for -/

variable {g : Generation} {key : String} {module : Path} {term : String}

/-- Modules that are the same are written in the same way. -/
theorem importTerm_congr {p q : Path} (h : (p == q) = true) (name bound : String)
    (target : ImportTarget) :
    g.importTerm p name bound target = g.importTerm q name bound target := by
  have hsame : ∀ other : Path, (other == p) = (other == q) := fun other => BEq.congr_right h
  unfold importTerm
  simp only [hsame]

theorem mem_searchTerms :
    (module, term) ∈ g.searchTerms key ↔
      ∃ source e, (source, e) ∈ g.index.allExports ∧ e.covers key = true ∧
        ∃ i ∈ g.resolver.imports, i.importer = module ∧
          g.importTerm source (e.variableOf key) i.bound i.target = some term := by
  rw [searchTerms, List.mem_flatMap]
  constructor
  · rintro ⟨⟨source, e⟩, hexport, hterm⟩
    obtain ⟨hmem, hcovers⟩ := List.mem_filter.mp hexport
    obtain ⟨i, hi, hmap⟩ := List.mem_filterMap.mp hterm
    obtain ⟨other, hother, hpair⟩ := Option.map_eq_some_iff.mp hmap
    cases hpair
    exact ⟨source, e, hmem, hcovers, i, hi, rfl, hother⟩
  · rintro ⟨source, e, hmem, hcovers, i, hi, rfl, hterm⟩
    refine ⟨(source, e), List.mem_filter.mpr ⟨hmem, hcovers⟩,
      List.mem_filterMap.mpr ⟨i, hi, ?_⟩⟩
    rw [hterm]
    rfl

/-- The modules that terms stand for are spelt as they were recorded, so that each has one spelling. -/
theorem module_eq_of_mem_searchTerms (ho : g.resolver.Ordered) {other : Path} {term' : String}
    (h : (module, term) ∈ g.searchTerms key) (h' : (other, term') ∈ g.searchTerms key)
    (hsame : (module == other) = true) : module = other := by
  obtain ⟨-, -, -, -, i, hi, rfl, -⟩ := mem_searchTerms.mp h
  obtain ⟨-, -, -, -, i', hi', rfl, -⟩ := mem_searchTerms.mp h'
  obtain ⟨names, hentry, -⟩ := Resolver.mem_imports.mp hi
  obtain ⟨names', hentry', -⟩ := Resolver.mem_imports.mp hi'
  exact congrArg Prod.fst
    (ho.bindings.key_eq hentry hentry' (Path.compare_eq_iff.mpr hsame))

variable {tree : FileTree} {source : Source} {range : Range}

/-- What the search for references finds is filed under the key, or stands in the file of a module that
has a term for it. -/
theorem mem_findRefs_cases {r : Reference} (h : r ∈ g.findRefs tree key) :
    r ∈ g.index.refs key ∨ ∃ item ∈ g.searchTerms key, r.path = sourceFile item.1 := by
  rcases List.mem_append.mp h with hfiled | hfound
  · exact Or.inl hfiled
  · obtain ⟨⟨module, row⟩, hentry, hr⟩ := List.mem_flatMap.mp hfound
    obtain ⟨term, hterm⟩ := (collects_termTable (g.searchTerms key)).spelt _ hentry
    refine Or.inr ⟨(module, term), hterm, ?_⟩
    change r ∈ textualRefs tree key module row.keys at hr
    rw [textualRefs] at hr
    split at hr
    · cases hr
    · obtain ⟨range, -, rfl⟩ := List.mem_map.mp hr
      rfl

/-- Where a term of a module stands in its file, the search for references finds something; and it
finds the very range when the module has no other term. -/
theorem findRefs_of_mem_searchTerms (ho : g.resolver.Ordered)
    (hterm : (module, term) ∈ g.searchTerms key)
    (hsource : source? tree (sourceFile module) = some source)
    (hrange : range ∈ Python.findTokens source.lines [term]) :
    (∃ r ∈ g.findRefs tree key,
        r.key = key ∧ r.path = sourceFile module ∧ r.range.touches range.start = true) ∧
      ((∀ other, (module, other) ∈ g.searchTerms key → other = term) →
        ⟨key, sourceFile module, range⟩ ∈ g.findRefs tree key) := by
  have hc := collects_termTable (g.searchTerms key)
  obtain ⟨⟨spelt, row⟩, hentry, hsame, hrow⟩ := hc.exists_row hterm
  obtain ⟨term', hterm'⟩ := hc.spelt _ hentry
  obtain rfl : module = spelt := module_eq_of_mem_searchTerms ho hterm hterm' hsame
  have hmem : ∀ other, other ∈ row.keys ↔ (module, other) ∈ g.searchTerms key := by
    intro other
    change row = _ at hrow
    rw [hrow, hc.rows]
    constructor
    · rintro ⟨p, hp, hpsame⟩
      rwa [module_eq_of_mem_searchTerms ho hterm hp hpsame]
    · exact fun h => ⟨module, h, BEq.rfl⟩
  -- what is found for the row of the module is among the references
  have hfound : ∀ found ∈ Python.findTokens source.lines row.keys,
      ⟨key, sourceFile module, found⟩ ∈ g.findRefs tree key := by
    intro found h
    refine List.mem_append_right _ (List.mem_flatMap.mpr ⟨(module, row), hentry, ?_⟩)
    change _ ∈ textualRefs tree key module row.keys
    rw [textualRefs, hsource]
    exact List.mem_map.mpr ⟨found, h, rfl⟩
  constructor
  · obtain ⟨found, h, htouches⟩ := Python.exists_touching hrange ((hmem term).mpr hterm)
    exact ⟨_, hfound found h, rfl, rfl, htouches⟩
  · intro honly
    have hordered : row.Ordered := by
      change row = _ at hrow
      exact hrow ▸ hc.ordered module
    have hkeys : row.keys = [term] := hordered.keys_eq_singleton ((hmem term).mpr hterm)
      fun other h => honly other ((hmem other).mp h)
    exact hfound range (hkeys ▸ hrange)

end Generation

end CrossIndex
