import CrossIndex.Proofs.Module.Graph
import CrossIndex.Proofs.Text.Trim
import Mathlib.Logic.Function.Iterate

/-!
Where imports lead. A module text is some dots and names after them. Main statement: the dots lead up
from the directory of a document, the name of a package leads to its root, any other name starts from
the directory, and each name of a document denotes what its last import says.
-/

open Std

namespace CrossIndex

namespace Path

variable {p : Path}

/-- The directory above; there is none above the root, which stays. -/
def above (p : Path) : Path := p.parent?.getD p

theorem IsPlain.isPlain_above (h : p.IsPlain) : p.above.IsPlain := by
  rw [above]
  cases hd : p.parent? with
  | none => exact h
  | some d => exact h.isPlain_parent? hd

theorem IsPlain.isPlain_iterate_above (h : p.IsPlain) (steps : Nat) :
    (above^[steps] p).IsPlain := by
  induction steps generalizing p with
  | zero => exact h
  | succ steps ih => exact ih h.isPlain_above

/-- A step up after a plain path folds to the directory above. -/
theorem IsPlain.foldComponent_above (h : p.IsPlain) :
    foldComponent true (p.components.foldl (foldComponent true) []) .parent =
      p.above.components.foldl (foldComponent true) [] := by
  obtain ⟨names, hc, hnames⟩ := h.exists_names
  have hfold : ∀ names : List Component, (∀ c ∈ names, ∃ text, c = .name text) →
      (Component.root :: names).foldl (foldComponent true) [] = names.reverse := by
    intro names hall
    rw [List.foldl_cons, foldComponent, foldl_names true hall, List.append_nil]
  rcases List.eq_nil_or_concat names with rfl | ⟨init, last, rfl⟩
  · have hroot : p.above = p := by
      obtain ⟨hnone, -⟩ | ⟨d, -, habs, hd⟩ := parent?_cases h.1
      · rw [above, hnone]
        rfl
      · -- the directory above would be absolute and have no component
        obtain ⟨tail, -, -, htail⟩ := exists_tail_of_isAbsolute habs
        rw [hc, htail] at hd
        cases hd
    rw [hroot, hc]
    rfl
  · rw [List.concat_eq_append] at hc hnames
    obtain ⟨text, rfl⟩ := hnames last (by simp)
    have hd : p.above.components = .root :: init := by
      obtain ⟨-, hroot⟩ | ⟨d, hparent, -, hd⟩ := parent?_cases h.1
      · rw [hc] at hroot
        simp at hroot
      · rw [above, hparent, Option.getD_some, hd, hc, ← List.cons_append, List.dropLast_concat]
    rw [hc, hd, hfold _ hnames, hfold _ fun c hmem => hnames c (List.mem_append_left _ hmem),
      List.reverse_append]
    rfl

theorem IsPlain.foldl_steps_above (h : p.IsPlain) (steps : Nat) :
    (p.components ++ List.replicate steps Component.parent).foldl (foldComponent true) [] =
      (above^[steps] p).components.foldl (foldComponent true) [] := by
  induction steps generalizing p with
  | zero => rw [List.replicate_zero, List.append_nil]; rfl
  | succ steps ih =>
    rw [List.replicate_succ, List.foldl_append, List.foldl_cons, h.foldComponent_above,
      ← List.foldl_append]
    exact ih h.isPlain_above

theorem IsPlain.isPlain_foldl_joinText (h : p.IsPlain) {texts : List String}
    (ht : ∀ text ∈ texts, '.' ∉ text.toList) : (texts.foldl joinText p).IsPlain := by
  induction texts generalizing p with
  | nil => exact h
  | cons text texts ih =>
    have hstep := isPlain_joinText (fun _ => h) (ht text List.mem_cons_self)
      (isAbsolute_joinText h.1 text)
    exact ih hstep fun t hmem => ht t (List.mem_cons_of_mem _ hmem)

end Path

namespace Resolver

variable {r : Resolver} {dir : Path} {dots : Nat} {names : List String}

/-! ### Module texts -/

/-- A module text of leading dots and the names after them. -/
def dotted (dots : Nat) (names : List String) : String :=
  String.ofList (List.replicate dots '.') ++ ".".intercalate names

/-- What a module text has for its names. The first one is not empty, so that all dots before it are
leading ones. -/
structure AreNames (names : List String) : Prop where
  head : names.head? ≠ some ""
  plain : ∀ name ∈ names, '.' ∉ name.toList ∧ '/' ∉ name.toList

theorem AreNames.head?_intercalate (h : AreNames names) :
    ∀ c, (".".intercalate names).toList.head? = some c → c ≠ '.' := by
  cases names with
  | nil => exact fun c hc => absurd hc (by simp)
  | cons first more =>
    obtain ⟨rest, hrest⟩ : ∃ rest, (".".intercalate (first :: more)).toList =
        first.toList ++ rest := by
      cases more with
      | nil => exact ⟨[], by simp⟩
      | cons second others =>
        rw [String.intercalate_cons_cons, String.append_assoc, String.toList_append]
        exact ⟨_, rfl⟩
    have hfirst : first.toList ≠ [] := by
      intro hnil
      exact h.head (congrArg some (String.toList_eq_nil_iff.mp hnil))
    obtain ⟨d, chars, hd⟩ := List.exists_cons_of_ne_nil hfirst
    rintro c hc rfl
    rw [hrest, hd] at hc
    apply (h.plain first List.mem_cons_self).1
    rw [hd, ← Option.some.inj hc]
    exact List.mem_cons_self

theorem AreNames.leadingDots_dotted (h : AreNames names) (dots : Nat) :
    leadingDots (dotted dots names) = dots := by
  have hdots : ∀ c ∈ List.replicate dots '.', decide (c = '.') = true :=
    fun c hc => decide_eq_true (List.eq_of_mem_replicate hc)
  rw [leadingDots, dotted, String.toList_append, String.toList_ofList,
    Text.takeWhile_append_of_head hdots fun c hc => decide_eq_false (h.head?_intercalate c hc),
    List.length_replicate]

theorem AreNames.moduleNames_dotted (h : AreNames names) (dots : Nat) :
    moduleNames (dotted dots names) = names.filter (· ≠ "") := by
  have hdrop : (dotted dots names).toList.drop dots = (".".intercalate names).toList := by
    rw [dotted, String.toList_append, String.toList_ofList]
    exact List.drop_left' List.length_replicate
  rw [moduleNames, h.leadingDots_dotted, hdrop]
  by_cases hnil : names = []
  · rw [hnil]
    rfl
  · have hpieces := Text.pieces_intercalate hnil fun name hname => (h.plain name hname).1
    have hempty : (fun name : String => decide (name ≠ "")) ∘ String.ofList =
        fun chars : List Char => decide (chars ≠ []) := by
      funext chars
      simp
    calc ((Text.splitOn '.' (".".intercalate names).toList).filter (· ≠ [])).map String.ofList
        = (Text.pieces '.' (".".intercalate names)).filter (· ≠ "") := by
          rw [Text.pieces, List.filter_map, hempty]
      _ = names.filter (· ≠ "") := by rw [show "." = String.singleton '.' from rfl, hpieces]

/-! ### Modules -/

/-- The module that dots and names denote in a directory: one dot is the directory itself and each dot
more the directory above, and without dots a package starts from its root. -/
def moduleAt (r : Resolver) (dir : Path) (dots : Nat) (names : List String) : Path :=
  match dots, names with
  | 0, first :: rest =>
    match r.packageRoot? first with
    | some root => rest.foldl Path.joinText root
    | none => (first :: rest).foldl Path.joinText dir
  | _, _ => names.foldl Path.joinText (Path.above^[dots - 1] dir)

/-- Steps up and names lead from a plain directory to the module of the same names in a directory
above. -/
theorem modulePath_climb_beq (hd : dir.IsPlain)
    (h : ∀ name ∈ names, '.' ∉ name.toList ∧ '/' ∉ name.toList) (dots : Nat) :
    (modulePath ((names.filter (· ≠ "")).foldl Path.joinText (climb dir dots)) ==
      names.foldl Path.joinText (Path.above^[dots - 1] dir)) = true := by
  have hkept : ∀ name ∈ names.filter (· ≠ ""), '.' ∉ name.toList ∧ '/' ∉ name.toList :=
    fun name hname => h name (List.mem_filter.mp hname).1
  have hclimb : (climb dir dots).isAbsolute = true := Path.isAbsolute_foldl_joinText hd.1 _
  have hup := hd.isPlain_iterate_above (dots - 1)
  have hplain := hup.isPlain_foldl_joinText fun name hname => (h name hname).1
  have hcomponents : (climb dir dots).components =
      dir.components ++ List.replicate (dots - 1) .parent := by
    have hslash : ∀ text ∈ List.replicate (dots - 1) "..", '/' ∉ text.toList := by
      intro text htext
      rw [List.eq_of_mem_replicate htext]
      decide
    have hparent : Path.bodyComponent? ".." = some .parent := rfl
    rw [climb, Path.components_foldl_joinText hd.1 hslash, List.filterMap_replicate_of_some hparent]
  have hfolds : ((names.filter (· ≠ "")).foldl Path.joinText (climb dir dots)).FoldsPlain := by
    refine foldsPlain_foldl_joinText (fun name hname => Or.inr (hkept name hname).1) ?_
    refine foldsPlain_foldl_joinText ?_ (Path.foldsPlain_of_isPlain fun _ => hd)
    exact fun text htext => Or.inl (List.eq_of_mem_replicate htext)
  have habs := Path.isAbsolute_foldl_joinText hclimb (names.filter (· ≠ ""))
  have hmodule : (modulePath ((names.filter (· ≠ "")).foldl Path.joinText
      (climb dir dots))).components =
        .root :: foldComponents true (dir.components ++ List.replicate (dots - 1) .parent ++
          names.filterMap Path.bodyComponent?) := by
    rw [Path.modulePath_eq_folded (hfolds.isPlain_folded habs), (Path.components_folded habs).2,
      Path.components_foldl_joinText hclimb fun name hname => (hkept name hname).2,
      Path.filterMap_filter_ne_empty, hcomponents]
  -- a plain path is as it folds, so that the two paths can be compared in what is folded
  have hnames : (names.foldl Path.joinText (Path.above^[dots - 1] dir)).components =
      .root :: foldComponents true ((Path.above^[dots - 1] dir).components ++
        names.filterMap Path.bodyComponent?) := by
    rw [← hplain.components_folded, (Path.components_folded hplain.1).2,
      Path.components_foldl_joinText hup.1 fun name hname => (h name hname).2]
  rw [Path.beq_iff, hmodule, hnames, foldComponents, foldComponents, List.foldl_append,
    hd.foldl_steps_above, List.foldl_append]

/-- The root of the package that a module text without dots starts from is plain. -/
def StartsPlain (r : Resolver) (dots : Nat) (names : List String) : Prop :=
  dots = 0 → ∀ first root, names.head? = some first → r.packageRoot? first = some root → root.IsPlain

theorem target_dotted_beq (hd : dir.IsPlain) (h : AreNames names)
    (hstart : r.StartsPlain dots names) :
    (r.target dir (dotted dots names) == r.moduleAt dir dots names) = true := by
  -- with dots, without names and without a package the names follow the directory or one above it
  have hclimb := modulePath_climb_beq hd h.plain dots
  rw [target_eq, startOf, h.leadingDots_dotted, h.moduleNames_dotted]
  cases dots with
  | succ dots =>
    rw [if_pos (Nat.succ_pos dots)]
    exact hclimb
  | zero =>
    rw [if_neg (Nat.lt_irrefl 0)]
    cases names with
    | nil => exact hclimb
    | cons first rest =>
      have hfirst : first ≠ "" := fun hempty => h.head (congrArg some hempty)
      rw [List.filter_cons_of_pos (by simpa using hfirst)] at hclimb ⊢
      cases hroot : r.packageRoot? first with
      | none =>
        simp only [hroot, moduleAt]
        exact hclimb
      | some root =>
        have hrest : ∀ name ∈ rest, '.' ∉ name.toList ∧ '/' ∉ name.toList :=
          fun name hname => h.plain name (List.mem_cons_of_mem _ hname)
        simp only [hroot, moduleAt]
        exact modulePath_climb_beq (hstart rfl first root rfl hroot) hrest 0

/-! ### Imports -/

/-- The module text that an import goes by: what follows `from`, or the name of a plain import, of
which only the first part counts without an alias. -/
def address (i : Python.Import) : String :=
  match i.module?, i.alias? with
  | some module, _ => module
  | none, some _ => i.name
  | none, none => String.ofList (i.name.toList.takeWhile (· ≠ '.'))

/-- The target of an import in a directory: the module at its address, and in it the name that a
from-import takes from there. -/
structure Follows (r : Resolver) (dir : Path) (i : Python.Import) (target : ImportTarget) :
    Prop where
  name : target.name? = i.module?.map fun _ => i.name
  module : ∀ dots names, address i = dotted dots names → AreNames names →
    r.StartsPlain dots names → (target.module == r.moduleAt dir dots names) = true

theorem follows_importTarget (hd : dir.IsPlain) (i : Python.Import) :
    r.Follows dir i (r.importTarget dir i) := by
  have htarget : r.importTarget dir i =
      ⟨r.target dir (address i), i.module?.map fun _ => i.name⟩ := by
    obtain ⟨module?, name, alias?⟩ := i
    cases module? with
    | some module => rfl
    | none =>
      cases alias? with
      | some other => rfl
      | none => rfl
  refine ⟨by rw [htarget], ?_⟩
  intro dots names haddress hnames hstart
  have hmodule : (r.importTarget dir i).module = r.target dir (dotted dots names) := by
    rw [htarget, haddress]
  rw [hmodule]
  exact target_dotted_beq hd hnames hstart

/-- The last import of a document that binds a name. -/
def lastImport? (lines : List String) (name : String) : Option Python.Import :=
  ((Python.imports lines).filter fun i => i.localName = name).getLast?

theorem get?_namesOf (r : Resolver) (path : Path) (lines : List String) (name : String) :
    (r.namesOf path lines).get? name =
      (lastImport? lines name).map (r.importTarget (directory path)) := by
  have hsame : (fun i : Python.Import => compare name i.localName == .eq) =
      fun i => decide (i.localName = name) := by
    funext i
    rw [Bool.eq_iff_iff, beq_iff_eq, Std.compare_eq_iff_eq, decide_eq_true_iff, eq_comm]
  have hempty : (SortedTable.empty : SortedTable String ImportTarget).get? name = none := rfl
  rw [namesOf, SortedTable.get?_foldl_insert, hsame, hempty, Option.or_none, lastImport?]

variable {path : Path}

/-- In a recorded document a name denotes what the last import that binds it follows, from the
directory of the document. -/
theorem binding?_addDocument (r : Resolver) (hm : (modulePath path).IsPlain)
    (hd : (modulePath path).parent? = some dir) (lines : List String) (name : String) :
    (lastImport? lines name = none →
      (r.addDocument path lines).binding? (modulePath path) name = none) ∧
    ∀ i, lastImport? lines name = some i →
      ∃ target, (r.addDocument path lines).binding? (modulePath path) name = some target ∧
        r.Follows dir i target := by
  have hdirectory : directory path = dir := by
    rw [directory, hd]
    rfl
  have hbinding : (r.addDocument path lines).binding? (modulePath path) name =
      (lastImport? lines name).map (r.importTarget dir) := by
    rw [binding?, addDocument_bindings, SortedTable.get?_insert, if_pos ReflCmp.compare_self,
      ← hdirectory, ← get?_namesOf]
    rfl
  rw [hbinding]
  refine ⟨fun h => by rw [h]; rfl, ?_⟩
  intro i hi
  rw [hi]
  exact ⟨_, rfl, follows_importTarget (hm.isPlain_parent? hd) i⟩

/-- A graph of one package, away from the documents. -/
def libraryGraph : Resolver := empty.addPackage "pkg" (.ofString "/lib/pkg")

/-- Imports of a document, some of which bind a name anew. -/
def importingLines : List String :=
  ["from ..ops import conv as c, pool", "import pkg.nn as nn", "import os.path", "from . import c"]

/-- Two dots lead to the directory above, a package name to its root, and one dot stays in the
directory of the document. -/
theorem binding?_addDocument_importingLines :
    let file := Path.ofString "/src/main/sub/mod.py"
    let graph := libraryGraph.addDocument file importingLines
    let denotes := fun name module name? => ∃ target, graph.binding? (modulePath file) name =
      some target ∧ target.name? = name? ∧ (target.module == Path.ofString module) = true
    denotes "pool" "/src/main/ops" (some "pool") ∧ denotes "nn" "/lib/pkg/nn" none ∧
      denotes "os" "/src/main/sub/os" none ∧ denotes "c" "/src/main/sub" (some "c") ∧
        graph.binding? (modulePath file) "conv" = none := by
  intro file graph denotes
  have hm : (modulePath file).IsPlain := by decide +kernel
  have hd : (modulePath file).parent? = some (.ofString "/src/main/sub") := by decide +kernel
  have hall := binding?_addDocument libraryGraph hm hd importingLines
  have hroots : ∀ entry ∈ libraryGraph.packages.entries, entry.2.IsPlain := by decide +kernel
  have hstart : ∀ dots names, libraryGraph.StartsPlain dots names := by
    intro dots names _ first root _ hroot
    obtain ⟨name, -, hmem⟩ := SortedTable.exists_mem_of_get? hroot
    exact hroots _ hmem
  -- from the last import of a name, its address in dots and names, and the module that these denote
  have hdenotes : ∀ {name module : String} {i : Python.Import} (dots : Nat) (names : List String),
      lastImport? importingLines name = some i → address i = dotted dots names → AreNames names →
        (libraryGraph.moduleAt (.ofString "/src/main/sub") dots names == .ofString module) = true →
          denotes name module (i.module?.map fun _ => i.name) := by
    intro name module i dots names hlast haddress hnames hmodule
    obtain ⟨target, hb, hfollows⟩ := (hall name).2 i hlast
    have hsame := hfollows.module dots names haddress hnames (hstart dots names)
    exact ⟨target, hb, hfollows.name, BEq.trans hsame hmodule⟩
  have himports : Python.imports importingLines =
      [⟨some "..ops", "conv", some "c"⟩, ⟨some "..ops", "pool", none⟩, ⟨none, "pkg.nn", some "nn"⟩,
        ⟨none, "os.path", none⟩, ⟨some ".", "c", none⟩] := by
    decide +kernel
  have hpool : lastImport? importingLines "pool" = some ⟨some "..ops", "pool", none⟩ := by
    rw [lastImport?, himports]
    rfl
  have hnn : lastImport? importingLines "nn" = some ⟨none, "pkg.nn", some "nn"⟩ := by
    rw [lastImport?, himports]
    rfl
  have hos : lastImport? importingLines "os" = some ⟨none, "os.path", none⟩ := by
    rw [lastImport?, himports]
    rfl
  have hc : lastImport? importingLines "c" = some ⟨some ".", "c", none⟩ := by
    rw [lastImport?, himports]
    rfl
  have hconv : lastImport? importingLines "conv" = none := by
    rw [lastImport?, himports]
    rfl
  refine ⟨?_, ?_, ?_, ?_, (hall "conv").1 hconv⟩
  · exact hdenotes 2 ["ops"] hpool (by decide +kernel) ⟨by decide, by decide +kernel⟩
      (by decide +kernel)
  · exact hdenotes 0 ["pkg", "nn"] hnn (by decide +kernel) ⟨by decide, by decide +kernel⟩
      (by decide +kernel)
  · exact hdenotes 0 ["os"] hos (by decide +kernel) ⟨by decide, by decide +kernel⟩
      (by decide +kernel)
  · exact hdenotes 1 [] hc (by decide +kernel) ⟨by decide, by decide +kernel⟩ (by decide +kernel)

/-- A document at the root has no directory, and its imports lead along relative paths. A package of a
relative root is not looked for in the directory of the document either. -/
theorem binding?_addDocument_relative :
    let root := Path.ofString "/"
    let graph := empty.addDocument root ["from .sub import y"]
    let relative := empty.addPackage "pkg" (.ofString "lib/pkg")
    let file := Path.ofString "/src/a.py"
    let other := relative.addDocument file ["from pkg.nn import x"]
    (modulePath root).IsPlain ∧ graph.binding? root "y" = some ⟨.ofString "sub", some "y"⟩ ∧
      (Path.ofString "sub" == graph.moduleAt root 1 ["sub"]) = false ∧
        (modulePath file).IsPlain ∧
          other.binding? (modulePath file) "x" = some ⟨.ofString "lib/pkg/nn", some "x"⟩ ∧
            (Path.ofString "lib/pkg/nn" == .ofString "/src/pkg/nn") = false := by
  decide +kernel

end Resolver

end CrossIndex
