import CrossIndex.Proofs.Fact
import CrossIndex.Proofs.Path.Components

/-!
Lists of locations without repetitions. Two locations are the same when the components of their paths
are, and their ranges, so that the spelling of a path does not count. Main statement: references are
thinned out just as their locations are, and of a list of locations those are left that no same one
stands before.
-/

namespace CrossIndex

/-! ### First occurrences by their places -/

section FirstOccurrences

variable {α β : Type} [BEq β] {image : α → β} {items : List α}

/-- The images of the first occurrences are the first occurrences of the images. -/
theorem map_firstOccurrences (image : α → β) (items : List α) :
    (firstOccurrences image items).map image = firstOccurrences id (items.map image) := by
  induction items using List.reverseRecOn with
  | nil => rfl
  | append_singleton items item ih =>
    rw [List.map_append, List.map_singleton, firstOccurrences_concat, firstOccurrences_concat, ← ih,
      List.any_map]
    -- both lists grow by the last item, or neither does
    by_cases hseen : (firstOccurrences image items).any (fun y => image item == image y) = true
    · rw [if_pos hseen]
      exact (if_pos hseen).symm
    · rw [if_neg hseen, List.map_append, List.map_singleton]
      exact (if_neg hseen).symm

/-- Where no image comes twice all items are first occurrences. -/
theorem firstOccurrences_of_pairwise
    (h : items.Pairwise fun x y => (image y == image x) = false) :
    firstOccurrences image items = items := by
  induction items using List.reverseRecOn with
  | nil => rfl
  | append_singleton items item ih =>
    obtain ⟨hitems, -, hlast⟩ := List.pairwise_append.mp h
    have hnew : ¬items.any (fun y => image item == image y) = true := by
      rw [List.any_eq_true]
      rintro ⟨y, hy, hsame⟩
      rw [hlast y hy item (List.mem_singleton_self item)] at hsame
      cases hsame
    rw [firstOccurrences_concat, ih hitems, if_neg hnew]

/-- What is thinned out once is not thinned out further. -/
theorem firstOccurrences_firstOccurrences (image : α → β) (items : List α) :
    firstOccurrences image (firstOccurrences image items) = firstOccurrences image items :=
  firstOccurrences_of_pairwise (firstOccurrences_pairwise image items)

/-- The items that no item of the same image stands before, found by their places. -/
def firstPlaces (image : α → β) (items : List α) : List α :=
  (items.zipIdx.filter fun entry =>
    !(items.take entry.2).any fun before => image before == image entry.1).map Prod.fst

theorem firstPlaces_concat (image : α → β) (items : List α) (item : α) :
    firstPlaces image (items ++ [item]) =
      if items.any (fun before => image before == image item) then firstPlaces image items
      else firstPlaces image items ++ [item] := by
  -- before the last place the longer list has just the items of the shorter one
  have hbefore : ((items ++ [item]).zipIdx.filter fun entry =>
      !((items ++ [item]).take entry.2).any fun before => image before == image entry.1) =
      (items.zipIdx.filter fun entry =>
        !(items.take entry.2).any fun before => image before == image entry.1) ++
      if items.any (fun before => image before == image item) then []
      else [(item, items.length)] := by
    rw [List.zipIdx_append, List.filter_append]
    congr 1
    · apply List.filter_congr
      intro entry hmem
      have hplace : entry.2 ≤ items.length := by
        have hlt := (List.mem_zipIdx hmem).2.1
        omega
      rw [List.take_append_of_le_length hplace]
    · rw [Nat.zero_add, List.zipIdx_singleton, List.filter_cons, List.filter_nil, List.take_left]
      cases items.any fun before => image before == image item <;> rfl
  rw [firstPlaces, hbefore, List.map_append, firstPlaces]
  split
  · rw [List.map_nil, List.append_nil]
  · rw [List.map_singleton]

theorem firstOccurrences_eq_firstPlaces [EquivBEq β] (image : α → β) (items : List α) :
    firstOccurrences image items = firstPlaces image items := by
  induction items using List.reverseRecOn with
  | nil => rfl
  | append_singleton items item ih =>
    -- an image has been met before just when one of the first occurrences has it
    have hseen : (firstOccurrences image items).any (fun y => image item == image y) =
        items.any fun before => image before == image item := by
      rw [Bool.eq_iff_iff, List.any_eq_true, List.any_eq_true]
      constructor
      · rintro ⟨y, hy, hsame⟩
        exact ⟨y, mem_of_mem_firstOccurrences hy, BEq.symm hsame⟩
      · rintro ⟨before, hmem, hsame⟩
        obtain ⟨y, hy, hfirst⟩ := exists_mem_firstOccurrences image hmem
        exact ⟨y, hy, BEq.trans (BEq.symm hsame) hfirst⟩
    rw [firstOccurrences_concat, firstPlaces_concat, hseen, ih]

end FirstOccurrences

/-! ### Locations -/

namespace Location

theorem beq_iff (a b : Location) :
    (a == b) = true ↔ a.path.components = b.path.components ∧ a.range = b.range := by
  change (a.path == b.path && a.range == b.range) = true ↔ _
  rw [Bool.and_eq_true, Path.beq_iff, beq_iff_eq]

instance : EquivBEq Location where
  rfl := (beq_iff _ _).mpr ⟨rfl, rfl⟩
  symm h := by
    obtain ⟨hpath, hrange⟩ := (beq_iff _ _).mp h
    exact (beq_iff _ _).mpr ⟨hpath.symm, hrange.symm⟩
  trans h h' := by
    obtain ⟨hpath, hrange⟩ := (beq_iff _ _).mp h
    obtain ⟨hpath', hrange'⟩ := (beq_iff _ _).mp h'
    exact (beq_iff _ _).mpr ⟨hpath.trans hpath', hrange.trans hrange'⟩

/-- No location of the list comes twice. -/
def ListedOnce (locations : List Location) : Prop :=
  locations.Pairwise fun a b => (a == b) = false

theorem listedOnce_dedup (locations : List Location) : ListedOnce (dedup locations) := by
  apply (firstOccurrences_pairwise id locations).imp
  intro a b h
  exact BEq.comm.trans h

theorem listedOnce_iff_countP {locations : List Location} :
    ListedOnce locations ↔ ∀ l ∈ locations, locations.countP (· == l) = 1 := by
  induction locations with
  | nil => exact ⟨fun _ _ hl => absurd hl List.not_mem_nil, fun _ => .nil⟩
  | cons l locations ih =>
    rw [ListedOnce, List.pairwise_cons, ← ListedOnce, ih, List.forall_mem_cons, List.countP_cons,
      if_pos BEq.rfl]
    -- nothing like the first location comes after it
    have hfirst : (∀ other ∈ locations, (l == other) = false) ↔
        locations.countP (· == l) + 1 = 1 := by
      rw [Nat.add_eq_right, List.countP_eq_zero]
      simp only [Bool.not_eq_true, BEq.comm (a := l)]
    rw [← hfirst]
    apply and_congr_right
    intro hnone
    apply forall₂_congr
    intro other hother
    rw [List.countP_cons, hnone other hother]
    simp

/-- Unique references are at the locations that are left of the locations of all references. Of any
locations those are left that no same one stands before, each once, and thinning them out again changes
nothing; locations are the same when the components of their paths are, and their ranges. -/
theorem dedup_eq_firstPlaces (references : List Reference) (locations : List Location) :
    (uniqueReferences references).map ofReference = dedup (references.map ofReference) ∧
      dedup locations = firstPlaces id locations ∧
        (dedup locations).Sublist locations ∧
          ListedOnce (dedup locations) ∧
            dedup (dedup locations) = dedup locations ∧
              ∀ a b : Location,
                (a == b) = true ↔ a.path.components = b.path.components ∧ a.range = b.range :=
  ⟨map_firstOccurrences ofReference references, firstOccurrences_eq_firstPlaces id locations,
    firstOccurrences_sublist id locations, listedOnce_dedup locations,
    firstOccurrences_firstOccurrences id locations, beq_iff⟩

/-- Of two spellings of one path the first is kept. -/
example :
    let dotted : Location := ⟨.ofString "a/./b", .onLine 0 1 2⟩
    let plain : Location := ⟨.ofString "a/b", .onLine 0 1 2⟩
    dedup [dotted, plain, ⟨.ofString "a/b", .onLine 1 1 2⟩, dotted] =
      [dotted, ⟨.ofString "a/b", .onLine 1 1 2⟩] := by
  decide +kernel

end Location

end CrossIndex
