import CrossIndex.Fact
import CrossIndex.Proofs.Text.Column
import Mathlib.Data.List.Induction

/-!
Exports as maps between keys and variables, and lists without repetitions. Main statements: the variable
of a key exposes that key when the key goes on after the family with a dot, or has the name of its
variable, and in no other case in which the export covers it; the key of a variable is always exposed by
that variable; and among the first occurrences every item has one of its own image.
-/

namespace CrossIndex

/-! ### First occurrences -/

section FirstOccurrences

variable {α β : Type} [BEq β] {image : α → β} {items : List α}

/-- One item more, which is kept unless its image has been seen. -/
def keepNew (image : α → β) (state : List α × List β) (item : α) : List α × List β :=
  if state.2.contains (image item) then state else (item :: state.1, image item :: state.2)

theorem firstOccurrences_eq :
    firstOccurrences image items = (items.foldl (keepNew image) ([], [])).1.reverse := rfl

/-- What has been kept of the items, and the images that have been seen. -/
structure Kept (image : α → β) (items : List α) (state : List α × List β) : Prop where
  given : ∀ y ∈ state.1, y ∈ items
  seen : ∀ b ∈ state.2, ∃ y ∈ state.1, image y = b
  all : ∀ x ∈ items, ∃ y ∈ state.1, (image x == image y) = true

theorem Kept.step [ReflBEq β] {state : List α × List β} (h : Kept image items state) (item : α) :
    Kept image (items ++ [item]) (keepNew image state item) := by
  rw [keepNew]
  split
  · next hc =>
    -- the item stands for one of the image that was kept before
    obtain ⟨b, hb, hsame⟩ := List.contains_iff_exists_mem_beq.mp hc
    obtain ⟨old, hold, rfl⟩ := h.seen b hb
    refine ⟨fun y hy => List.mem_append_left _ (h.given y hy), h.seen, ?_⟩
    intro x hx
    rcases List.mem_append.mp hx with hbefore | hlast
    · exact h.all x hbefore
    · rw [List.mem_singleton.mp hlast]
      exact ⟨old, hold, hsame⟩
  · refine ⟨?_, ?_, ?_⟩
    · intro y hy
      rcases List.mem_cons.mp hy with rfl | hold
      · exact List.mem_append_right _ (List.mem_singleton_self _)
      · exact List.mem_append_left _ (h.given y hold)
    · intro b hb
      rcases List.mem_cons.mp hb with rfl | hold
      · exact ⟨item, List.mem_cons_self, rfl⟩
      · obtain ⟨y, hy, hsame⟩ := h.seen b hold
        exact ⟨y, List.mem_cons_of_mem _ hy, hsame⟩
    · intro x hx
      rcases List.mem_append.mp hx with hbefore | hlast
      · obtain ⟨y, hy, hsame⟩ := h.all x hbefore
        exact ⟨y, List.mem_cons_of_mem _ hy, hsame⟩
      · rw [List.mem_singleton.mp hlast]
        exact ⟨item, List.mem_cons_self, BEq.rfl⟩

theorem kept_foldl [ReflBEq β] (image : α → β) (items : List α) :
    Kept image items (items.foldl (keepNew image) ([], [])) := by
  induction items using List.reverseRecOn with
  | nil =>
    refine ⟨?_, ?_, ?_⟩
    · intro y hy
      cases hy
    · intro b hb
      cases hb
    · intro x hx
      cases hx
  | append_singleton items item ih =>
    rw [List.foldl_append]
    exact ih.step item

theorem mem_of_mem_firstOccurrences [ReflBEq β] {x : α} (h : x ∈ firstOccurrences image items) :
    x ∈ items := by
  rw [firstOccurrences_eq, List.mem_reverse] at h
  exact (kept_foldl image items).given x h

/-- Every item has one of its image among the first occurrences. -/
theorem exists_mem_firstOccurrences [ReflBEq β] (image : α → β) {x : α} (h : x ∈ items) :
    ∃ y ∈ firstOccurrences image items, (image x == image y) = true := by
  obtain ⟨y, hy, hsame⟩ := (kept_foldl image items).all x h
  exact ⟨y, List.mem_reverse.mpr hy, hsame⟩

theorem seen_foldl (image : α → β) (items : List α) :
    (items.foldl (keepNew image) ([], [])).2 =
      (items.foldl (keepNew image) ([], [])).1.map image := by
  induction items using List.reverseRecOn with
  | nil => rfl
  | append_singleton items item ih =>
    rw [List.foldl_append, List.foldl_cons, List.foldl_nil, keepNew]
    split
    · exact ih
    · rw [ih, List.map_cons]

/-- One item more is kept at the end, unless one of its image was kept before. -/
theorem firstOccurrences_concat (image : α → β) (items : List α) (item : α) :
    firstOccurrences image (items ++ [item]) =
      if (firstOccurrences image items).any (fun y => image item == image y) then
        firstOccurrences image items
      else firstOccurrences image items ++ [item] := by
  rw [firstOccurrences_eq, firstOccurrences_eq, List.foldl_append, List.foldl_cons, List.foldl_nil,
    keepNew, seen_foldl, List.contains_eq_any_beq, List.any_map, List.any_reverse]
  split
  · next h => exact (if_pos h).symm
  · next h => exact List.reverse_cons.trans (if_neg h).symm

/-- The first occurrences come in the order of the items. -/
theorem firstOccurrences_sublist (image : α → β) (items : List α) :
    (firstOccurrences image items).Sublist items := by
  induction items using List.reverseRecOn with
  | nil => exact List.nil_sublist []
  | append_singleton items item ih =>
    rw [firstOccurrences_concat]
    split
    · exact ih.trans (List.sublist_append_left items [item])
    · exact ih.append (List.Sublist.refl [item])

/-- No two first occurrences have one image. -/
theorem firstOccurrences_pairwise (image : α → β) (items : List α) :
    (firstOccurrences image items).Pairwise fun x y => (image y == image x) = false := by
  induction items using List.reverseRecOn with
  | nil => exact List.Pairwise.nil
  | append_singleton items item ih =>
    rw [firstOccurrences_concat]
    split
    · exact ih
    · next hnew =>
      apply List.pairwise_append.mpr
      refine ⟨ih, List.pairwise_singleton _ _, ?_⟩
      intro x hx y hy
      rw [List.mem_singleton.mp hy]
      simp only [List.any_eq_true, not_exists, not_and, Bool.not_eq_true] at hnew
      exact hnew x hx

end FirstOccurrences

/-! ### Exports -/

namespace Export

/-- A text is passed by as many bytes as it has. -/
theorem fromByte?_append (text rest : List Char) (offset : Nat) :
    fromByte? (text ++ rest) (Text.byteLength text + offset) = fromByte? rest offset := by
  induction text with
  | nil => rw [List.nil_append, Text.byteLength, Nat.zero_add]
  | cons c text ih =>
    have hpos := Char.utf8Size_pos c
    obtain ⟨next, hnext⟩ : ∃ next, Text.byteLength (c :: text) + offset = next + 1 := by
      refine ⟨Text.byteLength (c :: text) + offset - 1, ?_⟩
      rw [Text.byteLength]
      omega
    have hle : c.utf8Size ≤ next + 1 := by
      rw [← hnext, Text.byteLength]
      omega
    have hleft : next + 1 - c.utf8Size = Text.byteLength text + offset := by
      rw [← hnext, Text.byteLength]
      omega
    rw [hnext, List.cons_append, fromByte?, if_pos hle, hleft, ih]

/-- The bytes after the family: one for a character that is dropped, or a part of a character. -/
theorem variableOf_append {e : Export} (h : e.mapping = .namespaced) (rest : List Char) :
    e.variableOf (e.family ++ String.ofList rest) =
      String.ofList ((fromByte? rest 1).getD []) := by
  rw [variableOf, h, String.toList_append, String.toList_ofList, ← Text.byteLength_toList,
    fromByte?_append]

theorem fromByte?_dot (text : List Char) : fromByte? ('.' :: text) 1 = some text := by
  have hdot : '.'.utf8Size = 1 := by decide
  rw [fromByte?, hdot, if_pos (Nat.le_refl 1), Nat.sub_self]
  cases text with
  | nil => rfl
  | cons c text => rfl

/-- A variable exposes its own key. -/
theorem variableOf_keyOf (e : Export) (name : String) : e.variableOf (e.keyOf name) = name := by
  cases h : e.mapping with
  | identity => simp only [variableOf, keyOf, h]
  | namespaced =>
    have hkey : e.keyOf name = e.family ++ String.ofList ('.' :: name.toList) := by
      rw [keyOf, h]
      apply String.ext
      simp
    rw [hkey, variableOf_append h, fromByte?_dot, Option.getD_some, String.ofList_toList]

/-- Of the keys that an export covers, those go to their variable and back that have the name of
their variable, or go on after the family with a dot. -/
theorem keyOf_variableOf_iff {e : Export} {key : String} (h : e.covers key = true) :
    e.keyOf (e.variableOf key) = key ↔
      e.mapping = .identity ∨ (e.family ++ ".").toList <+: key.toList := by
  obtain ⟨rest, hrest⟩ := List.isPrefixOf_iff_prefix.mp h
  have hkey : key = e.family ++ String.ofList rest := by
    apply String.ext
    simp [hrest]
  cases hm : e.mapping with
  | identity => simp [keyOf, variableOf, hm]
  | namespaced =>
    have hdot : (e.family ++ ".").toList <+: key.toList ↔ ∃ name, rest = '.' :: name := by
      rw [← hrest, String.toList_append, List.prefix_append_right_inj]
      exact ⟨fun ⟨name, hname⟩ => ⟨name, hname.symm⟩, fun ⟨name, hname⟩ => ⟨name, hname.symm⟩⟩
    rw [hdot]
    constructor
    · intro hback
      -- the key of any variable goes on with a dot
      refine Or.inr ⟨(e.variableOf key).toList, ?_⟩
      have htexts := congrArg String.toList hback
      rw [keyOf, hm, ← hrest, String.toList_append, String.toList_append, List.append_assoc,
        List.append_cancel_left_eq] at htexts
      exact htexts.symm
    · rintro (hi | ⟨name, rfl⟩)
      · cases hi
      · have hname : key = e.keyOf (String.ofList name) := by
          rw [hkey, keyOf, hm]
          apply String.ext
          simp
        rw [hname, variableOf_keyOf]

/-- An export of operators. -/
def operators : Export := ⟨"relay.op", .ofString "/python/tvm/relay/op.py", .namespaced⟩

theorem keyOf_variableOf_iff_conv2d :
    operators.covers "relay.op._make.conv2d" = true ∧
      (operators.keyOf (operators.variableOf "relay.op._make.conv2d") = "relay.op._make.conv2d" ↔
        operators.mapping = .identity ∨
          (operators.family ++ ".").toList <+: "relay.op._make.conv2d".toList) :=
  ⟨by decide, keyOf_variableOf_iff (by decide)⟩

/-- A key that goes on after the family without a dot is covered, but its variable exposes another
key; and so does the empty variable of the family itself. -/
theorem keyOf_variableOf_without_dot :
    operators.covers "relay.opaque" = true ∧
      operators.keyOf (operators.variableOf "relay.opaque") = "relay.op.que" ∧
      operators.covers "relay.op" = true ∧
      operators.keyOf (operators.variableOf "relay.op") = "relay.op." := by
  decide +kernel

end Export

end CrossIndex
