import CrossIndex.Table
import Mathlib.Data.List.Dedup
import Mathlib.Data.List.Induction

/-!
Tables as maps. Main statements: an insertion into a sorted table changes what is found under its key
and nothing else, insertions under different keys can change places, and in an ordered table every
entry is the one that is found under its key. Of many insertions under one key the first one spells the
key, and the last one has its value. A group table holds under each key the values that were put there,
in their order, and all in all every value once.
-/

open Std

namespace CrossIndex

namespace SortedTable

variable {κ α : Type} [Ord κ]

/-- The keys come in strictly increasing order. -/
def Ordered (table : SortedTable κ α) : Prop :=
  table.entries.Pairwise fun a b => compare a.1 b.1 = .lt

theorem ordered_empty : (empty : SortedTable κ α).Ordered := List.Pairwise.nil

variable {table : SortedTable κ α} {key other : κ} {value : α}

/-- What is found is there under a key that compares as equal. -/
theorem exists_mem_of_get? (h : table.get? key = some value) :
    ∃ k, compare key k = .eq ∧ (k, value) ∈ table.entries := by
  rw [get?, Option.map_eq_some_iff] at h
  obtain ⟨⟨k, v⟩, hfind, rfl⟩ := h
  have hk := List.find?_some hfind
  exact ⟨k, by simpa using hk, List.mem_of_find?_eq_some hfind⟩

theorem contains_iff :
    table.contains key = true ↔ ∃ entry ∈ table.entries, compare key entry.1 = .eq := by
  rw [contains, get?, Option.isSome_map, List.find?_isSome]
  simp

/-- The keys of a table, in order. -/
def keys (table : SortedTable κ α) : List κ := table.entries.map Prod.fst

theorem mem_keys_iff [LawfulEqOrd κ] : key ∈ table.keys ↔ table.contains key = true := by
  rw [contains_iff, keys, List.mem_map]
  constructor
  · rintro ⟨entry, hmem, rfl⟩
    exact ⟨entry, hmem, ReflCmp.compare_self⟩
  · rintro ⟨entry, hmem, hkey⟩
    exact ⟨entry, hmem, (LawfulEqOrd.eq_of_compare hkey).symm⟩

/-- An entry after an insertion has its key from before, or the new one. -/
theorem key_of_mem_insert {entry : κ × α} (h : entry ∈ (table.insert key value).entries) :
    entry.1 = key ∨ ∃ old ∈ table.entries, old.1 = entry.1 := by
  obtain ⟨entries⟩ := table
  change entry ∈ insertEntry key value entries at h
  change _ ∨ ∃ old ∈ entries, old.1 = entry.1
  induction entries with
  | nil =>
    rw [insertEntry, List.mem_singleton] at h
    exact Or.inl (congrArg Prod.fst h)
  | cons first rest ih =>
    obtain ⟨k, v⟩ := first
    rw [insertEntry] at h
    cases hc : compare key k with
    | lt =>
      rw [hc] at h
      rcases List.mem_cons.mp h with rfl | hmem
      · exact Or.inl rfl
      · exact Or.inr ⟨entry, hmem, rfl⟩
    | eq =>
      rw [hc] at h
      rcases List.mem_cons.mp h with rfl | hmem
      · exact Or.inr ⟨(k, v), List.mem_cons_self, rfl⟩
      · exact Or.inr ⟨entry, List.mem_cons_of_mem _ hmem, rfl⟩
    | gt =>
      rw [hc] at h
      rcases List.mem_cons.mp h with rfl | hmem
      · exact Or.inr ⟨(k, v), List.mem_cons_self, rfl⟩
      · rcases ih hmem with hkey | ⟨old, hold, hsame⟩
        · exact Or.inl hkey
        · exact Or.inr ⟨old, List.mem_cons_of_mem _ hold, hsame⟩

/-- An insertion keeps the keys that are there. -/
theorem mem_keys_insert (h : other ∈ table.keys) (key : κ) (value : α) :
    other ∈ (table.insert key value).keys := by
  obtain ⟨entries⟩ := table
  change other ∈ entries.map Prod.fst at h
  change other ∈ (insertEntry key value entries).map Prod.fst
  induction entries with
  | nil => cases h
  | cons first rest ih =>
    obtain ⟨k, v⟩ := first
    rw [insertEntry]
    cases hc : compare key k with
    | lt => exact List.mem_cons_of_mem _ h
    | eq => exact h
    | gt =>
      rcases List.mem_cons.mp h with rfl | hmem
      · exact List.mem_cons_self
      · exact List.mem_cons_of_mem _ (ih hmem)

variable [TransOrd κ]

/-- Keys that compare as equal are found alike. -/
theorem get?_congr (h : compare key other = .eq) (table : SortedTable κ α) :
    table.get? key = table.get? other := by
  have hkeys : (fun entry : κ × α => compare key entry.1 == .eq) =
      fun entry => compare other entry.1 == .eq := by
    funext entry
    rw [TransCmp.congr_left h]
  rw [get?, hkeys, get?]

theorem contains_congr (h : compare key other = .eq) (table : SortedTable κ α) :
    table.contains key = table.contains other := by
  rw [contains, get?_congr h, contains]

/-- In an ordered table no entry hides another. -/
theorem Ordered.get?_of_mem (ho : table.Ordered) (h : (key, value) ∈ table.entries) :
    table.get? key = some value := by
  obtain ⟨entries⟩ := table
  change (entries.find? fun entry => compare key entry.1 == .eq).map Prod.snd = some value
  change entries.Pairwise _ at ho
  induction entries with
  | nil => cases h
  | cons first rest ih =>
    obtain ⟨hfirst, hrest⟩ := List.pairwise_cons.mp ho
    rcases List.mem_cons.mp h with rfl | hmem
    · simp
    · have hgt : compare key first.1 = .gt := OrientedCmp.gt_of_lt (hfirst _ hmem)
      rw [List.find?_cons, hgt]
      exact ih hmem hrest

theorem mem_insertEntry {entry : κ × α} {entries : List (κ × α)}
    (h : entry ∈ insertEntry key value entries) :
    entry ∈ entries ∨ entry.2 = value ∧ compare key entry.1 = .eq := by
  induction entries with
  | nil =>
    rw [insertEntry, List.mem_singleton] at h
    subst h
    exact Or.inr ⟨rfl, ReflCmp.compare_self⟩
  | cons first rest ih =>
    obtain ⟨k, v⟩ := first
    rw [insertEntry] at h
    cases hc : compare key k with
    | lt =>
      rw [hc] at h
      rcases List.mem_cons.mp h with rfl | hmem
      · exact Or.inr ⟨rfl, ReflCmp.compare_self⟩
      · exact Or.inl hmem
    | eq =>
      rw [hc] at h
      rcases List.mem_cons.mp h with rfl | hmem
      · exact Or.inr ⟨rfl, hc⟩
      · exact Or.inl (List.mem_cons_of_mem _ hmem)
    | gt =>
      rw [hc] at h
      rcases List.mem_cons.mp h with rfl | hmem
      · exact Or.inl List.mem_cons_self
      · exact (ih hmem).imp_left (List.mem_cons_of_mem _)

/-- An entry after an insertion was there before, or holds the new value. -/
theorem mem_insert {entry : κ × α} (h : entry ∈ (table.insert key value).entries) :
    entry ∈ table.entries ∨ entry.2 = value ∧ compare key entry.1 = .eq :=
  mem_insertEntry h

/-- In an ordered table keys that compare as equal are spelt alike. -/
theorem Ordered.key_eq (ho : table.Ordered) {entry entry' : κ × α} (h : entry ∈ table.entries)
    (h' : entry' ∈ table.entries) (hc : compare entry.1 entry'.1 = .eq) : entry = entry' := by
  obtain ⟨entries⟩ := table
  change entries.Pairwise _ at ho
  change entry ∈ entries at h
  change entry' ∈ entries at h'
  induction entries with
  | nil => cases h
  | cons first rest ih =>
    obtain ⟨hfirst, hrest⟩ := List.pairwise_cons.mp ho
    rcases List.mem_cons.mp h with rfl | hmem
    · rcases List.mem_cons.mp h' with rfl | hmem'
      · rfl
      · rw [hfirst entry' hmem'] at hc
        cases hc
    · rcases List.mem_cons.mp h' with rfl | hmem'
      · rw [OrientedCmp.gt_of_lt (hfirst entry hmem)] at hc
        cases hc
      · exact ih hrest hmem hmem'

theorem Ordered.insert (ho : table.Ordered) (key : κ) (value : α) :
    (table.insert key value).Ordered := by
  obtain ⟨entries⟩ := table
  change (insertEntry key value entries).Pairwise _
  change entries.Pairwise _ at ho
  induction entries with
  | nil => exact List.pairwise_singleton _ _
  | cons first rest ih =>
    obtain ⟨k, v⟩ := first
    obtain ⟨hfirst, hrest⟩ := List.pairwise_cons.mp ho
    rw [insertEntry]
    cases hc : compare key k with
    | lt =>
      refine List.pairwise_cons.mpr ⟨?_, ho⟩
      intro entry hmem
      rcases List.mem_cons.mp hmem with rfl | hmem
      · exact hc
      · exact TransCmp.lt_trans hc (hfirst entry hmem)
    | eq => exact List.pairwise_cons.mpr ⟨hfirst, hrest⟩
    | gt =>
      refine List.pairwise_cons.mpr ⟨?_, ih hrest⟩
      intro entry hmem
      rcases mem_insertEntry hmem with hold | ⟨-, hnew⟩
      · exact hfirst entry hold
      · exact TransCmp.lt_of_lt_of_eq (OrientedCmp.lt_of_gt hc) hnew

/-- An insertion changes what is found under its key, and nothing else. -/
theorem get?_insert (table : SortedTable κ α) (key : κ) (value : α) (other : κ) :
    (table.insert key value).get? other =
      if compare other key = .eq then some value else table.get? other := by
  obtain ⟨entries⟩ := table
  change ((insertEntry key value entries).find? fun entry => compare other entry.1 == .eq).map
      Prod.snd = if compare other key = .eq then some value
        else (entries.find? fun entry => compare other entry.1 == .eq).map Prod.snd
  induction entries with
  | nil =>
    rw [insertEntry, List.find?_cons]
    by_cases ho : compare other key = .eq
    · simp [ho]
    · simp [beq_eq_false_iff_ne.mpr ho, ho]
  | cons first rest ih =>
    obtain ⟨k, v⟩ := first
    rw [insertEntry]
    cases hc : compare key k with
    | lt =>
      by_cases ho : compare other key = .eq
      · simp [ho]
      · simp [ho]
    | eq =>
      have hk : compare other k = compare other key := (TransCmp.congr_right hc).symm
      by_cases ho : compare other key = .eq
      · simp [hk, ho]
      · simp [hk, ho]
    | gt =>
      by_cases ho : compare other key = .eq
      · have hk : compare other k = .gt := by rw [TransCmp.congr_left ho, hc]
        simp [hk, ho, ih]
      · rw [if_neg ho] at ih ⊢
        rw [List.find?_cons, List.find?_cons]
        cases compare other k == .eq with
        | true => rfl
        | false => exact ih

/-- Of the values that are inserted under one key the last one is found. -/
theorem get?_foldl_insert {ι : Type} (key : ι → κ) (value : ι → α) (items : List ι)
    (table : SortedTable κ α) (other : κ) :
    (items.foldl (fun table i => table.insert (key i) (value i)) table).get? other =
      ((items.filter fun i => compare other (key i) == .eq).getLast?.map value).or
        (table.get? other) := by
  induction items generalizing table with
  | nil => rfl
  | cons i items ih =>
    rw [List.foldl_cons, ih, get?_insert, List.filter_cons]
    by_cases ho : compare other (key i) = .eq
    · rw [if_pos ho, if_pos (beq_iff_eq.mpr ho), List.getLast?_cons]
      cases (items.filter fun i => compare other (key i) == .eq).getLast? with
      | none => rfl
      | some last => rfl
    · rw [if_neg ho, if_neg (by simpa using ho)]

theorem contains_insert (table : SortedTable κ α) (key : κ) (value : α) (other : κ) :
    (table.insert key value).contains other =
      (compare other key == .eq || table.contains other) := by
  rw [contains, get?_insert]
  by_cases ho : compare other key = .eq
  · simp [ho]
  · simp [ho, contains]

/-- An entry after an insertion into an ordered table is spelt as before, or its key is new. -/
theorem Ordered.key_of_mem_insert_cases (ho : table.Ordered) {entry : κ × α}
    (h : entry ∈ (table.insert key value).entries) :
    (∃ old ∈ table.entries, old.1 = entry.1) ∨ entry.1 = key ∧ table.contains key = false := by
  rcases key_of_mem_insert h with hkey | hold
  · cases hk : table.contains key with
    | false => exact Or.inr ⟨hkey, rfl⟩
    | true =>
      -- the spelling from before is still there, and there is no other one
      obtain ⟨old, hmem, hold⟩ := contains_iff.mp hk
      obtain ⟨kept, hkept, hspelt⟩ :=
        List.mem_map.mp (mem_keys_insert (List.mem_map.mpr ⟨old, hmem, rfl⟩) key value)
      have hsame : compare kept.1 entry.1 = .eq := by
        rw [hspelt, hkey]
        exact OrientedCmp.eq_symm hold
      have hentry : kept = entry := (ho.insert key value).key_eq hkept h hsame
      exact Or.inl ⟨old, hmem, hspelt.symm.trans (congrArg Prod.fst hentry)⟩
  · exact Or.inl hold

theorem ordered_foldl_insert {ι : Type} (key : ι → κ) (value : ι → α) (items : List ι) :
    (items.foldl (fun table i => table.insert (key i) (value i)) empty).Ordered := by
  induction items using List.reverseRecOn with
  | nil => exact ordered_empty
  | append_singleton items i ih =>
    rw [List.foldl_append]
    exact ih.insert (key i) (value i)

/-- Of the spellings of one key the first one is kept. -/
theorem key_of_mem_foldl_insert {ι : Type} (key : ι → κ) (value : ι → α) (items : List ι)
    {entry : κ × α}
    (h : entry ∈ (items.foldl (fun table i => table.insert (key i) (value i)) empty).entries) :
    (items.filter fun i => compare entry.1 (key i) == .eq).head?.map key = some entry.1 := by
  induction items using List.reverseRecOn generalizing entry with
  | nil => cases h
  | append_singleton items i ih =>
    rw [List.foldl_append] at h
    rw [List.filter_append, List.head?_append]
    rcases (ordered_foldl_insert key value items).key_of_mem_insert_cases h with
      ⟨old, hold, hspelt⟩ | ⟨hkey, hnew⟩
    · have hearlier := ih hold
      rw [hspelt] at hearlier
      obtain ⟨first, hfirst, hkey⟩ := Option.map_eq_some_iff.mp hearlier
      rw [hfirst, Option.some_or, Option.map_some, hkey]
    · -- an item under the key would have put it into the table
      have hnone : (items.filter fun j => compare entry.1 (key j) == .eq) = [] := by
        rw [contains, get?_foldl_insert, ← hkey] at hnew
        cases hlast : (items.filter fun j => compare entry.1 (key j) == .eq).getLast? with
        | none => exact List.getLast?_eq_none_iff.mp hlast
        | some last =>
          rw [hlast] at hnew
          cases hnew
      rw [hnone, hkey]
      simp

/-- Of the items under one key the first one spells it, and the last one is found there. -/
theorem exists_of_mem_foldl_insert {ι : Type} (key : ι → κ) (value : ι → α) (items : List ι)
    {entry : κ × α}
    (h : entry ∈ (items.foldl (fun table i => table.insert (key i) (value i)) empty).entries) :
    ∃ first last, (items.filter fun i => compare entry.1 (key i) == .eq).head? = some first ∧
      (items.filter fun i => compare entry.1 (key i) == .eq).getLast? = some last ∧
        entry = (key first, value last) := by
  obtain ⟨first, hfirst, hkey⟩ :=
    Option.map_eq_some_iff.mp (key_of_mem_foldl_insert key value items h)
  have hvalue := (ordered_foldl_insert key value items).get?_of_mem h
  have hempty : (empty : SortedTable κ α).get? entry.1 = none := rfl
  rw [get?_foldl_insert, hempty, Option.or_none] at hvalue
  obtain ⟨last, hlast, hfound⟩ := Option.map_eq_some_iff.mp hvalue
  exact ⟨first, last, hfirst, hlast, Prod.ext hkey.symm hfound.symm⟩

theorem insertEntry_comm (h : compare key other ≠ .eq) (value old : α) (entries : List (κ × α)) :
    insertEntry key value (insertEntry other old entries) =
      insertEntry other old (insertEntry key value entries) := by
  have hswap : compare other key = (compare key other).swap := OrientedCmp.eq_swap
  induction entries with
  | nil =>
    cases hc : compare key other with
    | lt => simp [insertEntry, hswap, hc]
    | eq => exact absurd hc h
    | gt => simp [insertEntry, hswap, hc]
  | cons first rest ih =>
    obtain ⟨k, v⟩ := first
    -- where the keys stand on two sides of the first entry, that says which of them comes first
    cases hk : compare key k with
    | lt =>
      cases ho : compare other k with
      | lt =>
        cases hc : compare key other with
        | lt => simp [insertEntry, hk, ho, hswap, hc]
        | eq => exact absurd hc h
        | gt => simp [insertEntry, hk, ho, hswap, hc]
      | eq =>
        have hc : compare key other = .lt := TransCmp.lt_of_lt_of_eq hk (OrientedCmp.eq_symm ho)
        simp [insertEntry, hk, ho, hswap, hc]
      | gt =>
        have hc : compare key other = .lt := TransCmp.lt_trans hk (OrientedCmp.lt_of_gt ho)
        simp [insertEntry, hk, ho, hswap, hc]
    | eq =>
      cases ho : compare other k with
      | lt =>
        have hc : compare other key = .lt := TransCmp.lt_of_lt_of_eq ho (OrientedCmp.eq_symm hk)
        have hc' : compare key other = .gt := OrientedCmp.gt_of_lt hc
        simp [insertEntry, hk, ho, hc']
      | eq => exact absurd (TransCmp.eq_trans hk (OrientedCmp.eq_symm ho)) h
      | gt => simp [insertEntry, hk, ho]
    | gt =>
      cases ho : compare other k with
      | lt =>
        have hc : compare other key = .lt := TransCmp.lt_trans ho (OrientedCmp.lt_of_gt hk)
        have hc' : compare key other = .gt := OrientedCmp.gt_of_lt hc
        simp [insertEntry, hk, ho, hc']
      | eq => simp [insertEntry, hk, ho]
      | gt => simp [insertEntry, hk, ho, ih]

/-- Insertions under different keys can change places. -/
theorem insert_comm (h : compare key other ≠ .eq) (table : SortedTable κ α) (value old : α) :
    (table.insert other old).insert key value = (table.insert key value).insert other old :=
  congrArg SortedTable.mk (insertEntry_comm h value old table.entries)

/-- Of two insertions under one key the later one counts. -/
theorem insert_insert (table : SortedTable κ α) (key : κ) (old value : α) :
    (table.insert key old).insert key value = table.insert key value := by
  obtain ⟨entries⟩ := table
  apply congrArg SortedTable.mk
  change insertEntry key value (insertEntry key old entries) = insertEntry key value entries
  induction entries with
  | nil => simp [insertEntry]
  | cons first rest ih =>
    obtain ⟨k, v⟩ := first
    cases hc : compare key k with
    | lt => simp [insertEntry, hc]
    | eq => simp [insertEntry, hc]
    | gt => simp [insertEntry, hc, ih]

/-- A table of which all keys are one is the table of that key. -/
theorem Ordered.keys_eq_singleton (h : table.Ordered) (hmem : key ∈ table.keys)
    (hall : ∀ other ∈ table.keys, other = key) : table.keys = [key] := by
  obtain ⟨entries⟩ := table
  change entries.Pairwise _ at h
  change key ∈ entries.map Prod.fst at hmem
  change ∀ other ∈ entries.map Prod.fst, other = key at hall
  change entries.map Prod.fst = [key]
  rcases entries with - | ⟨first, - | ⟨second, rest⟩⟩
  · cases hmem
  · rw [List.map_singleton, hall first.1 (by simp)]
  · -- a second key would come after the first one, and yet be the same
    have hlt := (List.pairwise_cons.mp h).1 second List.mem_cons_self
    rw [hall first.1 (by simp), hall second.1 (by simp)] at hlt
    exact absurd (hlt.symm.trans (compare_self (a := key))) (by decide)

end SortedTable

namespace GroupTable

variable {κ α : Type}

def keys (table : GroupTable κ α) : List κ := table.groups.map Prod.fst

/-- All values, group by group. -/
def values (table : GroupTable κ α) : List α := table.groups.flatMap Prod.snd

theorem length_keys (table : GroupTable κ α) : table.keys.length = table.keyCount :=
  List.length_map _

theorem map_snd_toList (table : GroupTable κ α) : table.toList.map Prod.snd = table.values := by
  have hgroup : ∀ group : κ × List α,
      (group.2.map fun value => (group.1, value)).map Prod.snd = group.2 := by
    intro group
    rw [List.map_map]
    exact List.map_id _
  rw [toList, values, List.map_flatMap]
  simp only [hgroup]

theorem mem_toList_cons {key : κ} {values : List α} {rest : List (κ × List α)} {entry : κ × α} :
    entry ∈ (toList ⟨(key, values) :: rest⟩) ↔
      entry.1 = key ∧ entry.2 ∈ values ∨ entry ∈ (toList ⟨rest⟩) := by
  obtain ⟨k, value⟩ := entry
  change (k, value) ∈ values.map (fun value => (key, value)) ++ toList ⟨rest⟩ ↔ _
  rw [List.mem_append, List.mem_map]
  apply or_congr_left
  constructor
  · rintro ⟨found, hmem, hsame⟩
    cases hsame
    exact ⟨rfl, hmem⟩
  · intro ⟨hkey, hmem⟩
    exact ⟨value, hmem, congrArg (·, value) hkey.symm⟩

variable [BEq κ]

theorem mem_addTo {key : κ} {value : α} {group : κ × List α}
    {groups : List (κ × List α)} (h : group ∈ addTo key value groups) :
    group.1 = key ∨ ∃ old ∈ groups, old.1 = group.1 := by
  induction groups with
  | nil =>
    rw [addTo, List.mem_singleton] at h
    exact Or.inl (congrArg Prod.fst h)
  | cons first rest ih =>
    obtain ⟨other, values⟩ := first
    rw [addTo] at h
    split at h
    · rcases List.mem_cons.mp h with rfl | hmem
      · exact Or.inr ⟨(other, values), List.mem_cons_self, rfl⟩
      · exact Or.inr ⟨group, List.mem_cons_of_mem _ hmem, rfl⟩
    · rcases List.mem_cons.mp h with rfl | hmem
      · exact Or.inr ⟨(other, values), List.mem_cons_self, rfl⟩
      · rcases ih hmem with hkey | ⟨old, hold, hsame⟩
        · exact Or.inl hkey
        · exact Or.inr ⟨old, List.mem_cons_of_mem _ hold, hsame⟩

theorem exists_mem_toList_of_mem_get {table : GroupTable κ α} {key : κ} {value : α}
    (h : value ∈ table.get key) : ∃ other, (other, value) ∈ table.toList ∧ (other == key) = true := by
  rw [get] at h
  cases hfind : table.groups.find? fun group => group.1 == key with
  | none =>
    rw [hfind] at h
    cases h
  | some group =>
    rw [hfind] at h
    have hvalue : value ∈ group.2 := h
    have hkey := List.find?_some hfind
    exact ⟨group.1, List.mem_flatMap.mpr ⟨group, List.mem_of_find?_eq_some hfind,
      List.mem_map.mpr ⟨value, hvalue, rfl⟩⟩, hkey⟩

/-- Keys that are the same have the same values. -/
theorem get_congr [EquivBEq κ] {key other : κ} (h : (key == other) = true) (table : GroupTable κ α) :
    table.get key = table.get other := by
  have hkeys : (fun group : κ × List α => group.1 == key) = fun group => group.1 == other := by
    funext group
    exact BEq.congr_right h
  rw [get, hkeys, get]

/-- A value is put at the end of the group of its key, and all other groups stay. -/
theorem get_add [EquivBEq κ] (table : GroupTable κ α) (key : κ) (value : α) (other : κ) :
    (table.add key value).get other =
      if key == other then table.get other ++ [value] else table.get other := by
  obtain ⟨groups⟩ := table
  change (((addTo key value groups).find? fun group => group.1 == other).map Prod.snd).getD [] =
    if key == other then ((groups.find? fun group => group.1 == other).map Prod.snd).getD [] ++ [value]
    else ((groups.find? fun group => group.1 == other).map Prod.snd).getD []
  induction groups with
  | nil =>
    rw [addTo, List.find?_cons]
    cases key == other with
    | true => rfl
    | false => rfl
  | cons first rest ih =>
    obtain ⟨k, values⟩ := first
    rw [addTo]
    cases hk : k == key with
    | true =>
      rw [if_pos rfl, List.find?_cons, List.find?_cons, BEq.congr_left hk]
      cases key == other with
      | true => rfl
      | false => rfl
    | false =>
      rw [if_neg (by simp), List.find?_cons, List.find?_cons]
      cases ho : k == other with
      | true =>
        have hdiffer : (key == other) = false := by
          rw [← BEq.congr_right ho, BEq.comm, hk]
        rw [hdiffer]
        rfl
      | false => exact ih

/-- Puts values under their keys one after the other. -/
def addAll (table : GroupTable κ α) (entries : List (κ × α)) : GroupTable κ α :=
  entries.foldl (fun table entry => table.add entry.1 entry.2) table

theorem addAll_filterMap_cons {β : Type} (row? : β → Option (κ × α)) (table : GroupTable κ α)
    (item : β) (items : List β) :
    (table.addAll (row? item).toList).addAll (items.filterMap row?) =
      table.addAll ((item :: items).filterMap row?) := by
  rw [List.filterMap_cons]
  cases row? item with
  | none => rfl
  | some row => rfl

theorem addAll_cons (table : GroupTable κ α) (entry : κ × α) (entries : List (κ × α)) :
    table.addAll (entry :: entries) = (table.add entry.1 entry.2).addAll entries := rfl

theorem get_addAll [EquivBEq κ] (table : GroupTable κ α) (entries : List (κ × α)) (key : κ) :
    (table.addAll entries).get key =
      table.get key ++ (entries.filter fun entry => entry.1 == key).map Prod.snd := by
  induction entries generalizing table with
  | nil => exact (List.append_nil _).symm
  | cons entry entries ih =>
    rw [addAll_cons, ih, get_add, List.filter_cons]
    cases entry.1 == key with
    | true => simp
    | false => simp

/-! ### All entries of a group table -/

/-- Wherever the group of a key stands, just the one value is put to all those there. -/
theorem values_add_perm (table : GroupTable κ α) (key : κ) (value : α) :
    (table.add key value).values.Perm (value :: table.values) := by
  obtain ⟨groups⟩ := table
  change ((addTo key value groups).flatMap Prod.snd).Perm (value :: groups.flatMap Prod.snd)
  induction groups with
  | nil => exact List.Perm.refl [value]
  | cons first rest ih =>
    obtain ⟨other, values⟩ := first
    rw [addTo]
    split
    · rw [List.flatMap_cons, List.flatMap_cons, List.append_assoc]
      exact List.perm_middle
    · rw [List.flatMap_cons, List.flatMap_cons]
      exact (ih.append_left values).trans List.perm_middle

theorem values_addAll_perm (table : GroupTable κ α) (entries : List (κ × α)) :
    (table.addAll entries).values.Perm (entries.map Prod.snd ++ table.values) := by
  induction entries generalizing table with
  | nil => exact List.Perm.refl _
  | cons entry entries ih =>
    rw [addAll_cons, List.map_cons, List.cons_append]
    exact (ih _).trans ((values_add_perm table entry.1 entry.2).append_left _ |>.trans
      List.perm_middle)

/-- A value stands under the key that it was put under, as the key of its group is spelt. -/
theorem mem_toList_add [ReflBEq κ] {table : GroupTable κ α} {key : κ} {value : α} {entry : κ × α}
    (h : entry ∈ (table.add key value).toList) :
    entry ∈ table.toList ∨ entry.2 = value ∧ (entry.1 == key) = true := by
  obtain ⟨groups⟩ := table
  change entry ∈ (toList ⟨addTo key value groups⟩) at h
  induction groups with
  | nil =>
    obtain ⟨rfl, hvalue⟩ | hnone := mem_toList_cons.mp h
    · exact Or.inr ⟨List.mem_singleton.mp hvalue, BEq.rfl⟩
    · cases hnone
  | cons first rest ih =>
    obtain ⟨other, values⟩ := first
    rw [addTo] at h
    rw [mem_toList_cons]
    split at h
    · next hkey =>
      rcases mem_toList_cons.mp h with ⟨rfl, hvalue⟩ | hrest
      · rcases List.mem_append.mp hvalue with hold | hnew
        · exact Or.inl (Or.inl ⟨rfl, hold⟩)
        · exact Or.inr ⟨List.mem_singleton.mp hnew, hkey⟩
      · exact Or.inl (Or.inr hrest)
    · rcases mem_toList_cons.mp h with hfirst | hlater
      · exact Or.inl (Or.inl hfirst)
      · exact (ih hlater).imp_left Or.inr

theorem mem_toList_addAll [ReflBEq κ] {table : GroupTable κ α} {entries : List (κ × α)}
    {entry : κ × α} (h : entry ∈ (table.addAll entries).toList) :
    entry ∈ table.toList ∨ ∃ put ∈ entries, entry.2 = put.2 ∧ (entry.1 == put.1) = true := by
  induction entries generalizing table with
  | nil => exact Or.inl h
  | cons first entries ih =>
    rcases ih h with hadd | ⟨put, hput, hsame⟩
    · rcases mem_toList_add hadd with hold | hnew
      · exact Or.inl hold
      · exact Or.inr ⟨first, List.mem_cons_self, hnew⟩
    · exact Or.inr ⟨put, List.mem_cons_of_mem _ hput, hsame⟩

variable [LawfulBEq κ]

/-- A group is opened for a key that has none. -/
theorem keys_add_cases (table : GroupTable κ α) (key : κ) (value : α) :
    key ∈ table.keys ∧ (table.add key value).keys = table.keys ∨
      key ∉ table.keys ∧ (table.add key value).keys = table.keys ++ [key] := by
  obtain ⟨groups⟩ := table
  change key ∈ groups.map Prod.fst ∧ (addTo key value groups).map Prod.fst = groups.map Prod.fst ∨
    key ∉ groups.map Prod.fst ∧
      (addTo key value groups).map Prod.fst = groups.map Prod.fst ++ [key]
  induction groups with
  | nil => exact Or.inr ⟨List.not_mem_nil, rfl⟩
  | cons first rest ih =>
    obtain ⟨other, values⟩ := first
    rw [addTo]
    split
    · next hkey =>
      rw [← eq_of_beq hkey]
      exact Or.inl ⟨List.mem_cons_self, rfl⟩
    · next hkey =>
      have hne : key ≠ other := fun he => hkey (he ▸ BEq.rfl)
      rcases ih with ⟨hmem, hsame⟩ | ⟨hnew, hopened⟩
      · exact Or.inl ⟨List.mem_cons_of_mem _ hmem, congrArg (other :: ·) hsame⟩
      · refine Or.inr ⟨?_, congrArg (other :: ·) hopened⟩
        rw [List.map_cons, List.mem_cons]
        exact not_or.mpr ⟨hne, hnew⟩

theorem mem_keys_addAll {table : GroupTable κ α} {entries : List (κ × α)} {key : κ} :
    key ∈ (table.addAll entries).keys ↔ key ∈ table.keys ∨ key ∈ entries.map Prod.fst := by
  induction entries generalizing table with
  | nil => simp [addAll]
  | cons entry entries ih =>
    rw [addAll_cons, ih, List.map_cons, List.mem_cons, ← or_assoc]
    apply or_congr_left
    rcases keys_add_cases table entry.1 entry.2 with ⟨hmem, hsame⟩ | ⟨-, hopened⟩
    · rw [hsame]
      exact ⟨Or.inl, fun h => h.elim id (fun he => he ▸ hmem)⟩
    · rw [hopened, List.mem_append, List.mem_singleton]

theorem nodup_keys_addAll {table : GroupTable κ α} (h : table.keys.Nodup)
    (entries : List (κ × α)) : (table.addAll entries).keys.Nodup := by
  induction entries generalizing table with
  | nil => exact h
  | cons entry entries ih =>
    rw [addAll_cons]
    apply ih
    rcases keys_add_cases table entry.1 entry.2 with ⟨-, hsame⟩ | ⟨hnew, hopened⟩
    · rwa [hsame]
    · rw [hopened, List.nodup_append]
      refine ⟨h, List.nodup_singleton _, ?_⟩
      intro key hkey other hother he
      exact hnew (List.mem_singleton.mp hother ▸ he ▸ hkey)

end GroupTable

/-! ### Values under keys of their own -/

namespace GroupTable

variable {κ α : Type}

/-- The table in which each value stands under its own key. -/
def ofValues [BEq κ] (key : α → κ) (values : List α) : GroupTable κ α :=
  empty.addAll (values.map fun value => (key value, value))

theorem get_ofValues [BEq κ] [EquivBEq κ] (key : α → κ) (values : List α) (k : κ) :
    (ofValues key values).get k = values.filter fun value => key value == k := by
  rw [ofValues, get_addAll, List.filter_map, List.map_map]
  exact List.map_id _

/-- Every value is listed once, -/
theorem toList_ofValues_perm [BEq κ] (key : α → κ) (values : List α) :
    ((ofValues key values).toList.map Prod.snd).Perm values := by
  have hvalues := values_addAll_perm (empty : GroupTable κ α)
    (values.map fun value => (key value, value))
  rw [List.map_map, show (empty : GroupTable κ α).values = [] from rfl, List.append_nil] at hvalues
  rw [map_snd_toList]
  exact hvalues.trans (List.Perm.of_eq (List.map_id _))

/-- and with its own key. -/
theorem beq_of_mem_toList_ofValues [BEq κ] [ReflBEq κ] {key : α → κ} {values : List α} {entry : κ × α}
    (h : entry ∈ (ofValues key values).toList) : (entry.1 == key entry.2) = true := by
  rcases mem_toList_addAll h with hold | ⟨put, hput, hvalue, hkey⟩
  · cases hold
  · obtain ⟨value, -, rfl⟩ := List.mem_map.mp hput
    rw [hvalue]
    exact hkey

variable [BEq κ] [LawfulBEq κ] {key : α → κ} {values : List α}

theorem mem_keys_ofValues {k : κ} : k ∈ (ofValues key values).keys ↔ ∃ value ∈ values, key value = k := by
  rw [ofValues, mem_keys_addAll, List.map_map, List.mem_map]
  exact or_iff_right List.not_mem_nil

/-- There are as many groups as the values have keys. -/
theorem keyCount_ofValues [DecidableEq κ] (key : α → κ) (values : List α) :
    (ofValues key values).keyCount = (values.map key).dedup.length := by
  have hempty : (empty : GroupTable κ α).keys.Nodup := List.nodup_nil
  have hnodup : (ofValues key values).keys.Nodup := nodup_keys_addAll hempty _
  rw [← length_keys]
  apply List.Perm.length_eq
  apply (List.perm_ext_iff_of_nodup hnodup (List.nodup_dedup _)).mpr
  intro k
  rw [mem_keys_ofValues, List.mem_dedup, List.mem_map]

end GroupTable

end CrossIndex
