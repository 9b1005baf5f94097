import CrossIndex.Text.Split

/-!
The pieces of a text. Their characters are those of the text without the separator, a text that goes on
after a separator only gets more pieces, and pieces that are joined are found again.
-/

namespace CrossIndex.Text

/-- The characters of a piece come from the text, and the separator is none of them. -/
theorem mem_of_mem_splitOn {separator c : Char} {text piece : List Char}
    (hp : piece ∈ splitOn separator text) (hc : c ∈ piece) : c ∈ text ∧ c ≠ separator := by
  induction text generalizing piece with
  | nil =>
    rw [splitOn_nil, List.mem_singleton] at hp
    subst hp
    cases hc
  | cons first text ih =>
    rw [splitOn_cons] at hp
    split at hp
    · rcases List.mem_cons.mp hp with rfl | hmem
      · cases hc
      · exact ⟨List.mem_cons_of_mem _ (ih hmem hc).1, (ih hmem hc).2⟩
    · next hne =>
      -- the character goes to the first piece, and no other piece changes
      cases hs : splitOn separator text with
      | nil => exact absurd hs (splitOn_ne_nil separator text)
      | cons head tail =>
        rw [hs] at hp ih
        rcases List.mem_cons.mp hp with rfl | hmem
        · rcases List.mem_cons.mp hc with rfl | hin
          · exact ⟨List.mem_cons_self, hne⟩
          · have hih := ih List.mem_cons_self hin
            exact ⟨List.mem_cons_of_mem _ hih.1, hih.2⟩
        · have hih := ih (List.mem_cons_of_mem _ hmem) hc
          exact ⟨List.mem_cons_of_mem _ hih.1, hih.2⟩

theorem mem_joinWith {separator c : Char} {parts : List (List Char)}
    (h : c ∈ joinWith separator parts) : c = separator ∨ ∃ part ∈ parts, c ∈ part := by
  induction parts with
  | nil => cases h
  | cons part more ih =>
    cases more with
    | nil => exact Or.inr ⟨part, List.mem_cons_self, h⟩
    | cons next more =>
      change c ∈ part ++ separator :: joinWith separator (next :: more) at h
      rw [List.mem_append, List.mem_cons] at h
      rcases h with hpart | rfl | hmore
      · exact Or.inr ⟨part, List.mem_cons_self, hpart⟩
      · exact Or.inl rfl
      · rcases ih hmore with hc | ⟨other, hother, hmem⟩
        · exact Or.inl hc
        · exact Or.inr ⟨other, List.mem_cons_of_mem _ hother, hmem⟩

/-- What stands before the first separator is the first piece. -/
theorem splitOn_append {separator : Char} {start : List Char} (h : separator ∉ start)
    (text : List Char) :
    splitOn separator (start ++ separator :: text) = start :: splitOn separator text := by
  induction start with
  | nil => rw [List.nil_append, splitOn_cons, if_pos rfl]
  | cons c start ih =>
    have hne : ¬c = separator := fun he => h (he ▸ List.mem_cons_self)
    rw [List.cons_append, splitOn_cons, if_neg hne, ih fun hm => h (List.mem_cons_of_mem _ hm)]

theorem splitOn_of_not_mem {separator : Char} {text : List Char} (h : separator ∉ text) :
    splitOn separator text = [text] := by
  induction text with
  | nil => rfl
  | cons c text ih =>
    have hne : ¬c = separator := fun he => h (he ▸ List.mem_cons_self)
    rw [splitOn_cons, if_neg hne, ih fun hm => h (List.mem_cons_of_mem _ hm)]

/-- What is put before a text goes to its first piece. -/
theorem exists_splitOn_append_left {separator : Char} {start : List Char} (h : separator ∉ start)
    (text : List Char) :
    ∃ first more, splitOn separator text = first :: more ∧
      splitOn separator (start ++ text) = (start ++ first) :: more := by
  induction start with
  | nil =>
    obtain ⟨first, more, hsplit⟩ := List.exists_cons_of_ne_nil (splitOn_ne_nil separator text)
    exact ⟨first, more, hsplit, hsplit⟩
  | cons c start ih =>
    obtain ⟨first, more, hsplit, hstart⟩ := ih fun hm => h (List.mem_cons_of_mem _ hm)
    have hne : ¬c = separator := fun he => h (he ▸ List.mem_cons_self)
    refine ⟨first, more, hsplit, ?_⟩
    rw [List.cons_append, splitOn_cons, if_neg hne, hstart]
    rfl

/-- What is put behind a text goes to its last piece. -/
theorem exists_splitOn_append_right {separator : Char} {stop : List Char} (h : separator ∉ stop)
    (text : List Char) :
    ∃ pieces last, splitOn separator text = pieces ++ [last] ∧
      splitOn separator (text ++ stop) = pieces ++ [last ++ stop] := by
  induction text with
  | nil => exact ⟨[], [], rfl, splitOn_of_not_mem h⟩
  | cons c text ih =>
    obtain ⟨pieces, last, hsplit, hstop⟩ := ih
    rw [List.cons_append, splitOn_cons, splitOn_cons, hsplit, hstop]
    by_cases hc : c = separator
    · rw [if_pos hc, if_pos hc]
      exact ⟨[] :: pieces, last, rfl, rfl⟩
    · rw [if_neg hc, if_neg hc]
      cases pieces with
      | nil => exact ⟨[], c :: last, rfl, rfl⟩
      | cons piece pieces => exact ⟨(c :: piece) :: pieces, last, rfl, rfl⟩

theorem mem_of_mem_pieces {separator c : Char} {text piece : String}
    (hp : piece ∈ pieces separator text) (hc : c ∈ piece.toList) : c ∈ text.toList ∧ c ≠ separator := by
  obtain ⟨chars, hmem, rfl⟩ := List.mem_map.mp hp
  rw [String.toList_ofList] at hc
  exact mem_of_mem_splitOn hmem hc

theorem pieces_ne_nil (separator : Char) (text : String) : pieces separator text ≠ [] := by
  rw [pieces, ne_eq, List.map_eq_nil_iff]
  exact splitOn_ne_nil separator text.toList

theorem pieces_of_not_mem {separator : Char} {text : String} (h : separator ∉ text.toList) :
    pieces separator text = [text] := by
  rw [pieces, splitOn_of_not_mem h, List.map_singleton, String.ofList_toList]

theorem pieces_append {separator : Char} {start : String} (h : separator ∉ start.toList)
    (text : String) :
    pieces separator (start ++ String.singleton separator ++ text) =
      start :: pieces separator text := by
  have hchars : (start ++ String.singleton separator ++ text).toList =
      start.toList ++ separator :: text.toList := by simp
  rw [pieces, hchars, splitOn_append h, List.map_cons, String.ofList_toList, pieces]

/-- Pieces that are joined are found again. -/
theorem pieces_intercalate {separator : Char} {parts : List String} (hne : parts ≠ [])
    (h : ∀ part ∈ parts, separator ∉ part.toList) :
    pieces separator ((String.singleton separator).intercalate parts) = parts := by
  induction parts with
  | nil => exact absurd rfl hne
  | cons first more ih =>
    cases more with
    | nil => rw [String.intercalate_singleton, pieces_of_not_mem (h first List.mem_cons_self)]
    | cons second rest =>
      rw [String.intercalate_cons_cons, pieces_append (h first List.mem_cons_self),
        ih (List.cons_ne_nil second rest) fun part hp => h part (List.mem_cons_of_mem _ hp)]

end CrossIndex.Text
