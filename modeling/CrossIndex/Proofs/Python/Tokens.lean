import CrossIndex.Python.TokenSearch

/-!
What the search for tokens finds. Main statements: everything found is one of the terms between
delimiters, and where such a term stands something is found that reaches it, be it a longer term or
one that began before. What is found comes in the order of the text, and no two finds overlap.
-/

namespace CrossIndex

namespace Range

/-- The position lies in the range, of which the end is no part. -/
def Holds (r : Range) (p : Position) : Prop := r.start ≤ p ∧ ¬r.stop ≤ p

/-- The range starts before the other one, and no position lies in both. -/
structure Precedes (a b : Range) : Prop where
  start : compare a.start b.start = .lt
  apart : ∀ p, ¬(a.Holds p ∧ b.Holds p)

theorem precedes_onLine {line line' first last first' last' : Nat}
    (h : line < line' ∨ line = line' ∧ first < last ∧ last < first') :
    (onLine line first last).Precedes (onLine line' first' last') := by
  constructor
  case start =>
    change (compare line line').then (compare first first') = .lt
    rcases h with hlt | ⟨rfl, hfirst, hlast⟩
    · rw [Nat.compare_eq_lt.mpr hlt]
      rfl
    · rw [Nat.compare_eq_eq.mpr rfl, Nat.compare_eq_lt.mpr (Nat.lt_trans hfirst hlast)]
      rfl
  case apart =>
    rintro p ⟨⟨-, hbefore⟩, hfrom, -⟩
    simp only [onLine, Position.le_def] at hbefore hfrom
    omega

end Range

namespace Python

/-- The term stands in the line at the column, between delimiters or the ends of the line. -/
def IsToken (line term : List Char) (column : Nat) : Prop :=
  ∃ before after, line = before ++ (term ++ after) ∧ before.length = column ∧
    before.getLast?.all isDelimiter = true ∧ after.head?.all isDelimiter = true

variable {terms : List (List Char)} {term before text after : List Char} {length : Nat}

theorem exists_of_termAt? (h : termAt? terms text = some length) :
    ∃ term ∈ terms, ∃ after, text = term ++ after ∧ after.head?.all isDelimiter = true ∧
      length = term.length := by
  obtain ⟨term, hfind, rfl⟩ := Option.map_eq_some_iff.mp h
  have hfits := List.find?_some hfind
  rw [Bool.and_eq_true] at hfits
  obtain ⟨after, rfl⟩ := List.isPrefixOf_iff_prefix.mp hfits.1
  rw [List.drop_left] at hfits
  exact ⟨term, List.mem_of_find?_eq_some hfind, after, rfl, hfits.2, rfl⟩

theorem exists_termAt? (h : term ∈ terms) (hafter : after.head?.all isDelimiter = true) :
    ∃ length, termAt? terms (term ++ after) = some length := by
  have hfits : (term.isPrefixOf (term ++ after) &&
      ((term ++ after).drop term.length).head?.all isDelimiter) = true := by
    rw [List.drop_left, Bool.and_eq_true]
    exact ⟨List.isPrefixOf_iff_prefix.mpr (List.prefix_append _ _), hafter⟩
  have hsome : (termAt? terms (term ++ after)).isSome = true := by
    rw [termAt?, Option.isSome_map, List.find?_isSome]
    exact ⟨term, h, hfits⟩
  exact Option.isSome_iff_exists.mp hsome

/-- Everything found in the rest of a line is a token of the line. -/
theorem isToken_of_mem_tokensFrom {skip : Nat} {atStart : Bool} {hit : Nat × Nat}
    (hstart : atStart = true → before = [])
    (h : hit ∈ tokensFrom terms before.length skip atStart text) :
    ∃ term ∈ terms, IsToken (before ++ text) term hit.1 ∧ hit.2 = hit.1 + term.length := by
  induction text generalizing before skip atStart with
  | nil => cases h
  | cons c rest ih =>
    -- what is found behind the first character is found there with one character more before it
    have hnext : ∀ {skip : Nat}, hit ∈ tokensFrom terms (before.length + 1) skip false rest →
        ∃ term ∈ terms, IsToken (before ++ c :: rest) term hit.1 ∧ hit.2 = hit.1 + term.length := by
      intro skip hrest
      rw [← List.length_concat, List.concat_eq_append] at hrest
      have hfound := ih (fun h => by cases h) hrest
      rwa [List.append_assoc, List.singleton_append] at hfound
    rw [tokensFrom] at h
    split at h
    · exact hnext h
    · split at h
      · next length hterm =>
        split at hterm
        · next hs =>
          obtain ⟨term, hmem, after, htext, hafter, rfl⟩ := exists_of_termAt? hterm
          rcases List.mem_cons.mp h with rfl | hrest
          · refine ⟨term, hmem, ⟨before, after, by rw [htext], rfl, ?_, hafter⟩, rfl⟩
            rw [hstart hs]
            rfl
          · exact hnext hrest
        · cases hterm
      · split at h
        · next length hterm =>
          split at hterm
          · next hdelimiter =>
            obtain ⟨term, hmem, after, rfl, hafter, rfl⟩ := exists_of_termAt? hterm
            rcases List.mem_cons.mp h with rfl | hrest
            · refine ⟨term, hmem, ⟨before ++ [c], after, by simp, by simp, ?_, hafter⟩, rfl⟩
              rw [List.getLast?_concat]
              exact hdelimiter
            · exact hnext hrest
          · cases hterm
        · exact hnext h

/-- The search goes on behind what it has passed. -/
theorem lt_of_mem_tokensFrom {column skip : Nat} {hit : Nat × Nat}
    (h : hit ∈ tokensFrom terms column skip false text) : column + skip < hit.1 := by
  induction text generalizing column skip with
  | nil => cases h
  | cons c rest ih =>
    rw [tokensFrom] at h
    split at h
    · next hskip =>
      have hrest := ih h
      omega
    · split at h
      · next hterm => cases hterm
      · split at h
        · next length hterm =>
          rcases List.mem_cons.mp h with rfl | hmem
          · change column + skip < column + 1
            omega
          · have hrest := ih hmem
            omega
        · have hrest := ih h
          omega

/-- Between two tokens stands at least the delimiter that opens the second one. -/
theorem tokensFrom_pairwise (hterms : ∀ t ∈ terms, t ≠ []) (column skip : Nat) (atStart : Bool)
    (text : List Char) :
    (tokensFrom terms column skip atStart text).Pairwise fun a b => a.2 < b.1 := by
  have hpos : ∀ {text : List Char} {length : Nat}, termAt? terms text = some length →
      0 < length := by
    intro text length h
    obtain ⟨found, hfound, -, -, -, rfl⟩ := exists_of_termAt? h
    exact List.length_pos_iff.mpr (hterms found hfound)
  induction text generalizing column skip atStart with
  | nil => exact List.Pairwise.nil
  | cons c rest ih =>
    rw [tokensFrom]
    split
    · exact ih _ _ _
    · split
      · next length hterm =>
        split at hterm
        · -- all but the first character of the token are still to be passed
          have hlength := hpos hterm
          refine List.pairwise_cons.mpr ⟨?_, ih _ _ _⟩
          intro later hlater
          have hafter := lt_of_mem_tokensFrom hlater
          change column + length < later.1
          omega
        · cases hterm
      · split
        · refine List.pairwise_cons.mpr ⟨?_, ih _ _ _⟩
          intro later hlater
          exact lt_of_mem_tokensFrom hlater
        · exact ih _ _ _

/-- A token that the search has not passed yet is reached by something that it finds. -/
theorem exists_reaching {skip : Nat} {atStart : Bool} {start : List Char}
    (hterms : ∀ t ∈ terms, t ≠ []) (hmem : term ∈ terms)
    (hline : before ++ text = start ++ (term ++ after))
    (hbefore : start.getLast?.all isDelimiter = true) (hafter : after.head?.all isDelimiter = true)
    (hahead : before.length + skip < start.length ∨
      before = start ∧ skip = 0 ∧ atStart = true) :
    ∃ hit ∈ tokensFrom terms before.length skip atStart text,
      hit.1 ≤ start.length ∧ start.length ≤ hit.2 := by
  induction text generalizing before skip atStart with
  | nil =>
    -- there is no room left for the token
    have hlength := congrArg List.length hline
    simp only [List.append_nil, List.length_append] at hlength
    have hpos : 0 < term.length := List.length_pos_iff.mpr (hterms term hmem)
    rcases hahead with hlate | ⟨rfl, -⟩
    · omega
    · omega
  | cons c rest ih =>
    have hnext : ∀ {skip : Nat}, before.length + 1 + skip < start.length →
        ∃ hit ∈ tokensFrom terms (before.length + 1) skip false rest,
          hit.1 ≤ start.length ∧ start.length ≤ hit.2 := by
      intro skip hlate
      have hlength : before.length + 1 = (before ++ [c]).length := by simp
      rw [hlength] at hlate ⊢
      exact ih (by rw [List.append_assoc, List.singleton_append, hline]) (Or.inl hlate)
    -- what is found first reaches the token, or ends before the delimiter that opens the token
    have hfirst : ∀ {first last skip : Nat}, first ≤ start.length →
        (last < start.length → before.length + 1 + skip < start.length) →
        ∃ hit ∈ (first, last) :: tokensFrom terms (before.length + 1) skip false rest,
          hit.1 ≤ start.length ∧ start.length ≤ hit.2 := by
      intro first last skip hle hlast
      by_cases hreach : start.length ≤ last
      · exact ⟨_, List.mem_cons_self, hle, hreach⟩
      · obtain ⟨hit, hhit, hreaches⟩ := hnext (hlast (Nat.lt_of_not_le hreach))
        exact ⟨hit, List.mem_cons_of_mem _ hhit, hreaches⟩
    have hsome : ∀ {text : List Char} {length : Nat}, termAt? terms text = some length →
        0 < length := by
      intro text length h
      obtain ⟨found, hfound, -, -, -, rfl⟩ := exists_of_termAt? h
      exact List.length_pos_iff.mpr (hterms found hfound)
    rw [tokensFrom]
    split
    · next hskip =>
      obtain hlate | ⟨-, rfl, -⟩ := hahead
      · exact hnext (by omega)
      · exact absurd hskip (Nat.lt_irrefl 0)
    · next hskip =>
      split
      · next length hterm =>
        split at hterm
        · have hpos := hsome hterm
          have hle : before.length ≤ start.length := by
            rcases hahead with hlate | ⟨rfl, -⟩
            · omega
            · exact Nat.le_refl _
          exact hfirst hle (by omega)
        · cases hterm
      · next hnone =>
        have hlate : before.length < start.length := by
          rcases hahead with hlate | ⟨rfl, -, rfl⟩
          · omega
          · -- at the start of the line the token itself would have been found
            rw [List.append_cancel_left_eq] at hline
            obtain ⟨length, hlength⟩ := exists_termAt? hmem hafter
            rw [if_pos rfl, hline, hlength] at hnone
            cases hnone
        split
        · next length hterm =>
          exact hfirst hlate (by omega)
        · next hnone' =>
          have hlater : before.length + 1 ≠ start.length := by
            intro heq
            -- here the character is the delimiter that opens the token
            have hopen : before ++ [c] = start ∧ rest = term ++ after := by
              rw [← List.singleton_append, ← List.append_assoc] at hline
              exact List.append_inj hline (by rw [List.length_append]; exact heq)
            obtain ⟨rfl, rfl⟩ := hopen
            rw [List.getLast?_concat, Option.all_some] at hbefore
            obtain ⟨length, hlength⟩ := exists_termAt? hmem hafter
            rw [if_pos hbefore, hlength] at hnone'
            cases hnone'
          exact hnext (by omega)

theorem mem_searchOrder {terms : List String} :
    term ∈ searchOrder terms ↔ ∃ text ∈ terms, text ≠ "" ∧ text.toList = term := by
  simp [searchOrder, and_assoc]

theorem ne_nil_of_mem_searchOrder {terms : List String} (h : term ∈ searchOrder terms) :
    term ≠ [] := by
  obtain ⟨text, -, hne, rfl⟩ := mem_searchOrder.mp h
  simpa using hne

variable {lines : List String} {range : Range}

theorem mem_findTokens {terms : List String} :
    range ∈ findTokens lines terms ↔
      ∃ line index, lines[index]? = some line ∧
        ∃ hit ∈ tokensFrom (searchOrder terms) 0 0 true line.toList,
          range = .onLine index hit.1 hit.2 := by
  simp only [findTokens, List.mem_flatMap, List.mem_map, Prod.exists]
  constructor
  · rintro ⟨line, index, hline, first, last, hhit, rfl⟩
    exact ⟨line, index, List.mem_zipIdx_iff_getElem?.mp hline, first, last, hhit, rfl⟩
  · rintro ⟨line, index, hline, first, last, hhit, rfl⟩
    exact ⟨line, index, List.mem_zipIdx_iff_getElem?.mpr hline, first, last, hhit, rfl⟩

/-- What is found comes line by line, and in a line from left to right. -/
theorem findTokens_pairwise (lines terms : List String) :
    (findTokens lines terms).Pairwise fun a b => a.Precedes b := by
  have hterms : ∀ t ∈ searchOrder terms, t ≠ [] := fun _ => ne_nil_of_mem_searchOrder
  have hnonempty : ∀ (line : String), ∀ hit ∈ tokensFrom (searchOrder terms) 0 0 true line.toList,
      hit.1 < hit.2 := by
    intro line hit h
    obtain ⟨term, hterm, -, hlength⟩ := isToken_of_mem_tokensFrom (fun _ => rfl)
      (show hit ∈ tokensFrom _ ([] : List Char).length 0 true _ from h)
    have hpos := List.length_pos_iff.mpr (hterms term hterm)
    omega
  rw [findTokens, List.pairwise_flatMap]
  constructor
  · -- in one line
    rintro ⟨line, index⟩ -
    rw [List.pairwise_map]
    refine (tokensFrom_pairwise hterms 0 0 true line.toList).imp_of_mem ?_
    intro a b ha hb hab
    exact Range.precedes_onLine (Or.inr ⟨rfl, hnonempty line a ha, hab⟩)
  · -- in two lines
    have hlines : lines.zipIdx.Pairwise fun a b => a.2 < b.2 := by
      have hindices : (lines.zipIdx.map Prod.snd).Pairwise (· < ·) := by
        rw [List.zipIdx_map_snd]
        exact List.pairwise_lt_range'
      exact List.pairwise_map.mp hindices
    refine hlines.imp ?_
    rintro ⟨line, index⟩ ⟨other, index'⟩ hlt r hr r' hr'
    obtain ⟨hit, -, rfl⟩ := List.mem_map.mp hr
    obtain ⟨hit', -, rfl⟩ := List.mem_map.mp hr'
    exact Range.precedes_onLine (Or.inl hlt)

/-- Where a term alone is found, something is found as well when there are more terms. -/
theorem exists_touching {term : String} {terms : List String} (h : range ∈ findTokens lines [term])
    (hterm : term ∈ terms) : ∃ other ∈ findTokens lines terms, other.touches range.start = true := by
  obtain ⟨line, index, hline, hit, hhit, rfl⟩ := mem_findTokens.mp h
  obtain ⟨found, hfound, ⟨start, after, htext, hcolumn, hbefore, hafter⟩, -⟩ :=
    isToken_of_mem_tokensFrom (fun _ => rfl)
      (show hit ∈ tokensFrom _ ([] : List Char).length 0 true _ from hhit)
  obtain ⟨text, htexts, hne, rfl⟩ := mem_searchOrder.mp hfound
  have hmem : text.toList ∈ searchOrder terms := by
    rw [List.mem_singleton.mp htexts] at hne ⊢
    exact mem_searchOrder.mpr ⟨term, hterm, hne, rfl⟩
  have hahead : ([] : List Char).length + 0 < start.length ∨
      [] = start ∧ 0 = 0 ∧ true = true := by
    rcases start with - | ⟨c, rest⟩
    · exact Or.inr ⟨rfl, rfl, rfl⟩
    · exact Or.inl (by simp)
  obtain ⟨other, hother, hle, hreach⟩ :=
    exists_reaching (fun _ => ne_nil_of_mem_searchOrder) hmem htext hbefore hafter hahead
  refine ⟨_, mem_findTokens.mpr ⟨line, index, hline, other, hother, rfl⟩, ?_⟩
  rw [hcolumn] at hle hreach
  simp [Range.touches, Range.onLine, Position.le_def, hle, hreach]

end Python

end CrossIndex
