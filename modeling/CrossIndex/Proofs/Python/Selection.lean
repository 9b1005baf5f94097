import CrossIndex.Proofs.Python.Tokens
import CrossIndex.Proofs.Text.Column
import Mathlib.Data.List.Basic

/-!
Which tokens the search selects. From the end of the last token on it takes the leftmost token of any
term, of those at one place the longest, and goes on behind it. Main statement: as long as no term starts
with a delimiter, the search finds just this selection in every line, so that every token is found or
shares a character with one that is.
-/

namespace CrossIndex.Python

/-- One of the terms, of so many characters, stands in the line at the column, between delimiters or
the ends of the line. -/
def HasToken (terms : List String) (line : List Char) (column length : Nat) : Prop :=
  ∃ term ∈ terms, term ≠ "" ∧ term.length = length ∧ IsToken line term.toList column

/-- The spans are those of the leftmost token from the start on, the longest one there, and of the
selection behind it. -/
inductive Selects (terms : List String) (line : List Char) : Nat → List (Nat × Nat) → Prop where
  | done {start : Nat} (hnone : ∀ column length, start ≤ column → ¬HasToken terms line column length) :
      Selects terms line start []
  | next {start column length : Nat} {more : List (Nat × Nat)} (hstart : start ≤ column)
      (htoken : HasToken terms line column length)
      (hleftmost : ∀ earlier other, start ≤ earlier → HasToken terms line earlier other →
        column ≤ earlier)
      (hlongest : ∀ other, HasToken terms line column other → other ≤ length)
      (hmore : Selects terms line (column + length) more) :
      Selects terms line start ((column, column + length) :: more)

variable {terms : List String} {line before text : List Char} {start column length : Nat}
  {hits : List (Nat × Nat)}

namespace HasToken

theorem length_pos (h : HasToken terms line column length) : 0 < length := by
  obtain ⟨term, -, hne, rfl, -⟩ := h
  have hchars : term.toList ≠ [] := fun he => hne (String.toList_eq_nil_iff.mp he)
  rw [← String.length_toList]
  exact List.length_pos_iff.mpr hchars

theorem le_length (h : HasToken terms line column length) : column + length ≤ line.length := by
  obtain ⟨term, -, -, rfl, start, after, rfl, rfl, -, -⟩ := h
  rw [List.length_append, List.length_append, String.length_toList]
  omega

theorem not_at_end (hterms : ∀ term ∈ terms, ¬term.toList.head?.any isDelimiter = true)
    (h : HasToken terms line column length) (other : Nat) :
    ¬HasToken terms line (column + length) other := by
  rintro ⟨next, hnext, hne, -, start', after', hline', hcolumn', -, -⟩
  obtain ⟨term, -, -, hlength, start, after, hline, hcolumn, -, hafter⟩ := h
  have hsplit : (start ++ term.toList) ++ after = start' ++ (next.toList ++ after') := by
    rw [List.append_assoc, ← hline, hline']
  have hsame : (start ++ term.toList).length = start'.length := by
    rw [List.length_append, hcolumn, String.length_toList, hlength, hcolumn']
  obtain ⟨-, rfl⟩ := List.append_inj hsplit hsame
  -- its first character is the delimiter that ends the token before
  apply hterms next hnext
  cases hchars : next.toList with
  | nil => exact absurd (String.toList_eq_nil_iff.mp hchars) hne
  | cons c rest =>
    rw [hchars, List.cons_append, List.head?_cons, Option.all_some] at hafter
    rw [List.head?_cons, Option.any_some, hafter]

end HasToken

/-! ### The selection -/

/-- There is at most one selection. -/
theorem Selects.unique {other : List (Nat × Nat)} (h : Selects terms line start hits)
    (h' : Selects terms line start other) : hits = other := by
  induction h generalizing other with
  | done hnone =>
    cases h' with
    | done => rfl
    | next hstart htoken => exact absurd htoken (hnone _ _ hstart)
  | next hstart htoken hleftmost hlongest _ ih =>
    cases h' with
    | done hnone => exact absurd htoken (hnone _ _ hstart)
    | next hstart' htoken' hleftmost' hlongest' hmore' =>
      obtain rfl := Nat.le_antisymm (hleftmost _ _ hstart' htoken') (hleftmost' _ _ hstart htoken)
      obtain rfl := Nat.le_antisymm (hlongest' _ htoken) (hlongest _ htoken')
      rw [ih hmore']

theorem Selects.of_succ (h : Selects terms line (start + 1) hits)
    (hnone : ∀ length, ¬HasToken terms line start length) : Selects terms line start hits := by
  have hlater : ∀ {column length}, start ≤ column → HasToken terms line column length →
      start + 1 ≤ column := by
    intro column length hle htoken
    refine Nat.lt_of_le_of_ne hle ?_
    rintro rfl
    exact hnone length htoken
  cases h with
  | done hdone => exact .done fun column length hle htoken => hdone _ _ (hlater hle htoken) htoken
  | next hstart htoken hleftmost hlongest hmore =>
    refine .next (Nat.le_of_succ_le hstart) htoken ?_ hlongest hmore
    intro earlier other hle hother
    exact hleftmost earlier other (hlater hle hother) hother

/-- Every token from the start of a selection on shares a character with a selected one. -/
theorem Selects.exists_overlap (h : Selects terms line start hits)
    (htoken : HasToken terms line column length) (hle : start ≤ column) :
    ∃ hit ∈ hits, hit.1 < column + length ∧ column < hit.2 := by
  induction h with
  | done hnone => exact absurd htoken (hnone _ _ hle)
  | @next _ first size _ _ _ hleftmost _ _ ih =>
    have hfirst : first ≤ column := hleftmost _ _ hle htoken
    have hpos := htoken.length_pos
    by_cases hreach : column < first + size
    · exact ⟨_, List.mem_cons_self, by change first < column + length; omega, hreach⟩
    · obtain ⟨hit, hmem, hoverlap⟩ := ih (Nat.le_of_not_lt hreach)
      exact ⟨hit, List.mem_cons_of_mem _ hmem, hoverlap⟩

/-! ### The search -/

theorem searchOrder_pairwise (terms : List String) :
    (searchOrder terms).Pairwise fun a b => Text.byteLength b ≤ Text.byteLength a := by
  have hsorted : ((terms.filter (· ≠ "")).mergeSort fun a b =>
      b.utf8ByteSize ≤ a.utf8ByteSize).Pairwise fun a b => b.utf8ByteSize ≤ a.utf8ByteSize := by
    have hbool : ((terms.filter (· ≠ "")).mergeSort fun a b =>
        decide (b.utf8ByteSize ≤ a.utf8ByteSize)).Pairwise fun a b =>
          decide (b.utf8ByteSize ≤ a.utf8ByteSize) = true := by
      apply List.pairwise_mergeSort
      · intro a b c hab hbc
        simp only [decide_eq_true_eq] at *
        omega
      · intro a b
        simp only [Bool.or_eq_true, decide_eq_true_eq]
        omega
    exact hbool.imp of_decide_eq_true
  rw [searchOrder, List.pairwise_map]
  refine hsorted.imp ?_
  intro a b h
  rwa [Text.byteLength_toList, Text.byteLength_toList]

theorem length_le_of_byteLength_le {term other : List Char} (hterm : term <+: text)
    (hother : other <+: text) (h : Text.byteLength other ≤ Text.byteLength term) :
    other.length ≤ term.length := by
  -- the terms are ordered by bytes, but of two starts of one text the longer one has more of both
  rcases List.prefix_or_prefix_of_prefix hterm hother with ⟨more, rfl⟩ | hprefix
  · cases more with
    | nil => exact Nat.le_of_eq (congrArg List.length (List.append_nil term))
    | cons c more =>
      have hc := Char.utf8Size_pos c
      rw [Text.byteLength_append, Text.byteLength] at h
      omega
  · exact hprefix.length_le

def Fits (text term : List Char) : Prop :=
  ∃ after, text = term ++ after ∧ after.head?.all isDelimiter = true

theorem fits_iff {term : List Char} :
    Fits text term ↔
      (term.isPrefixOf text && (text.drop term.length).head?.all isDelimiter) = true := by
  rw [Bool.and_eq_true, List.isPrefixOf_iff_prefix]
  constructor
  · rintro ⟨after, rfl, hafter⟩
    rw [List.drop_left]
    exact ⟨List.prefix_append term after, hafter⟩
  · rintro ⟨⟨after, rfl⟩, hafter⟩
    rw [List.drop_left] at hafter
    exact ⟨after, rfl, hafter⟩

theorem length_le_of_termAt? {other : List Char}
    (h : termAt? (searchOrder terms) text = some length) (hmem : other ∈ searchOrder terms)
    (hother : Fits text other) : other.length ≤ length := by
  obtain ⟨term, hfind, rfl⟩ := Option.map_eq_some_iff.mp h
  obtain ⟨hterm, longer, shorter, hsplit, hlonger⟩ := List.find?_eq_some_iff_append.mp hfind
  obtain ⟨after, htext, -⟩ := fits_iff.mpr hterm
  obtain ⟨after', htext', -⟩ := id hother
  have hbytes : Text.byteLength other ≤ Text.byteLength term := by
    have hsorted := searchOrder_pairwise terms
    rw [hsplit] at hmem hsorted
    rcases List.mem_append.mp hmem with hbefore | hfrom
    · -- none of the terms that were tried before fits
      have hno := hlonger other hbefore
      rw [fits_iff.mp hother] at hno
      cases hno
    · rcases List.mem_cons.mp hfrom with rfl | hbehind
      · exact Nat.le_refl _
      · exact (List.pairwise_cons.mp (List.pairwise_append.mp hsorted).2.1).1 other hbehind
  exact length_le_of_byteLength_le ⟨after, htext.symm⟩ ⟨after', htext'.symm⟩ hbytes

theorem hasToken_iff (hopen : before.getLast?.all isDelimiter = true) :
    HasToken terms (before ++ text) before.length length ↔
      ∃ term ∈ searchOrder terms, term.length = length ∧ Fits text term := by
  constructor
  · rintro ⟨term, hterm, hne, rfl, start, after, hline, hcolumn, -, hafter⟩
    obtain ⟨-, rfl⟩ := List.append_inj hline hcolumn.symm
    exact ⟨term.toList, mem_searchOrder.mpr ⟨term, hterm, hne, rfl⟩, String.length_toList, after, rfl,
      hafter⟩
  · rintro ⟨chars, hmem, rfl, after, rfl, hafter⟩
    obtain ⟨term, hterm, hne, rfl⟩ := mem_searchOrder.mp hmem
    exact ⟨term, hterm, hne, String.length_toList.symm, before, after, rfl, rfl, hopen, hafter⟩

theorem not_hasToken_of_not_open (hopen : ¬before.getLast?.all isDelimiter = true) :
    ¬HasToken terms (before ++ text) before.length length := by
  rintro ⟨term, -, -, -, start, after, hline, hcolumn, hstart, -⟩
  obtain ⟨rfl, -⟩ := List.append_inj hline hcolumn.symm
  exact hopen hstart

theorem longest_of_termAt? (hopen : before.getLast?.all isDelimiter = true)
    (h : termAt? (searchOrder terms) text = some length) :
    HasToken terms (before ++ text) before.length length ∧
      ∀ other, HasToken terms (before ++ text) before.length other → other ≤ length := by
  constructor
  · obtain ⟨term, hmem, after, htext, hafter, rfl⟩ := exists_of_termAt? h
    exact (hasToken_iff hopen).mpr ⟨term, hmem, rfl, after, htext, hafter⟩
  · intro other hother
    obtain ⟨term, hmem, rfl, hfits⟩ := (hasToken_iff hopen).mp hother
    exact length_le_of_termAt? h hmem hfits

theorem not_hasToken_of_termAt? (hopen : before.getLast?.all isDelimiter = true)
    (h : termAt? (searchOrder terms) text = none) :
    ¬HasToken terms (before ++ text) before.length length := by
  intro htoken
  obtain ⟨term, hmem, -, after, rfl, hafter⟩ := (hasToken_iff hopen).mp htoken
  obtain ⟨found, hfound⟩ := exists_termAt? hmem hafter
  rw [hfound] at h
  cases h

/-- Behind the start of a line the search selects from the column behind what it has passed on. -/
theorem selects_tokensFrom (hterms : ∀ term ∈ terms, ¬term.toList.head?.any isDelimiter = true)
    (before text : List Char) (skip : Nat) :
    Selects terms (before ++ text) (before.length + skip + 1)
      (tokensFrom (searchOrder terms) before.length skip false text) := by
  induction text generalizing before skip with
  | nil =>
    refine .done fun column length hle htoken => ?_
    have hpos := htoken.length_pos
    have hend := htoken.le_length
    rw [List.append_nil] at hend
    omega
  | cons c rest ih =>
    have hline : (before ++ [c]) ++ rest = before ++ c :: rest := List.append_cons before c rest ▸ rfl
    have hlength : (before ++ [c]).length = before.length + 1 := List.length_append
    have hnext : ∀ skip, Selects terms (before ++ c :: rest) (before.length + 1 + skip + 1)
        (tokensFrom (searchOrder terms) (before.length + 1) skip false rest) := by
      intro skip
      have hrest := ih (before ++ [c]) skip
      rwa [hline, hlength] at hrest
    by_cases hskip : 0 < skip
    · -- inside of the last token
      rw [tokensFrom, if_pos hskip]
      have hpassed : before.length + 1 + (skip - 1) + 1 = before.length + skip + 1 := by omega
      exact hpassed ▸ hnext (skip - 1)
    · obtain rfl : skip = 0 := Nat.eq_zero_of_not_pos hskip
      rw [tokensFrom, if_neg hskip]
      -- nothing starts at the next column unless the character is a delimiter
      cases hfound : (if isDelimiter c then termAt? (searchOrder terms) rest else none) with
      | none =>
        have hnone : ∀ length, ¬HasToken terms (before ++ c :: rest) (before.length + 1) length := by
          intro length
          rw [← hline, ← hlength]
          by_cases hc : isDelimiter c = true
          · rw [if_pos hc] at hfound
            exact not_hasToken_of_termAt? (by rwa [List.getLast?_concat]) hfound
          · exact not_hasToken_of_not_open (by rwa [List.getLast?_concat])
        exact (hnext 0).of_succ hnone
      | some length =>
        obtain ⟨hc, hterm⟩ : isDelimiter c = true ∧
            termAt? (searchOrder terms) rest = some length := by
          by_cases hc : isDelimiter c = true
          · exact ⟨hc, by rwa [if_pos hc] at hfound⟩
          · rw [if_neg hc] at hfound
            cases hfound
        have hopen : (before ++ [c]).getLast?.all isDelimiter = true := by rwa [List.getLast?_concat]
        obtain ⟨htoken, hlongest⟩ := longest_of_termAt? hopen hterm
        rw [hline, hlength] at htoken hlongest
        -- the search goes on one column behind the end of the token, at which no token starts
        have hmore := (hnext length).of_succ (htoken.not_at_end hterms)
        exact .next (Nat.le_refl _) htoken (fun _ _ hle _ => hle) hlongest hmore

theorem selects_tokens (hterms : ∀ term ∈ terms, ¬term.toList.head?.any isDelimiter = true)
    (line : List Char) : Selects terms line 0 (tokensFrom (searchOrder terms) 0 0 true line) := by
  have hbehind : Selects terms line 1 (tokensFrom (searchOrder terms) 0 0 false line) :=
    selects_tokensFrom hterms [] line 0
  cases line with
  | nil =>
    refine .done fun column length _ htoken => ?_
    have hpos := htoken.length_pos
    have hend : column + length ≤ 0 := htoken.le_length
    omega
  | cons c rest =>
    -- the start of the line opens a token just as a delimiter does
    have hopen : ([] : List Char).getLast?.all isDelimiter = true := rfl
    cases hterm : termAt? (searchOrder terms) (c :: rest) with
    | none =>
      have hsame : tokensFrom (searchOrder terms) 0 0 true (c :: rest) =
          tokensFrom (searchOrder terms) 0 0 false (c :: rest) := by
        simp [tokensFrom, hterm]
      rw [hsame]
      exact hbehind.of_succ fun length => not_hasToken_of_termAt? hopen hterm
    | some length =>
      obtain ⟨htoken, hlongest⟩ := longest_of_termAt? hopen hterm
      have hmore := selects_tokensFrom hterms [c] rest (length - 1)
      have hend : 1 + (length - 1) + 1 = 0 + length + 1 := by
        have hpos := htoken.length_pos
        omega
      rw [List.length_singleton, hend] at hmore
      have hrest := hmore.of_succ (htoken.not_at_end hterms)
      have hfirst : tokensFrom (searchOrder terms) 0 0 true (c :: rest) =
          (0, 0 + length) :: tokensFrom (searchOrder terms) 1 (length - 1) false rest := by
        simp [tokensFrom, hterm]
      rw [hfirst]
      exact .next (Nat.le_refl 0) htoken (fun _ _ hle _ => hle) hlongest hrest

/-- Unless a term starts with a delimiter, the search finds the greedy selection of every line, in the
order of the lines. Every token is found or shares a character with a find, and the finds are apart. -/
theorem findTokens_selects (hterms : ∀ term ∈ terms, ¬term.toList.head?.any isDelimiter = true)
    (lines : List String) :
    (∀ line : String, ∃ found, Selects terms line.toList 0 found) ∧
      (∀ hits : String → List (Nat × Nat),
        (∀ line ∈ lines, Selects terms line.toList 0 (hits line)) →
          findTokens lines terms = lines.zipIdx.flatMap fun (line, index) =>
            (hits line).map fun (first, last) => Range.onLine index first last) ∧
      (∀ (index : Nat) (line : String) (column length : Nat), lines[index]? = some line →
        HasToken terms line.toList column length →
          ∃ range ∈ findTokens lines terms, range.start.line = index ∧ range.stop.line = index ∧
            range.start.column < column + length ∧ column < range.stop.column) ∧
      (findTokens lines terms).Pairwise Range.Precedes := by
  refine ⟨?_, ?_, ?_, findTokens_pairwise lines terms⟩
  · exact fun line => ⟨_, selects_tokens hterms line.toList⟩
  · intro hits hselects
    have hsame : ∀ pair ∈ lines.zipIdx,
        tokensFrom (searchOrder terms) 0 0 true pair.1.toList = hits pair.1 := by
      intro pair hmem
      exact (selects_tokens hterms pair.1.toList).unique
        (hselects pair.1 (List.fst_mem_of_mem_zipIdx hmem))
    rw [findTokens]
    refine List.flatMap_congr ?_
    rintro ⟨line, index⟩ hmem
    exact congrArg _ (hsame (line, index) hmem)
  · intro index line column length hline htoken
    obtain ⟨hit, hmem, hoverlap⟩ :=
      (selects_tokens hterms line.toList).exists_overlap htoken (Nat.zero_le column)
    exact ⟨_, mem_findTokens.mpr ⟨line, index, hline, hit, hmem, rfl⟩, rfl, rfl, hoverlap⟩

/-- The longest term that fits wins over a term that it begins with, and over one that begins inside of
it. Where it runs on the shorter term is found, and one delimiter ends a find and opens the next. -/
theorem findTokens_selects_competing :
    let terms := ["a.b", "", "b.c", "a"]
    findTokens ["a.b.c(a a.bc"] terms = [.onLine 0 0 3, .onLine 0 6 7, .onLine 0 8 9] ∧
      Selects terms "a.b.c(a a.bc".toList 0 [(0, 3), (6, 7), (8, 9)] := by
  intro terms
  have hterms : ∀ term ∈ terms, ¬term.toList.head?.any isDelimiter = true := by decide
  have hsorted : (terms.filter (· ≠ "")).Pairwise fun a b =>
      decide (b.utf8ByteSize ≤ a.utf8ByteSize) = true := by
    decide
  have horder : searchOrder terms = ["a.b".toList, "b.c".toList, "a".toList] := by
    rw [searchOrder, List.mergeSort_of_pairwise hsorted]
    rfl
  have htokens : findTokens ["a.b.c(a a.bc"] terms =
      [.onLine 0 0 3, .onLine 0 6 7, .onLine 0 8 9] := by
    rw [findTokens, horder]
    decide +kernel
  obtain ⟨hexists, hfind, -, -⟩ := findTokens_selects hterms ["a.b.c(a a.bc"]
  obtain ⟨found, hfound⟩ := hexists "a.b.c(a a.bc"
  have hranges := hfind (fun _ => found) fun line hmem => List.mem_singleton.mp hmem ▸ hfound
  have hspans : found.map (fun (first, last) => Range.onLine 0 first last) =
      [(0, 3), (6, 7), (8, 9)].map fun (first, last) => Range.onLine 0 first last := by
    simpa [htokens] using hranges.symm
  have hinjective : Function.Injective fun span : Nat × Nat => Range.onLine 0 span.1 span.2 := by
    rintro ⟨a, b⟩ ⟨c, d⟩ h
    cases h
    rfl
  rw [← List.map_injective_iff.mpr hinjective hspans]
  exact ⟨htokens, hfound⟩

end CrossIndex.Python
