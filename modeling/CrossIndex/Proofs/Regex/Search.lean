import CrossIndex.Proofs.Regex.Ways

/-!
Searches. A search takes the leftmost place from which an expression has a way, and a repeated search goes
on at the end of each match. Main statements: an expression that reads items from the start of a text finds
just these; every match of a text is a span of it; and where no match is empty the matches of a text are just
the leftmost ones, each from the end of the one before it on.
-/

namespace CrossIndex

open Cursor

namespace Regex

variable {r : Regex} {rounds : Nat} {passed rest : List Char} {m : Match}

theorem Way.behind {text : List Char} {captures : Captures} {t : Stage}
    (h : r.Way (behind passed text, captures) t) :
    ∃ chars rest, text = chars ++ rest ∧ t.1 = behind (passed ++ chars) rest :=
  reaches_behind_iff.mp h.reaches

/-- From no place of the text that is left the expression has a way. -/
def Fails (r : Regex) (passed rest : List Char) : Prop :=
  ∀ skipped more, rest = skipped ++ more → ∀ t, ¬r.Way (behind (passed ++ skipped) more, []) t

/-- The match follows a way from a place of the text that is left, before which so much is skipped. -/
def Finds (r : Regex) (passed rest skipped : List Char) (m : Match) : Prop :=
  ∃ more, rest = skipped ++ more ∧ m.start = (passed ++ skipped).length ∧
    r.Way (behind (passed ++ skipped) more, []) (m.stop, m.captures)

/-- No way starts further to the left. -/
def Leftmost (r : Regex) (passed rest skipped : List Char) : Prop :=
  ∀ fewer more, rest = fewer ++ more → fewer.length < skipped.length →
    ∀ t, ¬r.Way (behind (passed ++ fewer) more, []) t

theorem Finds.cons {c : Char} {skipped : List Char} (h : r.Finds (passed ++ [c]) rest skipped m) :
    r.Finds passed (c :: rest) (c :: skipped) m := by
  obtain ⟨more, rfl, hstart, hway⟩ := h
  rw [List.append_assoc, List.singleton_append] at hstart hway
  exact ⟨more, rfl, hstart, hway⟩

theorem finds_of_matchAt? (h : r.matchAt? rounds (behind passed rest) = some m) :
    r.Finds passed rest [] m := by
  obtain ⟨hstart, hway⟩ := way_of_matchAt? h
  exact ⟨rest, rfl, by rw [hstart, List.append_nil]; rfl, by rwa [List.append_nil]⟩

theorem searchFrom_concat (r : Regex) (rounds : Nat) (passed rest : List Char) (c : Char) :
    r.searchFrom rounds (some c) (passed.length + 1) rest =
      r.searchFrom rounds (passed ++ [c]).getLast? (passed ++ [c]).length rest := by
  rw [List.getLast?_concat, List.length_append, List.length_singleton]

/-- What a search finds follows the leftmost way. -/
theorem finds_of_searchFrom (hlength : rest.length ≤ rounds)
    (h : r.searchFrom rounds passed.getLast? passed.length rest = some m) :
    ∃ skipped, r.Finds passed rest skipped m ∧ r.Leftmost passed rest skipped := by
  induction rest generalizing passed with
  | nil => exact ⟨[], finds_of_matchAt? h, fun _ _ _ hlt => absurd hlt (Nat.not_lt_zero _)⟩
  | cons c rest ih =>
    rw [searchFrom, Option.orElse_eq_or, Option.or_eq_some_iff] at h
    rcases h with hhere | ⟨hnone, hlater⟩
    · exact ⟨[], finds_of_matchAt? hhere, fun _ _ _ hlt => absurd hlt (Nat.not_lt_zero _)⟩
    · rw [searchFrom_concat] at hlater
      obtain ⟨skipped, hfinds, hleftmost⟩ := ih (Nat.le_of_succ_le hlength) hlater
      refine ⟨c :: skipped, hfinds.cons, ?_⟩
      intro fewer more hrest hlt t
      cases fewer with
      | nil =>
        -- at the place itself nothing matches
        obtain rfl : more = c :: rest := hrest.symm
        rw [List.append_nil]
        exact not_way_of_matchAt? hlength hnone t
      | cons d fewer =>
        obtain ⟨rfl, hmore⟩ := List.cons.inj hrest
        have hnot := hleftmost fewer more hmore (Nat.lt_of_succ_lt_succ hlt) t
        rwa [List.append_assoc, List.singleton_append] at hnot

theorem fails_of_searchFrom (hlength : rest.length ≤ rounds)
    (h : r.searchFrom rounds passed.getLast? passed.length rest = none) : r.Fails passed rest := by
  intro skipped more hrest t
  induction rest generalizing passed skipped with
  | nil =>
    obtain ⟨rfl, rfl⟩ := List.nil_eq_append_iff.mp hrest
    rw [List.append_nil]
    exact not_way_of_matchAt? hlength h t
  | cons c rest ih =>
    rw [searchFrom, Option.orElse_eq_or, Option.or_eq_none_iff] at h
    obtain ⟨hhere, hlater⟩ := h
    cases skipped with
    | nil =>
      obtain rfl : more = c :: rest := hrest.symm
      rw [List.append_nil]
      exact not_way_of_matchAt? hlength hhere t
    | cons d skipped =>
      obtain ⟨rfl, hmore⟩ := List.cons.inj hrest
      rw [searchFrom_concat] at hlater
      have hnot := ih (Nat.le_of_succ_le hlength) hlater skipped hmore
      rwa [List.append_assoc, List.singleton_append] at hnot

theorem finds_of_search? (h : r.search? rest = some m) :
    ∃ skipped, r.Finds [] rest skipped m ∧ r.Leftmost [] rest skipped :=
  finds_of_searchFrom (Nat.le_succ _) h

theorem fails_of_search? (h : r.search? rest = none) : r.Fails [] rest :=
  fails_of_searchFrom (Nat.le_succ _) h

/-! ### Expressions that read from the start of a text -/

/-- The expression matches at the start of a text only. It matches where an item stands in the text, of which
there is one at most, and its groups note the places of the item. -/
structure ReadsStart {δ : Type} (r : Regex) (StandsIn : δ → List Char → Prop) (noted : δ → Captures) :
    Prop where
  sound : ∀ {passed rest t}, r.Way (behind passed rest, []) t →
    passed = [] ∧ ∃ d, StandsIn d rest ∧ t.2 = noted d
  complete : ∀ {d text}, StandsIn d text → ∃ t, r.Way (behind [] text, []) t
  unique : ∀ {d d' text}, StandsIn d text → StandsIn d' text → d = d'

section ReadsStart

variable {δ : Type} {StandsIn : δ → List Char → Prop} {noted : δ → Captures} {d : δ} {text : List Char}

theorem ReadsStart.exists_of_search? (hr : r.ReadsStart StandsIn noted)
    (h : r.search? text = some m) : ∃ d, StandsIn d text ∧ m.captures = noted d := by
  obtain ⟨skipped, ⟨more, rfl, -, hway⟩, -⟩ := finds_of_search? h
  obtain ⟨hstart, d, hstands, hnoted⟩ := hr.sound hway
  obtain rfl : skipped = [] := hstart
  exact ⟨d, hstands, hnoted⟩

/-- Where an item stands in a text, the search finds it. -/
theorem ReadsStart.search?_of_standsIn (hr : r.ReadsStart StandsIn noted) (h : StandsIn d text) :
    ∃ m, r.search? text = some m ∧ m.captures = noted d := by
  cases hfound : r.search? text with
  | none =>
    obtain ⟨t, hway⟩ := hr.complete h
    exact absurd hway (fails_of_search? hfound [] text rfl t)
  | some m =>
    -- what is found is some item of the text, and there is no other one
    obtain ⟨d', hstands, hnoted⟩ := hr.exists_of_search? hfound
    obtain rfl : d' = d := hr.unique hstands h
    exact ⟨m, rfl, hnoted⟩

end ReadsStart

/-! ### Repeated searches -/

theorem finds_of_next? {last? : Option Nat} (hlength : rest.length ≤ rounds)
    (h : r.next? rounds last? (behind passed rest) = some m) :
    ∃ skipped, r.Finds passed rest skipped m := by
  rw [next?] at h
  obtain ⟨first, hfirst, h⟩ := Option.bind_eq_some_iff.mp h
  split at h
  · -- an empty match right at the end of the last one is passed over, by one character
    cases rest with
    | nil => cases h
    | cons c rest =>
      have hlater : r.searchFrom rounds (some c) (passed.length + 1) rest = some m := h
      rw [searchFrom_concat] at hlater
      obtain ⟨skipped, hfinds, -⟩ := finds_of_searchFrom (Nat.le_of_succ_le hlength) hlater
      exact ⟨_, hfinds.cons⟩
  · cases h
    obtain ⟨skipped, hfinds, -⟩ := finds_of_searchFrom hlength hfirst
    exact ⟨skipped, hfinds⟩

/-- A match ends at a place of the text that is left, behind the one it starts at. -/
theorem Finds.exists_stop {skipped : List Char} (h : r.Finds passed rest skipped m) :
    ∃ chars after, rest = skipped ++ (chars ++ after) ∧
      m.stop = behind (passed ++ skipped ++ chars) after := by
  obtain ⟨more, rfl, -, hway⟩ := h
  obtain ⟨chars, after, rfl, hstop⟩ := hway.behind
  exact ⟨chars, after, rfl, hstop⟩

theorem Finds.bounds {skipped : List Char} (h : r.Finds passed rest skipped m) :
    passed.length ≤ m.start ∧ m.start ≤ m.stop.index ∧
      m.stop.index + m.stop.rest.length = passed.length + rest.length := by
  obtain ⟨chars, after, rfl, hstop⟩ := h.exists_stop
  obtain ⟨-, -, hstart, -⟩ := h
  rw [hstop, hstart]
  simp only [behind, List.length_append]
  omega

/-- Every match of a repeated search is found somewhere in the text. -/
theorem exists_finds_of_mem_matchesFrom {count : Nat} {last? : Option Nat}
    (hlength : rest.length ≤ rounds)
    (h : m ∈ r.matchesFrom rounds count last? (behind passed rest)) :
    ∃ before after skipped, passed ++ rest = before ++ after ∧ r.Finds before after skipped m := by
  induction count generalizing last? passed rest with
  | zero => cases h
  | succ count ih =>
    rw [matchesFrom] at h
    split at h
    · cases h
    · next first hfirst =>
      obtain ⟨skipped, hfinds⟩ := finds_of_next? hlength hfirst
      rcases List.mem_cons.mp h with rfl | hlater
      · exact ⟨passed, rest, skipped, rfl, hfinds⟩
      · obtain ⟨chars, after, rfl, hstop⟩ := hfinds.exists_stop
        simp only [List.length_append] at hlength
        rw [hstop] at hlater
        -- the search goes on from the end of the match, with the same text around it
        obtain ⟨before, after', skipped', hsplit, hfinds'⟩ := ih (by omega) hlater
        exact ⟨before, after', skipped', by simpa using hsplit, hfinds'⟩

theorem exists_finds_of_mem_allMatches {text : List Char} (h : m ∈ r.allMatches text) :
    ∃ before after skipped, text = before ++ after ∧ r.Finds before after skipped m := by
  rw [allMatches, start_eq] at h
  exact exists_finds_of_mem_matchesFrom (Nat.le_succ _) h

/-- Every match of a text is a span of the text. -/
theorem bounds_of_mem_allMatches {text : List Char} (h : m ∈ r.allMatches text) :
    m.start ≤ m.stop.index ∧ m.stop.index ≤ text.length := by
  obtain ⟨before, after, skipped, rfl, hfinds⟩ := exists_finds_of_mem_allMatches h
  have hbounds := hfinds.bounds
  rw [List.length_append]
  omega

/-! ### Expressions without empty matches -/

/-- Every way passes a character. -/
def NeverEmpty (r : Regex) : Prop :=
  ∀ passed rest t, r.Way (behind passed rest, []) t → t.1.index ≠ passed.length

/-- The matches are the leftmost ones of the text that is left, each from the end of the one before it
on. -/
inductive Selects (r : Regex) : List Char → List Char → List Match → Prop where
  | done {passed rest : List Char} (hfails : r.Fails passed rest) : Selects r passed rest []
  | next {passed skipped chars after : List Char} {m : Match} {more : List Match}
      (hfinds : r.Finds passed (skipped ++ (chars ++ after)) skipped m)
      (hleftmost : r.Leftmost passed (skipped ++ (chars ++ after)) skipped)
      (hstop : m.stop = behind (passed ++ skipped ++ chars) after)
      (hmore : Selects r (passed ++ skipped ++ chars) after more) :
      Selects r passed (skipped ++ (chars ++ after)) (m :: more)

theorem Finds.lt_stop {skipped : List Char} (hr : r.NeverEmpty) (h : r.Finds passed rest skipped m) :
    m.start < m.stop.index := by
  obtain ⟨-, hle, -⟩ := h.bounds
  obtain ⟨more, -, hstart, hway⟩ := h
  have hne : m.stop.index ≠ m.start := hstart ▸ hr _ _ _ hway
  omega

theorem next?_of_neverEmpty (hr : r.NeverEmpty) (hlength : rest.length ≤ rounds) (last? : Option Nat) :
    r.next? rounds last? (behind passed rest) =
      r.searchFrom rounds passed.getLast? passed.length rest := by
  rw [next?]
  cases hfound : r.searchFrom rounds (behind passed rest).before (behind passed rest).index
      (behind passed rest).rest with
  | none => exact hfound.symm
  | some m =>
    obtain ⟨skipped, hfinds, -⟩ := finds_of_searchFrom hlength hfound
    have hempty : m.isEmpty = false := beq_eq_false_iff_ne.mpr (Nat.ne_of_lt (hfinds.lt_stop hr))
    rw [Option.bind_eq_bind, Option.bind_some, hempty, Bool.false_and, if_neg Bool.false_ne_true]
    exact hfound.symm

theorem selects_matchesFrom (hr : r.NeverEmpty) {count : Nat} (last? : Option Nat)
    (hcount : rest.length < count) (hlength : rest.length ≤ rounds) :
    r.Selects passed rest (r.matchesFrom rounds count last? (behind passed rest)) := by
  induction count generalizing last? passed rest with
  | zero => exact absurd hcount (Nat.not_lt_zero _)
  | succ count ih =>
    rw [matchesFrom, next?_of_neverEmpty hr hlength]
    cases hfound : r.searchFrom rounds passed.getLast? passed.length rest with
    | none => exact .done (fails_of_searchFrom hlength hfound)
    | some m =>
      obtain ⟨skipped, hfinds, hleftmost⟩ := finds_of_searchFrom hlength hfound
      obtain ⟨chars, after, rfl, hstop⟩ := hfinds.exists_stop
      have hlt := hfinds.lt_stop hr
      have hbounds := hfinds.bounds
      rw [hstop] at hlt hbounds
      simp only [behind, List.length_append] at hlt hbounds hcount hlength
      simp only [hstop]
      exact .next hfinds hleftmost hstop (ih _ (by omega) (by omega))

/-- The matches of a text are selected from its start on. -/
theorem selects_allMatches (hr : r.NeverEmpty) (text : List Char) :
    r.Selects [] text (r.allMatches text) :=
  selects_matchesFrom hr none (Nat.lt_succ_self _) (Nat.le_succ _)

/-- Each match starts behind the ones before it. -/
theorem Selects.starts (hr : r.NeverEmpty) {found : List Match} (h : r.Selects passed rest found) :
    (∀ m ∈ found, passed.length ≤ m.start) ∧ found.Pairwise fun a b => a.start < b.start := by
  induction h with
  | done _ => exact ⟨fun m hm => absurd hm List.not_mem_nil, .nil⟩
  | @next passed skipped chars after m more hfinds _ hstop _ ih =>
    obtain ⟨hbehind, hpairwise⟩ := ih
    have hlt := hfinds.lt_stop hr
    have hfirst := hfinds.bounds.1
    rw [hstop] at hlt
    -- the later matches start at the end of this one or behind it
    have hlater : ∀ other ∈ more, m.start < other.start :=
      fun other hother => Nat.lt_of_lt_of_le hlt (hbehind other hother)
    refine ⟨?_, List.pairwise_cons.mpr ⟨hlater, hpairwise⟩⟩
    intro other hother
    rcases List.mem_cons.mp hother with rfl | hmore
    · exact hfirst
    · exact Nat.le_of_lt (Nat.lt_of_le_of_lt hfirst (hlater other hmore))

theorem pairwise_start_allMatches (hr : r.NeverEmpty) (text : List Char) :
    (r.allMatches text).Pairwise fun a b => a.start < b.start :=
  ((selects_allMatches hr text).starts hr).2

end Regex

end CrossIndex
