import CrossIndex.Regex.Match
import Mathlib.Logic.Relation

/-!
Ways through a text. A regular expression can lead from a place of a text to several others, and the
matcher tries these ways in an order of its own. Main statements: what the matcher finds is found at the
end of a way, and where some way leads to a find the matcher does not fail.
-/

namespace CrossIndex

/-- The second place comes after the first one in the same text, or is that place. -/
def Cursor.Reaches (a b : Cursor) : Prop :=
  ∃ passed, a.rest = passed ++ b.rest ∧ b.index = a.index + passed.length ∧
    b.before = passed.getLast?.or a.before

namespace Cursor

variable {a b c : Cursor}

theorem Reaches.refl (a : Cursor) : a.Reaches a := ⟨[], rfl, rfl, rfl⟩

theorem Reaches.trans (h : a.Reaches b) (h' : b.Reaches c) : a.Reaches c := by
  obtain ⟨passed, hrest, hindex, hbefore⟩ := h
  obtain ⟨more, hrest', hindex', hbefore'⟩ := h'
  refine ⟨passed ++ more, ?_, ?_, ?_⟩
  · rw [hrest, hrest', List.append_assoc]
  · rw [hindex', hindex, List.length_append, Nat.add_assoc]
  · rw [hbefore', hbefore, List.getLast?_append, Option.or_assoc]

theorem Reaches.index_le (h : a.Reaches b) : a.index ≤ b.index := by
  obtain ⟨passed, -, hindex, -⟩ := h
  omega

/-- The characters that lie ahead and those that lie behind make the text. -/
theorem Reaches.index_add_length (h : a.Reaches b) :
    b.index + b.rest.length = a.index + a.rest.length := by
  obtain ⟨passed, hrest, hindex, -⟩ := h
  rw [hrest, List.length_append]
  omega

/-- The place in a text that so much of it lies before. -/
def behind (passed rest : List Char) : Cursor := ⟨passed.getLast?, passed.length, rest⟩

theorem start_eq (text : List Char) : start text = behind [] text := rfl

/-- From a place in a text one comes to the places behind some more of it. -/
theorem reaches_behind_iff {passed text : List Char} :
    (behind passed text).Reaches b ↔
      ∃ chars rest, text = chars ++ rest ∧ b = behind (passed ++ chars) rest := by
  constructor
  · rintro ⟨chars, htext, hindex, hbefore⟩
    refine ⟨chars, b.rest, htext, ?_⟩
    rw [behind, List.length_append, List.getLast?_append]
    obtain ⟨before, index, rest⟩ := b
    exact congrArg₂ (fun before index => (⟨before, index, rest⟩ : Cursor)) hbefore hindex
  · rintro ⟨chars, rest, rfl, rfl⟩
    exact ⟨chars, rfl, List.length_append, List.getLast?_append⟩

end Cursor

namespace Regex

/-- A place in a text, with what groups have noted on the way there. -/
abbrev Stage := Cursor × Captures

/-- A later round of a repetition, which passes a character. -/
def Round (way : Stage → Stage → Prop) (s t : Stage) : Prop :=
  way s t ∧ t.1.index ≠ s.1.index

/-- The expression can lead from one stage to the other. -/
def Way : Regex → Stage → Stage → Prop
  | empty, s, t => t = s
  | one c, s, t =>
    ∃ x rest, s.1.rest = x :: rest ∧ c.contains x = true ∧ t = (⟨some x, s.1.index + 1, rest⟩, s.2)
  | anchor a, s, t => a.holds s.1.before s.1.rest.head? = true ∧ t = s
  | seq a b, s, t => ∃ middle, a.Way s middle ∧ b.Way middle t
  | alt a b, s, t => a.Way s t ∨ b.Way s t
  | plus _ body, s, t =>
    ∃ first, body.Way s first ∧
      if first.1.index = s.1.index then t = first
      else Relation.ReflTransGen (Round body.Way) first t
  | group index body, s, t =>
    ∃ inside, body.Way s inside ∧
      t = (inside.1, (index, s.1.index, inside.1.index) :: inside.2)

theorem reaches_of_rounds {way : Stage → Stage → Prop} {s t : Stage}
    (hway : ∀ {s t}, way s t → s.1.Reaches t.1) (h : Relation.ReflTransGen (Round way) s t) :
    s.1.Reaches t.1 := by
  induction h with
  | refl => exact .refl _
  | tail _ hround ih => exact ih.trans (hway hround.1)

/-- A way leads on in the text, and never back. -/
theorem Way.reaches {r : Regex} {s t : Stage} (h : r.Way s t) : s.1.Reaches t.1 := by
  induction r generalizing s t with
  | empty =>
    obtain rfl : t = s := h
    exact .refl _
  | one c =>
    obtain ⟨x, rest, hrest, -, rfl⟩ := h
    exact ⟨[x], hrest, rfl, rfl⟩
  | anchor a =>
    obtain ⟨-, rfl⟩ := h
    exact .refl _
  | seq a b iha ihb =>
    obtain ⟨middle, ha, hb⟩ := h
    exact (iha ha).trans (ihb hb)
  | alt a b iha ihb =>
    rcases h with ha | hb
    · exact iha ha
    · exact ihb hb
  | plus greedy body ih =>
    obtain ⟨first, hfirst, hmore⟩ := h
    split at hmore
    · exact hmore ▸ ih hfirst
    · exact (ih hfirst).trans (reaches_of_rounds ih hmore)
  | group index body ih =>
    obtain ⟨inside, hbody, rfl⟩ := h
    have hinside := ih hbody
    exact hinside

/-! ### The matcher follows ways -/

variable {α : Type} {rounds : Nat} {part body : Cursor → Captures → Continuation α → Option α}
  {way : Stage → Stage → Prop}

/-- What a part of the matcher finds is found at the end of a way. -/
def Sound (part : Cursor → Captures → Continuation α → Option α) (way : Stage → Stage → Prop) : Prop :=
  ∀ ⦃place captures k x⦄, part place captures k = some x →
    ∃ t, way (place, captures) t ∧ k t.1 t.2 = some x

/-- Where a way leads to a find, a part of the matcher finds something as well, with so many characters
left at most. -/
def Complete (rounds : Nat) (part : Cursor → Captures → Continuation α → Option α)
    (way : Stage → Stage → Prop) : Prop :=
  ∀ ⦃place captures k t⦄, place.rest.length ≤ rounds → way (place, captures) t →
    (k t.1 t.2).isSome = true → (part place captures k).isSome = true

/-- What a repetition finds is found at the end of some rounds, if that is so for one round. -/
theorem sound_again {greedy : Bool} (hbody : Sound body way) (rounds : Nat) :
    Sound (fun place captures k => again greedy body k rounds place captures)
      (Relation.ReflTransGen (Round way)) := by
  induction rounds with
  | zero => exact fun place captures _ _ h => ⟨(place, captures), .refl, h⟩
  | succ rounds ih =>
    intro place captures k x h
    -- a round that passes no character finds nothing, and one that does is followed by fewer rounds
    have hround : ∀ y, (body place captures fun next captures =>
        if next.index = place.index then none else again greedy body k rounds next captures) =
          some y → ∃ t, Relation.ReflTransGen (Round way) (place, captures) t ∧ k t.1 t.2 = some y := by
      intro y hy
      obtain ⟨next, hnext, hk⟩ := hbody hy
      split at hk
      · cases hk
      · next hpasses =>
        obtain ⟨t, hmore, hfound⟩ := ih hk
        exact ⟨t, .head ⟨hnext, hpasses⟩ hmore, hfound⟩
    have hend : k place captures = some x →
        ∃ t, Relation.ReflTransGen (Round way) (place, captures) t ∧ k t.1 t.2 = some x :=
      fun hk => ⟨(place, captures), .refl, hk⟩
    simp only [again] at h
    -- greed decides whether the round or the end of the repetition is tried first
    split at h
    · rw [Option.orElse_eq_or, Option.or_eq_some_iff] at h
      rcases h with hy | ⟨-, hk⟩
      · exact hround x hy
      · exact hend hk
    · rw [Option.orElse_eq_or, Option.or_eq_some_iff] at h
      rcases h with hk | ⟨-, hy⟩
      · exact hend hk
      · exact hround x hy

/-- Rounds that lead to a find make a repetition find something, as long as there can be a round for
each character that is left. -/
theorem complete_again {greedy : Bool} (hreaches : ∀ {s t}, way s t → s.1.Reaches t.1)
    (hbody : Complete rounds body way) {n : Nat} (hn : n ≤ rounds) :
    Complete n (fun place captures k => again greedy body k n place captures)
      (Relation.ReflTransGen (Round way)) := by
  induction n with
  | zero =>
    intro place captures k t hlength h hk
    rcases Relation.ReflTransGen.cases_head h with rfl | ⟨next, ⟨hnext, hpasses⟩, -⟩
    · exact hk
    · -- there is no character left that a round could pass
      have hend := (hreaches hnext).index_add_length
      have hle := (hreaches hnext).index_le
      simp only at hend hle hpasses
      omega
  | succ n ih =>
    intro place captures k t hlength h hk
    have hsome : (k place captures).isSome = true ∨
        (body place captures fun next captures =>
          if next.index = place.index then none
          else again greedy body k n next captures).isSome = true := by
      rcases Relation.ReflTransGen.cases_head h with rfl | ⟨next, ⟨hnext, hpasses⟩, hmore⟩
      · exact Or.inl hk
      · have hend := (hreaches hnext).index_add_length
        have hle := (hreaches hnext).index_le
        simp only at hend hle hpasses
        refine Or.inr (hbody (by omega) hnext ?_)
        rw [if_neg hpasses]
        exact ih (by omega) (by omega) hmore hk
    simp only [again]
    split
    · rw [Option.orElse_eq_or, Option.isSome_or, Bool.or_eq_true]
      exact hsome.symm
    · rw [Option.orElse_eq_or, Option.isSome_or, Bool.or_eq_true]
      exact hsome

/-- What the matcher finds for an expression is found at the end of a way of the expression. -/
theorem sound_run (r : Regex) (rounds : Nat) :
    Sound (fun place captures (k : Continuation α) => run rounds r place captures k) r.Way := by
  induction r with
  | empty => exact fun place captures _ _ h => ⟨(place, captures), rfl, h⟩
  | one c =>
    rintro ⟨before, index, rest⟩ captures k x h
    cases rest with
    | nil => cases h
    | cons y rest =>
      simp only [run] at h
      split at h
      · next hy => exact ⟨_, ⟨y, rest, rfl, hy, rfl⟩, h⟩
      · cases h
  | anchor a =>
    intro place captures k x h
    simp only [run] at h
    split at h
    · next ha => exact ⟨_, ⟨ha, rfl⟩, h⟩
    · cases h
  | seq a b iha ihb =>
    intro place captures k x h
    obtain ⟨middle, ha, h⟩ := iha h
    obtain ⟨t, hb, hk⟩ := ihb h
    exact ⟨t, ⟨middle, ha, hb⟩, hk⟩
  | alt a b iha ihb =>
    intro place captures k x h
    simp only [run] at h
    rw [Option.orElse_eq_or, Option.or_eq_some_iff] at h
    rcases h with ha | ⟨-, hb⟩
    · obtain ⟨t, hway, hk⟩ := iha ha
      exact ⟨t, Or.inl hway, hk⟩
    · obtain ⟨t, hway, hk⟩ := ihb hb
      exact ⟨t, Or.inr hway, hk⟩
  | plus greedy body ih =>
    intro place captures k x h
    obtain ⟨first, hfirst, h⟩ := ih h
    split at h
    · next hstays => exact ⟨first, ⟨first, hfirst, by rw [if_pos hstays]⟩, h⟩
    · next hpasses =>
      obtain ⟨t, hmore, hk⟩ := sound_again ih rounds h
      exact ⟨t, ⟨first, hfirst, by rwa [if_neg hpasses]⟩, hk⟩
  | group index body ih =>
    intro place captures k x h
    obtain ⟨inside, hbody, hk⟩ := ih h
    exact ⟨_, ⟨inside, hbody, rfl⟩, hk⟩

/-- Where a way of an expression leads to a find the matcher finds something. -/
theorem complete_run (r : Regex) (rounds : Nat) :
    Complete rounds (fun place captures (k : Continuation α) => run rounds r place captures k) r.Way := by
  induction r with
  | empty =>
    rintro place captures k _ - rfl hk
    exact hk
  | one c =>
    rintro ⟨before, index, rest⟩ captures k _ - ⟨x, more, rfl, hx, rfl⟩ hk
    simp only [run]
    rwa [if_pos hx]
  | anchor a =>
    rintro place captures k _ - ⟨ha, rfl⟩ hk
    simp only [run]
    rwa [if_pos ha]
  | seq a b iha ihb =>
    rintro place captures k t hlength ⟨middle, ha, hb⟩ hk
    have hend := ha.reaches.index_add_length
    have hle := ha.reaches.index_le
    simp only at hend hle
    exact iha hlength ha (ihb (by omega) hb hk)
  | alt a b iha ihb =>
    intro place captures k t hlength h hk
    simp only [run]
    rw [Option.orElse_eq_or, Option.isSome_or, Bool.or_eq_true]
    rcases h with ha | hb
    · exact Or.inl (iha hlength ha hk)
    · exact Or.inr (ihb hlength hb hk)
  | plus greedy body ih =>
    rintro place captures k t hlength ⟨first, hfirst, hmore⟩ hk
    refine ih hlength hfirst ?_
    split at hmore
    · next hstays =>
      rw [if_pos hstays]
      exact hmore ▸ hk
    · next hpasses =>
      have hend := hfirst.reaches.index_add_length
      have hle := hfirst.reaches.index_le
      simp only at hend hle
      rw [if_neg hpasses]
      exact complete_again Way.reaches ih (Nat.le_refl rounds) (by omega) hmore hk
  | group index body ih =>
    rintro place captures k _ hlength ⟨inside, hbody, rfl⟩ hk
    exact ih hlength hbody hk

/-! ### Matches at a place -/

variable {r : Regex} {place : Cursor} {m : Match}

/-- A match is a way from the place where it starts. -/
theorem way_of_matchAt? (h : r.matchAt? rounds place = some m) :
    m.start = place.index ∧ r.Way (place, []) (m.stop, m.captures) := by
  obtain ⟨t, hway, hm⟩ := sound_run r rounds h
  cases hm
  exact ⟨rfl, hway⟩

/-- Where there is no match there is no way. -/
theorem not_way_of_matchAt? (hlength : place.rest.length ≤ rounds)
    (h : r.matchAt? rounds place = none) (t : Stage) : ¬r.Way (place, []) t := by
  intro hway
  have hsome := complete_run r rounds hlength hway
    (k := fun stop captures => some (⟨place.index, stop, captures⟩ : Match)) rfl
  exact Option.isSome_iff_ne_none.mp hsome h

end Regex

end CrossIndex
