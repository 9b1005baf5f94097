import CrossIndex.Proofs.Regex.Search

/-!
Where groups match. A group notes a place that its body was tried from and one that the body came to,
so that what it notes lies between the ends of the match. Main statements: the span of every group of a
match is a span of the text, inside that of the whole match, and a group that no way leaves out has one.
-/

namespace CrossIndex

open Cursor

namespace Regex

variable {r : Regex} {s t middle : Stage} {way : Stage → Stage → Prop}

/-- The second stage is not before the first one, and what groups have noted on the way between them
lies between their places. -/
structure Notes (s t : Stage) : Prop where
  le : s.1.index ≤ t.1.index
  noted : ∀ group ∈ t.2, group ∈ s.2 ∨
    s.1.index ≤ group.2.1 ∧ group.2.1 ≤ group.2.2 ∧ group.2.2 ≤ t.1.index

theorem Notes.refl (s : Stage) : Notes s s := ⟨Nat.le_refl _, fun _ h => Or.inl h⟩

theorem Notes.trans (h : Notes s middle) (h' : Notes middle t) : Notes s t := by
  refine ⟨Nat.le_trans h.le h'.le, ?_⟩
  intro group hmem
  have hfirst := h.le
  have hlast := h'.le
  rcases h'.noted group hmem with hold | hnew
  · rcases h.noted group hold with hbefore | hnoted
    · exact Or.inl hbefore
    · exact Or.inr (by omega)
  · exact Or.inr (by omega)

theorem notes_of_rounds (hway : ∀ {s t}, way s t → Notes s t)
    (h : Relation.ReflTransGen (Round way) s t) : Notes s t := by
  induction h with
  | refl => exact .refl _
  | tail _ hround ih => exact ih.trans (hway hround.1)

/-- On its way an expression notes nothing outside of the way. -/
theorem Way.notes (h : r.Way s t) : Notes s t := by
  induction r generalizing s t with
  | empty =>
    obtain rfl : t = s := h
    exact .refl _
  | one c =>
    obtain ⟨x, rest, -, -, rfl⟩ := h
    exact ⟨Nat.le_succ _, fun _ hmem => Or.inl hmem⟩
  | anchor a =>
    obtain ⟨-, rfl⟩ := h
    exact .refl _
  | seq a b iha ihb =>
    obtain ⟨middle, ha, hb⟩ := h
    exact (iha ha).trans (ihb hb)
  | alt a b iha ihb =>
    rcases h with ha | hb
    · exact iha ha
    · exact ihb hb
  | plus greedy body ih =>
    obtain ⟨first, hfirst, hmore⟩ := h
    split at hmore
    · exact hmore ▸ ih hfirst
    · exact (ih hfirst).trans (notes_of_rounds ih hmore)
  | group index body ih =>
    obtain ⟨inside, hbody, rfl⟩ := h
    have hinside := ih hbody
    refine ⟨hinside.le, ?_⟩
    intro group hmem
    -- the group itself spans all of the way, and what it contains was noted before
    rcases List.mem_cons.mp hmem with rfl | hold
    · exact Or.inr ⟨Nat.le_refl _, hinside.le, Nat.le_refl _⟩
    · exact hinside.noted group hold

theorem captures_subset_of_rounds (hway : ∀ {s t}, way s t → s.2 ⊆ t.2)
    (h : Relation.ReflTransGen (Round way) s t) : s.2 ⊆ t.2 := by
  induction h with
  | refl => exact fun _ hmem => hmem
  | tail _ hround ih => exact List.Subset.trans ih (hway hround.1)

/-- What groups have noted is kept. -/
theorem Way.captures_subset (h : r.Way s t) : s.2 ⊆ t.2 := by
  induction r generalizing s t with
  | empty =>
    obtain rfl : t = s := h
    exact fun _ hmem => hmem
  | one c =>
    obtain ⟨x, rest, -, -, rfl⟩ := h
    exact fun _ hmem => hmem
  | anchor a =>
    obtain ⟨-, rfl⟩ := h
    exact fun _ hmem => hmem
  | seq a b iha ihb =>
    obtain ⟨middle, ha, hb⟩ := h
    exact List.Subset.trans (iha ha) (ihb hb)
  | alt a b iha ihb =>
    rcases h with ha | hb
    · exact iha ha
    · exact ihb hb
  | plus greedy body ih =>
    obtain ⟨first, hfirst, hmore⟩ := h
    split at hmore
    · exact hmore ▸ ih hfirst
    · exact List.Subset.trans (ih hfirst) (captures_subset_of_rounds ih hmore)
  | group index body ih =>
    obtain ⟨inside, hbody, rfl⟩ := h
    exact List.Subset.trans (ih hbody) (List.subset_cons_self _ _)

/-- No way of the expression leaves the group out. -/
def alwaysNotes (index : Nat) : Regex → Bool
  | empty | one _ | anchor _ => false
  | seq a b => a.alwaysNotes index || b.alwaysNotes index
  | alt a b => a.alwaysNotes index && b.alwaysNotes index
  | plus _ body => body.alwaysNotes index
  | group other body => other == index || body.alwaysNotes index

theorem Way.exists_noted {index : Nat} (h : r.Way s t) (hr : r.alwaysNotes index = true) :
    ∃ span, (index, span) ∈ t.2 := by
  induction r generalizing s t with
  | empty => cases hr
  | one c => cases hr
  | anchor a => cases hr
  | seq a b iha ihb =>
    obtain ⟨middle, ha, hb⟩ := h
    rcases Bool.or_eq_true_iff.mp hr with hra | hrb
    · obtain ⟨span, hspan⟩ := iha ha hra
      exact ⟨span, hb.captures_subset hspan⟩
    · exact ihb hb hrb
  | alt a b iha ihb =>
    obtain ⟨hra, hrb⟩ := Bool.and_eq_true_iff.mp hr
    rcases h with ha | hb
    · exact iha ha hra
    · exact ihb hb hrb
  | plus greedy body ih =>
    obtain ⟨first, hfirst, hmore⟩ := h
    obtain ⟨span, hspan⟩ := ih hfirst hr
    split at hmore
    · exact ⟨span, hmore ▸ hspan⟩
    · exact ⟨span, captures_subset_of_rounds Way.captures_subset hmore hspan⟩
  | group other body ih =>
    obtain ⟨inside, hbody, rfl⟩ := h
    rcases Bool.or_eq_true_iff.mp hr with hsame | hinside
    · rw [eq_of_beq hsame]
      exact ⟨_, List.mem_cons_self⟩
    · obtain ⟨span, hspan⟩ := ih hbody hinside
      exact ⟨span, List.mem_cons_of_mem _ hspan⟩

end Regex

namespace Match

/-- The match is a span of the text, and its groups are spans inside it. -/
structure LiesIn (m : Match) (text : List Char) : Prop where
  start_le : m.start ≤ m.stop.index
  stop_le : m.stop.index ≤ text.length
  group : ∀ group first last, m.span? group = some (first, last) →
    m.start ≤ first ∧ first ≤ last ∧ last ≤ m.stop.index

end Match

namespace Regex

variable {r : Regex} {m : Match} {text before after skipped : List Char}

theorem Finds.liesIn (h : r.Finds before after skipped m) : m.LiesIn (before ++ after) := by
  have hbounds := h.bounds
  obtain ⟨more, -, hstart, hway⟩ := h
  have hnoted := hway.notes.noted
  refine ⟨hbounds.2.1, ?_, ?_⟩
  · rw [List.length_append]
    omega
  · intro group first last hspan
    rw [Match.span?] at hspan
    split at hspan
    · -- the group with index zero is the whole match
      cases hspan
      omega
    · obtain ⟨noted, hfound, hsame⟩ := Option.map_eq_some_iff.mp hspan
      rcases hnoted noted (List.mem_of_find?_eq_some hfound) with hold | hnew
      · cases hold
      · rw [hsame] at hnew
        have hplace : (behind (before ++ skipped) more).index = m.start := hstart.symm
        simp only [hplace] at hnew
        exact hnew

theorem liesIn_of_search? (h : r.search? text = some m) : m.LiesIn text := by
  obtain ⟨skipped, hfinds, -⟩ := finds_of_search? h
  exact hfinds.liesIn

theorem liesIn_of_mem_allMatches (h : m ∈ r.allMatches text) : m.LiesIn text := by
  obtain ⟨before, after, skipped, rfl, hfinds⟩ := exists_finds_of_mem_allMatches h
  exact hfinds.liesIn

/-- A group that no way leaves out has a span in every match. -/
theorem Finds.isSome_span? {index : Nat} (hr : r.alwaysNotes index = true)
    (h : r.Finds before after skipped m) : (m.span? index).isSome = true := by
  obtain ⟨more, -, -, hway⟩ := h
  obtain ⟨span, hspan⟩ := hway.exists_noted hr
  rw [Match.span?]
  split
  · rfl
  · rw [Option.isSome_map, List.find?_isSome]
    exact ⟨_, hspan, decide_eq_true rfl⟩

end Regex

end CrossIndex
