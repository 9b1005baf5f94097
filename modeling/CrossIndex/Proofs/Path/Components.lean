import CrossIndex.Path.Basic
import CrossIndex.Proofs.Text.Split

/-!
Paths by their components. Paths are compared and ordered by components, so that what they mean is
said in components alone: which of them a path has once it is built from parts, joined, or cut.
-/

open Std

namespace CrossIndex

namespace Component

theorem compare_eq (a b : Component) :
    Component.compare a b = compareLex (compareOn rank) (compareOn text) a b := by
  cases a <;> cases b <;> rfl

instance : TransOrd Component := by
  -- components are compared by kind and then by text, which differs for names alone
  have h : (Ord.compare : Component → Component → Ordering) =
      compareLex (compareOn rank) (compareOn text) := funext fun a => funext (compare_eq a)
  unfold TransOrd
  rw [h]
  infer_instance

instance : LawfulEqOrd Component where
  eq_of_compare {a b} h := by
    have hc : Component.compare a b = .eq := h
    rw [compare_eq, compareLex, Ordering.then_eq_eq] at hc
    have hrank : a.rank = b.rank := Std.compare_eq_iff_eq.mp hc.1
    have htext : a.text = b.text := Std.compare_eq_iff_eq.mp hc.2
    cases a <;> cases b <;> first | rfl | exact congrArg name htext | cases hrank

end Component

namespace Path

instance : EquivBEq Path where
  rfl := (beq_iff _ _).mpr rfl
  symm h := (beq_iff _ _).mpr ((beq_iff _ _).mp h).symm
  trans h h' := (beq_iff _ _).mpr (((beq_iff _ _).mp h).trans ((beq_iff _ _).mp h'))

theorem compare_eq_iff {p q : Path} : Ord.compare p q = .eq ↔ (p == q) = true := by
  rw [beq_iff]
  exact Std.compare_eq_iff_eq (a := p.components) (b := q.components)

instance : TransOrd Path :=
  inferInstanceAs (TransCmp (compareOn components))

theorem bodyComponent?_filler {segment : String} (h : isFiller segment = true) :
    bodyComponent? segment = none := if_pos h

/-- Empty segments give no component. -/
theorem filterMap_filter_ne_empty (segments : List String) :
    (segments.filter (· ≠ "")).filterMap bodyComponent? = segments.filterMap bodyComponent? := by
  rw [List.filterMap_filter]
  congr 1
  funext segment
  by_cases hempty : segment = ""
  · rw [hempty]
    rfl
  · rw [if_pos (decide_eq_true hempty)]

theorem exists_bodyComponent? {segment : String} (h : isFiller segment = false) :
    ∃ c, bodyComponent? segment = some c := by
  rw [bodyComponent?, if_neg (by simp [h])]
  split
  · exact ⟨_, rfl⟩
  · exact ⟨_, rfl⟩

/-- A segment that is the text of a name, and no step of another kind. -/
def IsName (segment : String) : Prop :=
  segment ≠ "" ∧ segment ≠ "." ∧ segment ≠ ".."

theorem bodyComponent?_name {segment : String} (h : IsName segment) :
    bodyComponent? segment = some (.name segment) := by
  obtain ⟨hempty, hdot, hdots⟩ := h
  rw [bodyComponent?, if_neg (by simp [isFiller, hempty, hdot]), if_neg hdots]

/-- A component of the body is a step up or a name. -/
theorem bodyComponent?_cases {segment : String} {c : Component}
    (h : bodyComponent? segment = some c) :
    segment = ".." ∧ c = .parent ∨ IsName segment ∧ c = .name segment := by
  rw [bodyComponent?] at h
  split at h
  · cases h
  · next hfiller =>
    have hfill : segment ≠ "" ∧ segment ≠ "." := by simpa [isFiller] using hfiller
    split at h
    · next hdots =>
      cases h
      exact Or.inl ⟨hdots, rfl⟩
    · next hdots =>
      cases h
      exact Or.inr ⟨⟨hfill.1, hfill.2, hdots⟩, rfl⟩

/-- The root stands at the front alone. -/
theorem root_not_mem_filterMap (segments : List String) :
    .root ∉ segments.filterMap bodyComponent? := by
  intro hmem
  obtain ⟨segment, -, hs⟩ := List.mem_filterMap.mp hmem
  obtain ⟨-, hup⟩ | ⟨-, hname⟩ := bodyComponent?_cases hs
  · cases hup
  · cases hname

theorem isAbsolute_iff {p : Path} :
    p.isAbsolute = true ↔ ∃ first more, p.segments = "" :: first :: more := by
  rw [isAbsolute]
  split
  · next first more h => exact ⟨fun _ => ⟨first, more, h⟩, fun _ => rfl⟩
  · next hno =>
    constructor
    · intro h
      cases h
    · rintro ⟨first, more, h⟩
      exact absurd h (hno first more)

theorem isAbsolute_root {tail : List String} (h : tail ≠ []) :
    isAbsolute ⟨"" :: tail⟩ = true := by
  cases tail with
  | nil => exact absurd rfl h
  | cons first more => rfl

theorem components_root {tail : List String} (h : tail ≠ []) :
    components ⟨"" :: tail⟩ = .root :: tail.filterMap bodyComponent? := by
  cases tail with
  | nil => exact absurd rfl h
  | cons first more => rfl

/-- The components of an absolute path are the root and those of its other segments. -/
theorem exists_tail_of_isAbsolute {p : Path} (h : p.isAbsolute = true) :
    ∃ tail : List String, p.segments = "" :: tail ∧ tail ≠ [] ∧
      p.components = .root :: tail.filterMap bodyComponent? := by
  obtain ⟨segments⟩ := p
  obtain ⟨first, more, hs⟩ := isAbsolute_iff.mp h
  change segments = _ at hs
  subst hs
  have hne : first :: more ≠ [] := List.cons_ne_nil first more
  exact ⟨first :: more, rfl, hne, components_root hne⟩

/-- The front of a path is the root, or it is that of a relative path. -/
theorem front_cases (p : Path) :
    p.isAbsolute = true ∧ p.front = [""] ∨
      p.isAbsolute = false ∧ (p.front = ["."] ∨ p.front = []) := by
  obtain ⟨segments⟩ := p
  rcases segments with - | ⟨first, - | ⟨second, more⟩⟩
  · exact Or.inr ⟨rfl, Or.inr rfl⟩
  · by_cases hdot : first = "."
    · subst hdot
      exact Or.inr ⟨rfl, Or.inl rfl⟩
    · exact Or.inr ⟨by simp [isAbsolute], Or.inr (by simp [front, hdot])⟩
  · by_cases hroot : first = ""
    · subst hroot
      exact Or.inl ⟨rfl, rfl⟩
    · by_cases hdot : first = "."
      · subst hdot
        exact Or.inr ⟨rfl, Or.inl rfl⟩
      · exact Or.inr ⟨by simp [isAbsolute, hroot], Or.inr (by simp [front, hroot, hdot])⟩

theorem mem_components {p : Path} {c : Component} (h : c ∈ p.components) :
    c = .root ∧ p.isAbsolute = true ∨ c = .current ∨ ∃ s ∈ p.body, bodyComponent? s = some c := by
  rw [components, List.mem_append] at h
  rcases h with hfront | hbody
  · obtain ⟨habs, hf⟩ | ⟨-, hf | hf⟩ := front_cases p
    · rw [hf] at hfront
      exact Or.inl ⟨List.mem_singleton.mp hfront, habs⟩
    · rw [hf] at hfront
      exact Or.inr (Or.inl (List.mem_singleton.mp hfront))
    · rw [hf] at hfront
      cases hfront
  · exact Or.inr (Or.inr (List.mem_filterMap.mp hbody))

/-- The root is a component of the absolute paths alone. -/
theorem root_mem_components {p : Path} : .root ∈ p.components ↔ p.isAbsolute = true := by
  constructor
  · intro h
    obtain ⟨-, habs⟩ | hcurrent | hbody := mem_components h
    · exact habs
    · cases hcurrent
    · exact absurd (List.mem_filterMap.mpr hbody) (root_not_mem_filterMap p.body)
  · intro h
    obtain ⟨tail, -, -, hc⟩ := exists_tail_of_isAbsolute h
    rw [hc]
    exact List.mem_cons_self

theorem isName_of_mem_components {p : Path} {text : String} (h : .name text ∈ p.components) :
    IsName text := by
  obtain ⟨hroot, -⟩ | hcurrent | ⟨s, -, hs⟩ := mem_components h
  · cases hroot
  · cases hcurrent
  · obtain ⟨-, hc⟩ | ⟨hname, hc⟩ := bodyComponent?_cases hs
    · cases hc
    · cases hc
      exact hname

theorem isAbsolute_congr {p q : Path} (h : (p == q) = true) : p.isAbsolute = q.isAbsolute := by
  rw [Bool.eq_iff_iff, ← root_mem_components, ← root_mem_components, (beq_iff p q).mp h]

/-- Going on from an absolute path along a relative one puts the components one after the other. -/
theorem components_join {p q : Path} (hp : p.isAbsolute = true) (hq : q.isAbsolute = false)
    (hne : q.segments ≠ []) :
    (p.join q).isAbsolute = true ∧
      (p.join q).components = p.components ++ q.segments.filterMap bodyComponent? := by
  obtain ⟨tail, hs, htail, hc⟩ := exists_tail_of_isAbsolute hp
  rw [hc, join, if_neg (by simp [hq]), hs]
  by_cases hlast : tail.getLast? = some ""
  · -- a slash at the end gives no component, and is not doubled where the paths meet
    obtain ⟨init, rfl⟩ := List.getLast?_eq_some_iff.mp hlast
    have hends : ("" :: (init ++ [""])).getLast? = some "" :=
      List.getLast?_concat (l := "" :: init)
    have hjoined : init ++ q.segments ≠ [] := by simp [hne]
    rw [if_pos hends, ← List.cons_append, List.dropLast_concat, List.cons_append,
      isAbsolute_root hjoined, components_root hjoined, List.filterMap_append,
      List.filterMap_append]
    exact ⟨rfl, by simp [bodyComponent?, isFiller]⟩
  · have hends : ¬("" :: tail).getLast? = some "" := by
      rwa [List.getLast?_cons_of_ne_nil htail]
    have hjoined : tail ++ q.segments ≠ [] := by simp [hne]
    rw [if_neg hends, List.cons_append, isAbsolute_root hjoined, components_root hjoined,
      List.filterMap_append]
    exact ⟨rfl, rfl⟩

theorem isAbsolute_join {p q : Path} (hp : p.isAbsolute = false) (hq : q.isAbsolute = false) :
    (p.join q).isAbsolute = false := by
  obtain ⟨segments⟩ := p
  rw [join, if_neg (by simp [hq])]
  rcases segments with - | ⟨first, - | ⟨second, more⟩⟩
  · exact hq
  · by_cases hroot : first = ""
    · subst hroot
      exact hq
    · simp [hroot, isAbsolute]
  · have hroot : first ≠ "" := by
      rintro rfl
      cases hp
    split
    · simp [hroot, isAbsolute]
    · simp [hroot, isAbsolute]

theorem isAbsolute_joinText {p : Path} (h : p.isAbsolute = true) (text : String) :
    (p.joinText text).isAbsolute = true := by
  cases hq : (ofString text).isAbsolute with
  | true =>
    rw [joinText, join, if_pos hq]
    exact hq
  | false => exact (components_join h hq (Text.pieces_ne_nil '/' text)).1

theorem isAbsolute_foldl_joinText {p : Path} (h : p.isAbsolute = true) (names : List String) :
    (names.foldl joinText p).isAbsolute = true := by
  induction names generalizing p with
  | nil => exact h
  | cons name names ih => exact ih (isAbsolute_joinText h name)

theorem ofString_of_not_mem {text : String} (h : '/' ∉ text.toList) : ofString text = ⟨[text]⟩ :=
  congrArg Path.mk (Text.pieces_of_not_mem h)

theorem isAbsolute_singleton (text : String) : isAbsolute ⟨[text]⟩ = false := by
  simp [isAbsolute]

/-- Steps along texts without slashes put their components one after the other. -/
theorem components_foldl_joinText {p : Path} {texts : List String} (hp : p.isAbsolute = true)
    (h : ∀ text ∈ texts, '/' ∉ text.toList) :
    (texts.foldl joinText p).components = p.components ++ texts.filterMap bodyComponent? := by
  induction texts generalizing p with
  | nil => exact (List.append_nil _).symm
  | cons text texts ih =>
    have hstep : (p.joinText text).components = p.components ++ [text].filterMap bodyComponent? := by
      rw [joinText, ofString_of_not_mem (h text List.mem_cons_self)]
      exact (components_join hp (isAbsolute_singleton text) (List.cons_ne_nil _ _)).2
    rw [List.foldl_cons, ih (isAbsolute_joinText hp text) fun t ht => h t (List.mem_cons_of_mem _ ht),
      hstep, List.append_assoc, ← List.filterMap_append, List.singleton_append]

theorem isAbsolute_ofParts (names : List String) : (ofParts [""] names).isAbsolute = true := by
  cases names with
  | nil => rfl
  | cons first more => rfl

theorem components_ofParts (names : List String) :
    (ofParts [""] names).components = .root :: names.filterMap bodyComponent? := by
  cases names with
  | nil => rfl
  | cons first more => rfl

theorem exists_filler (segments : List String) :
    ∃ filler, segments = dropFiller segments ++ filler ∧ ∀ s ∈ filler, isFiller s = true := by
  refine ⟨(segments.reverse.takeWhile isFiller).reverse, ?_, ?_⟩
  · rw [dropFiller, ← List.reverse_append, List.takeWhile_append_dropWhile, List.reverse_reverse]
  · intro s hs
    have hall := List.all_eq_true.mp (List.all_takeWhile (p := isFiller) (l := segments.reverse))
    exact hall s (List.mem_reverse.mp hs)

theorem filterMap_dropFiller (segments : List String) :
    (dropFiller segments).filterMap bodyComponent? = segments.filterMap bodyComponent? := by
  obtain ⟨filler, hsplit, hfiller⟩ := exists_filler segments
  have hnone : filler.filterMap bodyComponent? = [] :=
    List.filterMap_eq_nil_iff.mpr fun s hs => bodyComponent?_filler (hfiller s hs)
  have happend := congrArg (List.filterMap bodyComponent?) hsplit
  rw [List.filterMap_append, hnone, List.append_nil] at happend
  exact happend.symm

theorem exists_bodyComponent?_of_dropFiller {segments init : List String} {last : String}
    (h : dropFiller segments = init ++ [last]) : ∃ c, bodyComponent? last = some c := by
  have hrev : segments.reverse.dropWhile isFiller = last :: init.reverse := by
    rw [← List.reverse_reverse (segments.reverse.dropWhile isFiller), ← dropFiller, h,
      List.reverse_append]
    rfl
  have hlast := List.head?_dropWhile_not isFiller segments.reverse
  rw [hrev] at hlast
  exact exists_bodyComponent? (by simpa using hlast)

/-- The last segment that counts gives one component, and the filler around it none. -/
theorem filterMap_of_dropFiller {segments kept : List String} (h : dropFiller segments = kept)
    (hkept : kept ≠ []) :
    ∃ c, segments.filterMap bodyComponent? = kept.dropLast.filterMap bodyComponent? ++ [c] := by
  have hcut := (List.dropLast_concat_getLast hkept).symm
  obtain ⟨c, hlast⟩ := exists_bodyComponent?_of_dropFiller (h.trans hcut)
  have happend := congrArg (List.filterMap bodyComponent?) hcut
  rw [List.filterMap_append, List.filterMap_cons_some hlast, List.filterMap_nil] at happend
  rw [← filterMap_dropFiller, h]
  exact ⟨c, happend⟩

/-- The segments that a parent keeps are a start of those of the path. -/
theorem exists_rest_of_dropFiller {segments kept : List String} (h : dropFiller segments = kept)
    (hkept : kept ≠ []) : ∃ rest, rest ≠ [] ∧ segments = dropFiller kept.dropLast ++ rest := by
  obtain ⟨after, hafter, -⟩ := exists_filler segments
  obtain ⟨before, hbefore, -⟩ := exists_filler kept.dropLast
  refine ⟨before ++ ([kept.getLast hkept] ++ after), by simp, ?_⟩
  rw [← List.append_assoc, ← hbefore, ← List.append_assoc, List.dropLast_concat_getLast, ← h]
  exact hafter

/-- The root has no parent, and that of any other absolute path has one component less. -/
theorem parent?_cases {p : Path} (hp : p.isAbsolute = true) :
    (p.parent? = none ∧ p.components = [.root]) ∨
      ∃ d, p.parent? = some d ∧ d.isAbsolute = true ∧ d.components = p.components.dropLast := by
  obtain ⟨tail, hs, -, hc⟩ := exists_tail_of_isAbsolute hp
  have hfront : p.front = [""] := by
    obtain ⟨-, hf⟩ | ⟨habs, -⟩ := front_cases p
    · exact hf
    · rw [hp] at habs
      cases habs
  have hbody : p.body = tail := by
    rw [body, hfront, hs]
    rfl
  rw [hc, parent?, hbody, hfront]
  cases hkept : dropFiller tail with
  | nil =>
    rw [← filterMap_dropFiller, hkept]
    exact Or.inl ⟨rfl, rfl⟩
  | cons name names =>
    obtain ⟨c, hcomponents⟩ := filterMap_of_dropFiller hkept (List.cons_ne_nil name names)
    refine Or.inr ⟨_, rfl, isAbsolute_ofParts _, ?_⟩
    rw [hcomponents, components_ofParts, filterMap_dropFiller, ← List.cons_append,
      List.dropLast_concat]

theorem components_of_not_isAbsolute {p : Path} (hp : p.isAbsolute = false) :
    p.components =
      (if p.front = ["."] then [.current] else []) ++ p.body.filterMap bodyComponent? := by
  rw [components]
  obtain ⟨hc, -⟩ | ⟨-, hf | hf⟩ := front_cases p
  · rw [hp] at hc
    cases hc
  · rw [hf]
    rfl
  · rw [hf]
    rfl

theorem front_eq_nil {first : String} {more : List String} (hdot : first ≠ ".")
    (hroot : first = "" → more = []) : front ⟨first :: more⟩ = [] := by
  cases more with
  | nil => simp [front, hdot]
  | cons second more =>
    have hne : first ≠ "" := fun h => by cases hroot h
    simp [front, hne, hdot]

theorem front_append_body (p : Path) : p.front ++ p.body = p.segments := by
  obtain ⟨segments⟩ := p
  rcases segments with - | ⟨first, more⟩
  · rfl
  · rw [body, front]
    split
    · next h => rw [h]; rfl
    · next h => rw [h]; rfl
    · rfl

/-- The components of a relative path are those of its segments, with a dot only at the front. -/
theorem components_of_segments {p : Path} (hp : p.isAbsolute = false) :
    p.components = (if p.front = ["."] then [.current] else []) ++
      p.segments.filterMap bodyComponent? := by
  rw [components_of_not_isAbsolute hp, ← p.front_append_body, List.filterMap_append]
  obtain ⟨habs, -⟩ | ⟨-, hf | hf⟩ := front_cases p
  · rw [hp] at habs
    cases habs
  · rw [hf]
    rfl
  · rw [hf]
    rfl

theorem front_of_segments {p : Path} (hp : p.isAbsolute = false) {first : String}
    {more : List String} (h : p.segments = first :: more) :
    p.front = if first = "." then ["."] else [] := by
  obtain ⟨segments⟩ := p
  change segments = _ at h
  subst h
  by_cases hdot : first = "."
  · rw [if_pos hdot, hdot]
    rfl
  · rw [if_neg hdot]
    apply front_eq_nil hdot
    rintro rfl
    cases more with
    | nil => rfl
    | cons second more => cases hp

/-- Going on from a relative path along another one puts the components one after the other. -/
theorem components_join_relative {p q : Path} (hp : p.isAbsolute = false)
    (hq : q.isAbsolute = false) (hfront : q.front = []) :
    (p.join q).components = p.components ++ q.segments.filterMap bodyComponent? := by
  have hjoined := isAbsolute_join hp hq
  -- a slash at the end of the first path is left out
  obtain ⟨kept, hsegments, hkept⟩ : ∃ kept, (p.join q).segments = kept ++ q.segments ∧
      (p.segments = kept ∨ p.segments = kept ++ [""]) := by
    rw [join, if_neg (by simp [hq])]
    split
    · next hlast =>
      obtain ⟨init, hinit⟩ := List.getLast?_eq_some_iff.mp hlast
      exact ⟨init, by rw [hinit, List.dropLast_concat], Or.inr hinit⟩
    · exact ⟨p.segments, rfl, Or.inl rfl⟩
  have hfilter : p.segments.filterMap bodyComponent? = kept.filterMap bodyComponent? := by
    rcases hkept with h | h
    · rw [h]
    · rw [h, List.filterMap_append]
      exact List.append_nil _
  have hfronts : (p.join q).front = p.front := by
    cases kept with
    | nil =>
      have hempty : p.front = [] := by
        rcases hkept with h | h
        · simp [front, h]
        · simp [front, h]
      have hsame : p.join q = q := congrArg Path.mk hsegments
      rw [hempty, hsame, hfront]
    | cons first more =>
      rw [front_of_segments hjoined hsegments]
      rcases hkept with h | h
      · rw [front_of_segments hp h]
      · rw [front_of_segments hp h]
  rw [components_of_segments hjoined, components_of_segments hp, hfronts, hsegments,
    List.filterMap_append, hfilter, List.append_assoc]

theorem filterMap_dropWhile_isFiller (segments : List String) :
    (segments.dropWhile isFiller).filterMap bodyComponent? = segments.filterMap bodyComponent? := by
  induction segments with
  | nil => rfl
  | cons first more ih =>
    by_cases hfiller : isFiller first = true
    · rw [List.dropWhile_cons_of_pos hfiller, ih,
        List.filterMap_cons_none (bodyComponent?_filler hfiller)]
    · rw [List.dropWhile_cons_of_neg hfiller]

theorem isAbsolute_of_name {p : Path} {first : String} {rest : List Component}
    (h : p.components = .name first :: rest) : p.isAbsolute = false := by
  cases habs : p.isAbsolute with
  | false => rfl
  | true =>
    obtain ⟨tail, -, -, hc⟩ := exists_tail_of_isAbsolute habs
    rw [h] at hc
    cases hc

/-- What follows a name at the start of a path is relative and begins with no dot. -/
theorem components_afterFirst {p : Path} {first : String} {rest : List Component}
    (h : p.components = .name first :: rest) :
    p.afterFirst.isAbsolute = false ∧ p.afterFirst.front = [] ∧ p.afterFirst.segments ≠ [] ∧
      p.afterFirst.segments.filterMap bodyComponent? = rest := by
  have hrelative := isAbsolute_of_name h
  have hnodot : p.front ≠ ["."] := by
    intro hdot
    rw [components_of_not_isAbsolute hrelative, if_pos hdot] at h
    cases h
  have hbody : (p.body.dropWhile isFiller).filterMap bodyComponent? = .name first :: rest := by
    rw [filterMap_dropWhile_isFiller, ← h, components_of_not_isAbsolute hrelative, if_neg hnodot,
      List.nil_append]
  rw [afterFirst, if_neg hnodot]
  cases hkept : p.body.dropWhile isFiller with
  | nil =>
    rw [hkept] at hbody
    cases hbody
  | cons segment more =>
    have hsegment := List.head?_dropWhile_not isFiller p.body
    rw [hkept] at hbody hsegment
    obtain ⟨c, hc⟩ := exists_bodyComponent? (by simpa using hsegment)
    rw [List.filterMap_cons_some hc] at hbody
    have hmore : more.filterMap bodyComponent? = rest := (List.cons.inj hbody).2
    rw [List.drop_one, List.tail_cons]
    rw [← filterMap_dropWhile_isFiller] at hmore
    cases hleft : more.dropWhile isFiller with
    | nil =>
      rw [hleft] at hmore
      exact ⟨rfl, rfl, List.cons_ne_nil _ _, hmore⟩
    | cons next others =>
      have hnext := List.head?_dropWhile_not isFiller more
      rw [hleft] at hmore hnext
      have hfill : next ≠ "" ∧ next ≠ "." := by simpa [isFiller] using hnext
      refine ⟨?_, front_eq_nil hfill.2 fun hempty => absurd hempty hfill.1, List.cons_ne_nil _ _,
        hmore⟩
      change isAbsolute ⟨next :: others⟩ = false
      simp [isAbsolute, hfill.1]

/-- A relative front and the segments after it keep their components when the end is cut off. -/
theorem components_ofParts_front {p : Path} (hp : p.isAbsolute = false) {names rest : List String}
    (hbody : p.body = names ++ rest) (hrest : rest ≠ []) :
    (ofParts p.front names).components =
      (if p.front = ["."] then [.current] else []) ++ names.filterMap bodyComponent? := by
  obtain ⟨habs, -⟩ | ⟨-, hf | hf⟩ := front_cases p
  · rw [hp] at habs
    cases habs
  · rw [hf]
    cases names with
    | nil => rfl
    | cons first more => rfl
  · rw [body, hf] at hbody
    rw [hf]
    cases names with
    | nil => rfl
    | cons first more =>
      change p.segments = _ at hbody
      -- the path is relative and starts with no dot, and so does what is left of it
      have hfirst : front ⟨first :: more⟩ = [] := by
        obtain ⟨segments⟩ := p
        change segments = _ at hbody
        subst hbody
        apply front_eq_nil
        · rintro rfl
          cases hf
        · rintro rfl
          obtain ⟨next, others, hnext⟩ :=
            List.exists_cons_of_ne_nil (List.append_ne_nil_of_right_ne_nil more hrest)
          rw [List.cons_append, hnext] at hp
          cases hp
      change components ⟨first :: more⟩ = _
      rw [components, body, hfirst]
      rfl

theorem exists_of_fileName? {p : Path} {name : String} (h : p.fileName? = some name) :
    ∃ init, p.components = init ++ [.name name] := by
  rw [fileName?] at h
  split at h
  · next text hlast =>
    cases h
    exact List.getLast?_eq_some_iff.mp hlast
  · cases h

/-- A path that ends in a name has the components of its parent and that name. -/
theorem components_of_fileName? {p : Path} {name : String} (h : p.fileName? = some name) :
    p.components = (p.parent?.getD empty).components ++ [.name name] := by
  obtain ⟨init, hinit⟩ := exists_of_fileName? h
  have hlast : p.components.getLast? = some (.name name) := by rw [hinit, List.getLast?_concat]
  cases habs : p.isAbsolute with
  | true =>
    obtain ⟨-, hc⟩ | ⟨d, hd, -, hc⟩ := parent?_cases habs
    · rw [hc] at hlast
      cases hlast
    · rw [hd, Option.getD_some, hc, hinit, List.dropLast_concat]
  | false =>
    have hfront := components_of_not_isAbsolute habs
    rw [parent?]
    cases hkept : dropFiller p.body with
    | nil =>
      -- without a segment that counts there would be no name
      rw [hfront, ← filterMap_dropFiller, hkept, List.filterMap_nil, List.append_nil] at hlast
      split at hlast
      · cases hlast
      · cases hlast
    | cons first more =>
      obtain ⟨c, hbody⟩ := filterMap_of_dropFiller hkept (List.cons_ne_nil first more)
      obtain ⟨rest, hrest, hshort⟩ := exists_rest_of_dropFiller hkept (List.cons_ne_nil first more)
      have hname : c = .name name := by
        rw [hfront, hbody, ← List.append_assoc, List.getLast?_concat] at hlast
        exact Option.some.inj hlast
      rw [Option.getD_some, components_ofParts_front habs hshort hrest, filterMap_dropFiller, hfront,
        hbody, hname, List.append_assoc]

theorem components_of_parent?_eq_none {p : Path} (hp : p.isAbsolute = true)
    (h : p.parent? = none) : p.components = [.root] := by
  obtain ⟨-, hc⟩ | ⟨d, hd, -⟩ := parent?_cases hp
  · exact hc
  · rw [h] at hd
    cases hd

theorem components_parent? {p d : Path} (hp : p.isAbsolute = true) (h : p.parent? = some d) :
    d.isAbsolute = true ∧ d.components = p.components.dropLast := by
  obtain ⟨hnone, -⟩ | ⟨found, hfound, hcases⟩ := parent?_cases hp
  · rw [h] at hnone
    cases hnone
  · rw [h] at hfound
    cases hfound
    exact hcases

end Path

end CrossIndex
