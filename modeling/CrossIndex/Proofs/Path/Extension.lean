import CrossIndex.Path.Extension
import CrossIndex.Proofs.Path.Components

/-!
Extensions of paths. A path without its extension keeps its other components, and stays relative when
it was.
-/

namespace CrossIndex

theorem splitExtension?_of_not_mem {name : List Char} (h : '.' ∉ name) :
    splitExtension? name = none := by
  have hall : ∀ c ∈ name.reverse, decide (c ≠ '.') = true := by
    intro c hc
    have hne : c ≠ '.' := by
      rintro rfl
      exact h (List.mem_reverse.mp hc)
    simpa using hne
  -- the whole name stands after the last dot, so that nothing is left for a stem
  have hwhole : name.reverse.takeWhile (fun c => decide (c ≠ '.')) = name.reverse := by
    have happend := @List.takeWhile_append_of_pos _ _ name.reverse [] hall
    simpa using happend
  rw [splitExtension?, hwhole, List.reverse_reverse]
  exact if_neg fun hc => Nat.lt_irrefl _ hc.1

/-- A name is its stem and its extension, with the dot between them. -/
theorem eq_of_splitExtension? {name stem extension : List Char}
    (h : splitExtension? name = some (stem, extension)) : name = stem ++ '.' :: extension := by
  rw [splitExtension?] at h
  split at h
  · next hc =>
    cases h
    have hsplit : name = (name.reverse.dropWhile fun c => decide (c ≠ '.')).reverse ++
        (name.reverse.takeWhile fun c => decide (c ≠ '.')).reverse := by
      rw [← List.reverse_append, List.takeWhile_append_dropWhile, List.reverse_reverse]
    -- what the extension leaves of the name ends in the dot
    have hhead := List.head?_dropWhile_not (fun c => decide (c ≠ '.')) name.reverse
    cases hrest : name.reverse.dropWhile fun c => decide (c ≠ '.') with
    | nil =>
      rw [hrest, List.reverse_nil, List.nil_append] at hsplit
      exact absurd (congrArg List.length hsplit).symm (Nat.ne_of_lt hc.1)
    | cons dot before =>
      rw [hrest] at hsplit hhead
      obtain rfl : dot = '.' := by simpa using hhead
      rw [List.reverse_cons, List.append_assoc, List.singleton_append] at hsplit
      have hstem : name.length - (name.reverse.takeWhile fun c => decide (c ≠ '.')).reverse.length
          - 1 = before.reverse.length := by
        have hlength := congrArg List.length hsplit
        rw [List.length_append, List.length_cons] at hlength
        omega
      rw [hstem]
      have htake : name.take before.reverse.length = before.reverse := by
        rw [hsplit, List.take_left]
      rw [htake]
      exact hsplit
  · cases h

theorem eq_append_of_python {text : String} {stem : List Char}
    (h : splitExtension? text.toList = some (stem, "py".toList)) :
    text = String.ofList stem ++ ".py" := by
  rw [← String.ofList_toList (s := text), eq_of_splitExtension? h, String.ofList_append]
  rfl

theorem ne_nil_of_splitExtension? {name stem extension : List Char}
    (h : splitExtension? name = some (stem, extension)) : stem ≠ [] := by
  rw [splitExtension?] at h
  split at h
  · next hc =>
    cases h
    exact hc.2
  · cases h

namespace Path

theorem ofParts_concat (segments : List String) (text : String) :
    ofParts [""] (segments ++ [text]) = ⟨"" :: segments ++ [text]⟩ := by
  cases segments with
  | nil => rfl
  | cons first rest => rfl

theorem dropFiller_concat {last : String} (h : isFiller last = false) (segments : List String) :
    dropFiller (segments ++ [last]) = segments ++ [last] := by
  rw [dropFiller, List.reverse_append, List.reverse_singleton, List.singleton_append,
    List.dropWhile_cons_of_neg (by simp [h]), List.reverse_cons, List.reverse_reverse]

theorem isFiller_of_isName {text : String} (h : IsName text) : isFiller text = false := by
  simp [isFiller, h.1, h.2.1]

/-- A path that is written with a name at its end has that name for its last component. -/
theorem components_concat {text : String} (h : IsName text) (segments : List String) :
    ∃ init, components ⟨segments ++ [text]⟩ = init ++ [.name text] := by
  have hbody : ∃ more, body ⟨segments ++ [text]⟩ = more ++ [text] := by
    cases segments with
    | nil => exact ⟨[], by simp [body, front, h.2.1]⟩
    | cons first rest =>
      obtain ⟨-, hf⟩ | ⟨-, hf | hf⟩ := front_cases ⟨first :: rest ++ [text]⟩
      · exact ⟨rest, by rw [body, hf]; rfl⟩
      · exact ⟨rest, by rw [body, hf]; rfl⟩
      · exact ⟨first :: rest, by rw [body, hf]; rfl⟩
  obtain ⟨more, hm⟩ := hbody
  rw [components, hm, List.filterMap_append, List.filterMap_cons_some (bodyComponent?_name h),
    ← List.append_assoc]
  exact ⟨_, rfl⟩

theorem fileName?_of_components {p : Path} {init : List Component} {text : String}
    (h : p.components = init ++ [.name text]) : p.fileName? = some text := by
  rw [fileName?, h, List.getLast?_concat]

theorem extension?_of_components {p : Path} {init : List Component} {text : String}
    (h : p.components = init ++ [.name text]) :
    p.extension? = (splitExtension? text.toList).map fun cut => String.ofList cut.2 := by
  cases hcut : splitExtension? text.toList with
  | none => simp [extension?, fileName?_of_components h, hcut]
  | some cut => simp [extension?, fileName?_of_components h, hcut]

/-- The extension stands at the end of the last name. -/
theorem exists_of_extension? {p : Path} {extension : String} (h : p.extension? = some extension) :
    ∃ init name stem, p.components = init ++ [.name name] ∧
      splitExtension? name.toList = some (stem, extension.toList) := by
  rw [extension?] at h
  obtain ⟨name, hname, hrest⟩ := Option.bind_eq_some_iff.mp h
  obtain ⟨⟨stem, chars⟩, hcut, hchars⟩ := Option.bind_eq_some_iff.mp hrest
  obtain ⟨init, hinit⟩ := exists_of_fileName? hname
  have hextension : chars = extension.toList := by
    rw [← Option.some.inj hchars, String.toList_ofList]
  exact ⟨init, name, stem, hinit, hextension ▸ hcut⟩

/-- A Python file has a name that ends in `.py`. -/
theorem exists_of_python {p : Path} (h : SourceKind.of p = .python) :
    ∃ init name stem, p.components = init ++ [.name name] ∧
      splitExtension? name.toList = some (stem, "py".toList) := by
  apply exists_of_extension?
  rw [SourceKind.of] at h
  split at h
  · assumption
  · cases h
  · cases h
  · cases h
  · cases h

theorem withoutExtension_eq {p : Path} {name last : String} {init : List String}
    {stem extension : List Char} (hname : p.fileName? = some name)
    (hkept : dropFiller p.body = init ++ [last])
    (hcut : splitExtension? name.toList = some (stem, extension)) :
    p.withoutExtension = ofParts p.front (init ++ [String.ofList stem]) := by
  rw [withoutExtension, hname, hkept]
  cases init with
  | nil => simp [hcut]
  | cons first rest => simp [hcut, List.dropLast_cons_of_ne_nil]

theorem withoutExtension_ofParts {segments : List String} {text : String} (h : IsName text)
    {stem extension : List Char} (hcut : splitExtension? text.toList = some (stem, extension)) :
    (ofParts [""] (segments ++ [text])).withoutExtension =
      ofParts [""] (segments ++ [String.ofList stem]) := by
  have hfront : front ⟨"" :: segments ++ [text]⟩ = [""] := by
    cases segments with
    | nil => rfl
    | cons first rest => rfl
  have hkept : dropFiller (body ⟨"" :: segments ++ [text]⟩) = segments ++ [text] := by
    rw [body, hfront]
    exact dropFiller_concat (isFiller_of_isName h) segments
  obtain ⟨init, hinit⟩ := components_concat h ("" :: segments)
  rw [ofParts_concat, withoutExtension_eq (fileName?_of_components hinit) hkept hcut, hfront]

/-- A relative path stays relative when its end is replaced. -/
theorem isAbsolute_ofParts_front {p : Path} (h : p.isAbsolute = false) {init rest : List String}
    (hbody : p.body = init ++ rest) (hrest : rest ≠ []) (last : String) :
    (ofParts p.front (init ++ [last])).isAbsolute = false := by
  obtain ⟨ha, -⟩ | ⟨-, hf | hf⟩ := front_cases p
  · rw [h] at ha
    cases ha
  · rw [hf]
    rfl
  · rw [body, hf] at hbody
    rw [hf]
    cases init with
    | nil => simp [ofParts, isAbsolute]
    | cons first more =>
      have hroot : first ≠ "" := by
        -- an empty first segment with another one after it is the root
        rintro rfl
        have habs : p.isAbsolute = true := by
          obtain ⟨next, others, hnext⟩ :=
            List.exists_cons_of_ne_nil (List.append_ne_nil_of_right_ne_nil more hrest)
          exact isAbsolute_iff.mpr ⟨next, others, hnext ▸ hbody⟩
        rw [h] at habs
        cases habs
      simp [ofParts, isAbsolute, hroot]

/-- A new segment at the end of a path leaves what comes before it, unless it is a lone dot. -/
theorem front_ofParts {p : Path} {init rest : List String} (hbody : p.body = init ++ rest)
    (hrest : rest ≠ []) {last : String} (hlast : last ≠ "." ∨ p.front ++ init ≠ []) :
    (ofParts p.front (init ++ [last])).front = p.front ∧
      (ofParts p.front (init ++ [last])).body = init ++ [last] := by
  have hfront : (ofParts p.front (init ++ [last])).front = p.front := by
    obtain ⟨-, hf⟩ | ⟨hrelative, hf⟩ := front_cases p
    · rw [hf, ofParts_concat]
      cases init with
      | nil => rfl
      | cons first more => rfl
    · have hreplaced := isAbsolute_ofParts_front hrelative hbody hrest last
      rcases hf with hf | hf
      · rw [hf]
        rfl
      · rw [hf] at hreplaced ⊢
        cases init with
        | nil =>
          have hdot : last ≠ "." := hlast.resolve_right fun hne => hne (by rw [hf]; rfl)
          rw [front_of_segments hreplaced rfl]
          exact if_neg hdot
        | cons first more =>
          have hsegments : p.segments = first :: (more ++ rest) := by
            rw [← p.front_append_body, hf, hbody]
            rfl
          have hold := front_of_segments hrelative hsegments
          rw [front_of_segments hreplaced rfl, ← hold, hf]
  refine ⟨hfront, ?_⟩
  have happend := front_append_body (ofParts p.front (init ++ [last]))
  have hsegments : (ofParts p.front (init ++ [last])).segments = p.front ++ (init ++ [last]) := by
    obtain ⟨-, hf⟩ | ⟨-, hf | hf⟩ := front_cases p
    · rw [hf, ofParts_concat]
      rfl
    · rw [hf]
      rfl
    · rw [hf]
      cases init with
      | nil => rfl
      | cons first more => rfl
  rw [hfront, hsegments] at happend
  exact List.append_cancel_left happend

/-- Without its extension a path ends in the stem of its last name, which may be no name. -/
theorem components_withoutExtension {p : Path} {init : List Component} {name : String}
    {stem extension : List Char} (hc : p.components = init ++ [.name name])
    (hcut : splitExtension? name.toList = some (stem, extension))
    (hstem : String.ofList stem ≠ "." ∨ init ≠ []) :
    p.withoutExtension.components = init ++ (bodyComponent? (String.ofList stem)).toList := by
  have hkept : dropFiller p.body ≠ [] := by
    intro hnil
    have hmem : .name name ∈ p.components := by simp [hc]
    obtain ⟨hroot, -⟩ | hcurrent | hbody := mem_components hmem
    · cases hroot
    · cases hcurrent
    · have hin := List.mem_filterMap.mpr hbody
      rw [← filterMap_dropFiller, hnil] at hin
      cases hin
  have hcutKept := (List.dropLast_concat_getLast hkept).symm
  obtain ⟨c, hbody⟩ := filterMap_of_dropFiller rfl hkept
  obtain ⟨filler, hfiller, -⟩ := exists_filler p.body
  rw [hcutKept, List.append_assoc] at hfiller
  -- what comes before the last name is the front of the path and the body before that name
  obtain ⟨start, hstart, hempty, hfronts⟩ : ∃ start,
      p.components = start ++ p.body.filterMap bodyComponent? ∧ (p.front = [] → start = []) ∧
        ∀ q : Path, q.front = p.front → q.components = start ++ q.body.filterMap bodyComponent? := by
    refine ⟨_, rfl, ?_, ?_⟩
    · intro hf
      rw [hf]
    · intro q hq
      rw [components, hq]
  have hinit : start ++ (dropFiller p.body).dropLast.filterMap bodyComponent? = init := by
    rw [hstart, hbody, ← List.append_assoc] at hc
    exact (List.append_inj' hc rfl).1
  have hplace : String.ofList stem ≠ "." ∨ p.front ++ (dropFiller p.body).dropLast ≠ [] := by
    refine hstem.imp_right ?_
    intro hne hnil
    obtain ⟨hf, hb⟩ := List.append_eq_nil_iff.mp hnil
    rw [← hinit, hempty hf, hb] at hne
    exact hne rfl
  obtain ⟨hfront, hnew⟩ := front_ofParts hfiller (by simp) hplace
  rw [withoutExtension_eq (fileName?_of_components hc) hcutKept hcut, hfronts _ hfront, hnew,
    List.filterMap_append, ← List.append_assoc, hinit]
  cases hlast : bodyComponent? (String.ofList stem) with
  | none => rw [List.filterMap_cons_none hlast]; rfl
  | some last => rw [List.filterMap_cons_some hlast]; rfl

theorem isAbsolute_withoutExtension {p : Path} (h : p.isAbsolute = false) :
    p.withoutExtension.isAbsolute = false := by
  rw [withoutExtension]
  split
  · next name kept first more hname hkept =>
    obtain ⟨filler, hsplit, -⟩ := exists_filler p.body
    have hcut := (List.dropLast_concat_getLast (List.cons_ne_nil first more)).symm
    rw [hkept, hcut, List.append_assoc] at hsplit
    have hreplaced := isAbsolute_ofParts_front h hsplit (by simp)
    split
    · exact hreplaced _
    · rw [hcut]
      exact hreplaced _
  · exact h

theorem withoutExtension_isAbsolute (p : Path) : p.withoutExtension.isAbsolute = p.isAbsolute := by
  cases h : p.isAbsolute with
  | false => exact isAbsolute_withoutExtension h
  | true =>
    obtain ⟨-, hfront⟩ | ⟨hrelative, -⟩ := front_cases p
    · rw [withoutExtension, hfront]
      split
      · split
        · exact isAbsolute_ofParts _
        · exact isAbsolute_ofParts _
      · exact h
    · rw [h] at hrelative
      cases hrelative

end Path

end CrossIndex
