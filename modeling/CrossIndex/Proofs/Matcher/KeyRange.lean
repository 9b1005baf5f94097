import CrossIndex.Matcher.Decorator
import CrossIndex.Proofs.Matcher.Window
import CrossIndex.Proofs.Regex.Groups
import CrossIndex.Proofs.Text.Column

/-!
What the ranges of matches stand for. Matching tells places by the characters before them, and the bytes
before a place give the same column. Main statement: the range of every match of a pattern, and of every
key given by name, lies inside of one line of the file and covers just the text that was matched there.
-/

namespace CrossIndex

/-- The columns are places of the line, and the text stands between them. The same columns belong to the
bytes at which the text starts and ends. -/
structure Covers (line text : String) (first last : Nat) : Prop where
  first_le : first ≤ last
  last_le : last ≤ line.length
  slice_eq : slice line.toList first last = text
  bytes : ∃ start, first = Text.charColumn line start ∧
    last = Text.charColumn line (start + text.utf8ByteSize)

/-- The range lies on one line of the file and covers the text there. -/
def Range.Denotes (lines : List String) (r : Range) (text : String) : Prop :=
  r.stop.line = r.start.line ∧
    ∃ line, lines[r.start.line]? = some line ∧ Covers line text r.start.column r.stop.column

/-- A range covers one text only. -/
theorem Range.Denotes.text_eq {lines : List String} {r : Range} {text text' : String}
    (h : r.Denotes lines text) (h' : r.Denotes lines text') : text = text' := by
  obtain ⟨-, line, hline, hcovers⟩ := h
  obtain ⟨-, line', hline', hcovers'⟩ := h'
  obtain rfl : line = line' := Option.some.inj (hline.symm.trans hline')
  exact hcovers.slice_eq.symm.trans hcovers'.slice_eq

/-- The text that a match is reported for: that of the group `key` if it took part, else all of the
match. -/
def Found.reported (p : Pattern) (f : Found) : String :=
  if (p.named? f.place "key").isSome then f.named p "key"
  else slice f.text f.place.start f.place.stop.index

variable {lines : List String} {line : String} {i first last : Nat} {place : Match}

theorem covers_slice (hle : first ≤ last) (hlast : last ≤ line.length) :
    Covers line (slice line.toList first last) first last := by
  have hlength : last ≤ line.toList.length := String.length_toList ▸ hlast
  -- up to the end of the slice there are the characters before it and those of the slice
  have hbytes : Text.byteLength (line.toList.take last) =
      Text.byteLength (line.toList.take first) + (slice line.toList first last).utf8ByteSize := by
    calc Text.byteLength (line.toList.take last)
        = Text.byteLength (line.toList.take first ++
            (line.toList.drop first).take (last - first)) := by
          rw [← List.take_add, Nat.add_sub_cancel' hle]
      _ = Text.byteLength (line.toList.take first) +
            Text.byteLength ((line.toList.drop first).take (last - first)) :=
          Text.byteLength_append _ _
      _ = _ := by rw [← Text.byteLength_toList, slice, String.toList_ofList]
  refine ⟨hle, hlast, rfl, Text.byteLength (line.toList.take first), ?_, ?_⟩
  · exact (Text.charsBefore_byteLength_take (Nat.le_trans hle hlength)).symm
  · rw [← hbytes]
    exact (Text.charsBefore_byteLength_take hlength).symm

theorem denotes_onLine (hline : lines[i]? = some line) (hle : first ≤ last)
    (hlast : last ≤ line.toList.length) :
    (Range.onLine i first last).Denotes lines (slice line.toList first last) :=
  ⟨rfl, line, hline, covers_slice hle (String.length_toList ▸ hlast)⟩

namespace Pattern

variable {p : Pattern} {name : String}

/-- A named group of a match in a line spans a part of the line. -/
theorem bounds_of_named? (hplace : place.LiesIn line.toList)
    (h : p.named? place name = some (first, last)) :
    first ≤ last ∧ last ≤ line.toList.length := by
  obtain ⟨group, -, hspan⟩ := Option.bind_eq_some_iff.mp h
  have hgroup := hplace.group group first last hspan
  have hstop := hplace.stop_le
  omega

theorem denotes_of_foundIn {found : Found} (hline : lines[i]? = some line)
    (h : p.foundIn i line = some found) : found.range.Denotes lines (found.reported p) := by
  simp only [foundIn, Option.bind_eq_bind, Option.bind_eq_some_iff, Option.pure_def,
    Option.some.injEq] at h
  obtain ⟨place, hfound, rfl⟩ := h
  have hplace := Regex.liesIn_of_search? hfound
  cases hkey : p.named? place "key" with
  | some span =>
    obtain ⟨first, last⟩ := span
    obtain ⟨hle, hlast⟩ := bounds_of_named? hplace hkey
    simp only [Found.reported, Found.named, reportedSpan, hkey, Option.isSome_some, if_true,
      Option.getD_some]
    exact denotes_onLine hline hle hlast
  | none =>
    simp only [Found.reported, reportedSpan, hkey, Option.isSome_none, Bool.false_eq_true, if_false,
      Option.getD_none]
    exact denotes_onLine hline hplace.start_le hplace.stop_le

/-- Every match of the pattern has a group `key` that took part. -/
def alwaysKeyed (p : Pattern) : Bool := (p.names.lookup "key").any p.body.alwaysNotes

/-- Where every match has a key, the range of a match covers the key. -/
theorem denotes_named_of_foundIn {found : Found} (hp : p.alwaysKeyed = true)
    (hline : lines[i]? = some line) (h : p.foundIn i line = some found) :
    found.range.Denotes lines (found.named p "key") := by
  have hdenotes := denotes_of_foundIn hline h
  obtain ⟨place, hfound, h⟩ := Option.bind_eq_some_iff.mp h
  obtain rfl := Option.some.inj h
  have hkeyed : (p.named? place "key").isSome = true := by
    obtain ⟨skipped, hfinds, -⟩ := Regex.finds_of_search? hfound
    rw [alwaysKeyed] at hp
    rw [named?]
    cases hindex : p.names.lookup "key" with
    | none =>
      rw [hindex] at hp
      cases hp
    | some index =>
      rw [hindex] at hp
      exact hfinds.isSome_span? hp
  rwa [Found.reported, if_pos hkeyed] at hdenotes

theorem denotes_of_keyHit? {hit : KeyHit} (hline : lines[i]? = some line)
    (hplace : place.LiesIn line.toList) (h : p.keyHit? i line.toList place = some hit) :
    hit.range.Denotes lines hit.key := by
  simp only [keyHit?, Option.bind_eq_bind, Option.bind_eq_some_iff, Option.pure_def,
    Option.some.injEq] at h
  obtain ⟨name, -, ⟨first, last⟩, hkey, rfl⟩ := h
  obtain ⟨hle, hlast⟩ := bounds_of_named? hplace hkey
  exact denotes_onLine hline hle hlast

end Pattern

/-- The key of a decorator is covered on its own line, or on the line below. -/
theorem DecoratorMatcher.denotes_of_hit? {d : DecoratorMatcher} {hit : KeyHit}
    (hline : lines[i]? = some line) (h : d.hit? i line lines[i + 1]? = some hit) :
    hit.range.Denotes lines hit.key := by
  simp only [hit?, Option.bind_eq_bind, Option.bind_eq_some_iff] at h
  obtain ⟨place, hfound, ⟨nameFirst, nameLast⟩, -, h⟩ := h
  cases hkey : d.decorator.named? place "key" with
  | some span =>
    obtain ⟨first, last⟩ := span
    rw [hkey] at h
    cases h
    obtain ⟨hle, hlast⟩ := Pattern.bounds_of_named? (Regex.liesIn_of_search? hfound) hkey
    exact denotes_onLine hline hle hlast
  | none =>
    simp only [hkey, Option.bind_eq_some_iff, Option.pure_def, Option.some.injEq] at h
    obtain ⟨below, hbelow, place', hfound', ⟨first, last⟩, hkey', rfl⟩ := h
    obtain ⟨hle, hlast⟩ := Pattern.bounds_of_named? (Regex.liesIn_of_search? hfound') hkey'
    exact denotes_onLine hbelow hle hlast

/-- Whatever the pattern, the lines and the window, the range of a match covers the text that the match
is reported for, that of a key its text, and that of a decorator's key the text of the key, which a bare
decorator has on the line below. -/
theorem denotes_reported (lines : List String) (w : Window) :
    (∀ (p : Pattern), ∀ found ∈ p.foundInLines lines w,
        found.range.Denotes lines (found.reported p)) ∧
      (∀ (p : Pattern), ∀ hit ∈ p.lineKeys lines w, hit.range.Denotes lines hit.key) ∧
        (∀ (p : Pattern), ∀ hit ∈ p.allKeys lines w, hit.range.Denotes lines hit.key) ∧
          ∀ (d : DecoratorMatcher), ∀ hit ∈ d.hits lines w, hit.range.Denotes lines hit.key := by
  refine ⟨?_, ?_, ?_, ?_⟩
  · intro p found hmem
    obtain ⟨i, line, -, hline, hfound⟩ := Window.mem_scan_iff.mp hmem
    exact Pattern.denotes_of_foundIn hline (Option.mem_toList.mp hfound)
  · intro p hit hmem
    obtain ⟨i, line, -, hline, hfound⟩ := Window.mem_scan_iff.mp hmem
    obtain ⟨place, hplace, hhit⟩ := Option.bind_eq_some_iff.mp (Option.mem_toList.mp hfound)
    exact Pattern.denotes_of_keyHit? hline (Regex.liesIn_of_search? hplace) hhit
  · intro p hit hmem
    obtain ⟨i, line, -, hline, hfound⟩ := Window.mem_scan_iff.mp hmem
    obtain ⟨place, hplace, hhit⟩ := List.mem_filterMap.mp hfound
    exact Pattern.denotes_of_keyHit? hline (Regex.liesIn_of_mem_allMatches hplace) hhit
  · intro d hit hmem
    obtain ⟨i, line, -, hline, hfound⟩ := Window.mem_scan_iff.mp hmem
    exact DecoratorMatcher.denotes_of_hit? hline (Option.mem_toList.mp hfound)

/-- A group that takes part on one line only, a call behind characters of several bytes, and the key of
a bare decorator behind wide blanks. -/
theorem denotes_reported_wide :
    let lines := ["é = get(\"a\") + get(\"😀.b\")", "@register", "\u2003 def key(x):"]
    let p : Pattern := ⟨.opt true (.group 1 (.char 'é')), [("key", 1)]⟩
    let called := KeyHit.mk "get" "😀.b" (Range.onLine 0 20 23)
    let declared := KeyHit.mk "register" "key" (Range.onLine 2 6 9)
    ((p.foundInLines lines .all).map fun found => (found.range, found.reported p)) =
        [(.onLine 0 0 1, "é"), (.onLine 1 0 0, ""), (.onLine 2 0 0, "")] ∧
      (∀ found ∈ p.foundInLines lines .all, found.range.Denotes lines (found.reported p)) ∧
        called.range.Denotes lines called.key ∧ declared.range.Denotes lines declared.key := by
  intro lines p called declared
  obtain ⟨hfound, -, hcalls, hdecorators⟩ := denotes_reported lines .all
  refine ⟨by decide +kernel, hfound p, ?_, ?_⟩
  · exact hcalls (.callSite ["get"]) called (by decide +kernel)
  · exact hdecorators (.ofNames ["register"] "def") declared (by decide +kernel)

end CrossIndex
