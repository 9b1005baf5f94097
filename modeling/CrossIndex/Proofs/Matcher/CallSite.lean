import CrossIndex.Proofs.Matcher.Key
import CrossIndex.Proofs.Matcher.Window
import CrossIndex.Proofs.Regex.Search

/-!
Calls of given names with a key in quotes. A call that stands in a line may overlap others, as names may
end in one another and occur in keys. Main statement: what is reported are the calls taken from left to
right, each the leftmost one behind the call before it, and no call of a line is missed but one that
overlaps an earlier one taken.
-/

namespace CrossIndex

open Cursor Regex

/-- A call of a name with a key, and the column that it starts at. -/
structure Call where
  column : Nat
  name : String
  key : String
  deriving DecidableEq, Repr

namespace Call

def chars (call : Call) : List Char := call.name.toList ++ (quoted call.key ++ [')'])

/-- The column behind the closing parenthesis. -/
def stop (call : Call) : Nat := call.column + call.chars.length

def keyColumn (call : Call) : Nat := call.column + call.name.length + 2

/-- What is reported of a call in the line with an index. -/
def hit (index : Nat) (call : Call) : KeyHit :=
  ⟨call.name, call.key, Range.onLine index call.keyColumn (call.keyColumn + call.key.length)⟩

/-- The call is one of the names with a key, and the line has it at its column. -/
structure StandsIn (call : Call) (names : List String) (line : List Char) : Prop where
  name_mem : call.name ∈ names
  isKey : IsKey call.key
  occurs : call.chars <+: line.drop call.column

/-- What the groups note when a call is passed. -/
def noted (call : Call) : Captures :=
  [(2, call.keyColumn, call.keyColumn + call.key.length),
    (1, call.column, call.column + call.name.length)]

end Call

/-- The calls are taken one after the other: from a column on the leftmost one, and from its end on the
next ones, until none is left. -/
inductive Takes (names : List String) (line : List Char) : Nat → List Call → Prop where
  | done {column : Nat}
      (hnone : ∀ call : Call, call.StandsIn names line → call.column < column) :
      Takes names line column []
  | next {column : Nat} {call : Call} {more : List Call} (hstands : call.StandsIn names line)
      (hle : column ≤ call.column)
      (hleftmost : ∀ other : Call, other.StandsIn names line → column ≤ other.column →
        call.column ≤ other.column)
      (hmore : Takes names line call.stop more) : Takes names line column (call :: more)

variable {names : List String} {line passed rest : List Char} {call other : Call} {column : Nat}
  {calls : List Call}

namespace Call

theorem length_chars (call : Call) : call.chars.length = call.name.length + (call.key.length + 4) := by
  rw [chars, List.length_append, List.length_append, length_quoted, String.length_toList]
  rfl

theorem StandsIn.exists_split (h : call.StandsIn names (passed ++ rest))
    (hle : passed.length ≤ call.column) :
    ∃ skipped after, rest = skipped ++ (call.chars ++ after) ∧
      call.column = (passed ++ skipped).length := by
  obtain ⟨n, hn⟩ := Nat.exists_eq_add_of_le hle
  obtain ⟨after, hafter⟩ := h.occurs
  rw [hn, List.drop_length_add_append] at hafter
  have hlength := congrArg List.length hafter
  rw [List.length_append, List.length_drop, length_chars] at hlength
  refine ⟨rest.take n, after, ?_, ?_⟩
  · rw [hafter, List.take_append_drop]
  · rw [hn, List.length_append, List.length_take]
    omega

theorem standsIn_append {before : List Char} (hname : call.name ∈ names) (hkey : IsKey call.key)
    (hcolumn : call.column = before.length) (after : List Char) :
    call.StandsIn names (before ++ (call.chars ++ after)) := by
  refine ⟨hname, hkey, after, ?_⟩
  rw [hcolumn, List.drop_left]

/-- At a column of a line stands one call at most. -/
theorem StandsIn.eq (hnames : ∀ name ∈ names, '(' ∉ name.toList) (h : call.StandsIn names line)
    (h' : other.StandsIn names line) (hcolumn : call.column = other.column) : call = other := by
  obtain ⟨after, hafter⟩ := h.occurs
  obtain ⟨after', hafter'⟩ := h'.occurs
  rw [hcolumn, ← hafter'] at hafter
  -- the name goes up to the first parenthesis, and the key up to the next quote
  simp only [chars, List.append_assoc] at hafter
  have hfree : ∀ {name : String}, name ∈ names → ∀ c ∈ name.toList, (c != '(') = true :=
    fun hn c hc => bne_iff_ne.mpr fun he => hnames _ hn (he ▸ hc)
  have hopen : ∀ {key : String} {rest : List Char} (c : Char),
      (quoted key ++ rest).head? = some c → (c != '(') = false := by
    intro key rest c hc
    rw [quoted_append, List.head?_cons, Option.some_inj] at hc
    rw [← hc]
    rfl
  obtain ⟨hname, hquoted⟩ :=
    Text.append_inj_of_head hafter (hfree h.name_mem) hopen (hfree h'.name_mem) hopen
  obtain ⟨hkey, -⟩ := quoted_append_inj h.isKey h'.isKey hquoted
  obtain ⟨column, name, key⟩ := call
  obtain ⟨column', name', key'⟩ := other
  obtain rfl : column = column' := hcolumn
  obtain rfl : name = name' := String.toList_injective hname
  obtain rfl : key = key' := hkey
  rfl

theorem StandsIn.slices (h : call.StandsIn names line) :
    slice line call.column (call.column + call.name.length) = call.name ∧
      slice line call.keyColumn (call.keyColumn + call.key.length) = call.key := by
  have hstart : call.StandsIn names ([] ++ line) := h
  obtain ⟨before, after, rfl, hcolumn⟩ := hstart.exists_split (Nat.zero_le _)
  rw [List.nil_append] at hcolumn
  simp only [chars, keyColumn, hcolumn, List.append_assoc]
  exact ⟨slice_word before _ call.name, slice_quoted before _ call.name call.key⟩

end Call

/-! ### Taken calls -/

namespace Takes

theorem standsIn (h : Takes names line column calls) (hcall : call ∈ calls) :
    call.StandsIn names line ∧ column ≤ call.column := by
  induction h with
  | done => cases hcall
  | @next column first more hstands hle hleftmost hmore ih =>
    rcases List.mem_cons.mp hcall with rfl | hlater
    · exact ⟨hstands, hle⟩
    · obtain ⟨hin, hstop⟩ := ih hlater
      have hlt : first.column ≤ first.stop := Nat.le_add_right _ _
      exact ⟨hin, by omega⟩

/-- No two calls that are taken overlap. -/
theorem pairwise (h : Takes names line column calls) :
    calls.Pairwise fun a b => a.stop ≤ b.column := by
  induction h with
  | done => exact .nil
  | next hstands hle hleftmost hmore ih =>
    exact .cons (fun later hlater => (hmore.standsIn hlater).2) ih

/-- A call that stands in the line is taken, or it starts in an earlier one that is. -/
theorem mem_or_overlaps (hnames : ∀ name ∈ names, '(' ∉ name.toList)
    (h : Takes names line column calls) (hcall : call.StandsIn names line)
    (hle : column ≤ call.column) : call ∈ calls ∨
      ∃ earlier ∈ calls, earlier.column < call.column ∧ call.column < earlier.stop := by
  induction h with
  | done hnone => exact absurd (hnone call hcall) (Nat.not_lt_of_le hle)
  | @next column first more hstands hfirst hleftmost hmore ih =>
    rcases Nat.eq_or_lt_of_le (hleftmost call hcall hle) with hsame | hlt
    · exact Or.inl (hstands.eq hnames hcall hsame ▸ List.mem_cons_self)
    · by_cases hstop : call.column < first.stop
      · exact Or.inr ⟨first, List.mem_cons_self, hlt, hstop⟩
      · rcases ih (Nat.le_of_not_lt hstop) with hmem | ⟨earlier, hmem, hoverlaps⟩
        · exact Or.inl (List.mem_cons_of_mem _ hmem)
        · exact Or.inr ⟨earlier, List.mem_cons_of_mem _ hmem, hoverlaps⟩

theorem unique (hnames : ∀ name ∈ names, '(' ∉ name.toList) {others : List Call}
    (h : Takes names line column calls) (h' : Takes names line column others) : calls = others := by
  induction h generalizing others with
  | done hnone =>
    cases h' with
    | done => rfl
    | next hstands hle => exact absurd (hnone _ hstands) (Nat.not_lt_of_le hle)
  | next hstands hle hleftmost hmore ih =>
    cases h' with
    | done hnone => exact absurd (hnone _ hstands) (Nat.not_lt_of_le hle)
    | next hstands' hle' hleftmost' hmore' =>
      have hcolumn := Nat.le_antisymm (hleftmost _ hstands' hle') (hleftmost' _ hstands hle)
      obtain rfl := hstands.eq hnames hstands' hcolumn
      rw [ih hmore']

end Takes

/-! ### The search -/

namespace Pattern

/-- The pattern passes just the calls, and its groups note their names and keys. -/
theorem way_callSite_iff {t : Stage} :
    (callSite names).body.Way (behind passed rest, []) t ↔
      ∃ call : Call, call.name ∈ names ∧ IsKey call.key ∧ call.column = passed.length ∧
        ∃ after, rest = call.chars ++ after ∧ t = (behind (passed ++ call.chars) after, call.noted) := by
  change (seqs (group 1 (anyName names) :: char '(' :: quote :: keyGroup 2 :: quote ::
    [char ')'])).Way _ _ ↔ _
  simp only [way_seqs_group (isPlain_anyName names), way_quoted, mem_language_anyName]
  simp only [way_seqs_char]
  constructor
  · rintro ⟨_, ⟨name, hname, rfl⟩, _, rfl, key, hkey, _, rfl, after, rfl, ht⟩
    refine ⟨⟨passed.length, name, key⟩, hname, hkey, rfl, after, ?_, ?_⟩
    · simp only [Call.chars, List.append_assoc, List.singleton_append]
    · simp only [Call.chars, Call.noted, Call.keyColumn, ← List.append_assoc]
      rwa [List.length_append, String.length_toList] at ht
  · rintro ⟨⟨column, name, key⟩, hname, hkey, hcolumn, after, rfl, rfl⟩
    obtain rfl : column = passed.length := hcolumn
    refine ⟨_, ⟨name, hname, rfl⟩, quoted key ++ ')' :: after, ?_, key, hkey, ')' :: after, rfl,
      after, rfl, ?_⟩
    · simp only [Call.chars, List.append_assoc, List.singleton_append]
    · simp only [Call.chars, Call.noted, Call.keyColumn, ← List.append_assoc]
      rw [List.length_append, String.length_toList]
      rfl

theorem neverEmpty_callSite (names : List String) : (callSite names).body.NeverEmpty := by
  intro passed rest t h
  obtain ⟨call, -, -, -, after, -, rfl⟩ := way_callSite_iff.mp h
  have hlength := call.length_chars
  simp only [behind, List.length_append]
  omega

theorem keyHit?_callSite {m : Match} (h : call.StandsIn names line) (hnoted : m.captures = call.noted)
    (index : Nat) : (callSite names).keyHit? index line m = some (call.hit index) := by
  obtain ⟨hname, hkey⟩ := h.slices
  have hspans : (callSite names).named? m "name" = some (call.column, call.column + call.name.length) ∧
      (callSite names).named? m "key" = some (call.keyColumn, call.keyColumn + call.key.length) := by
    obtain ⟨start, stop, captures⟩ := m
    obtain rfl : captures = call.noted := hnoted
    exact ⟨rfl, rfl⟩
  rw [keyHit?, hspans.1, hspans.2]
  simp only [Option.bind_eq_bind, Option.bind_some, hname, hkey, Call.hit, Option.pure_def]

/-- Where a call stands behind a place, the search has a way from some place that is left. -/
theorem exists_way_of_standsIn (h : call.StandsIn names (passed ++ rest))
    (hle : passed.length ≤ call.column) :
    ∃ skipped more, rest = skipped ++ more ∧ call.column = (passed ++ skipped).length ∧
      ∃ t, (callSite names).body.Way (behind (passed ++ skipped) more, []) t := by
  obtain ⟨skipped, after, hrest, hcolumn⟩ := h.exists_split hle
  have hway := way_callSite_iff.mpr ⟨call, h.name_mem, h.isKey, hcolumn, after, rfl, rfl⟩
  exact ⟨skipped, _, hrest, hcolumn, _, hway⟩

/-- What the search finds is a call, from its first character to the last. -/
theorem exists_call_of_finds {skipped chars after : List Char} {m : Match}
    (hfinds : (callSite names).body.Finds passed (skipped ++ (chars ++ after)) skipped m)
    (hstop : m.stop = behind (passed ++ skipped ++ chars) after) :
    ∃ call : Call, call.StandsIn names (passed ++ (skipped ++ (chars ++ after))) ∧
      call.column = (passed ++ skipped).length ∧ chars = call.chars ∧ m.captures = call.noted := by
  obtain ⟨text, htext, -, hway⟩ := hfinds
  obtain rfl := List.append_cancel_left htext
  obtain ⟨call, hname, hkey, hcolumn, rest, hrest, ht⟩ := way_callSite_iff.mp hway
  obtain ⟨hend, hnoted⟩ := Prod.mk.inj ht
  -- the match ends where the call does
  obtain ⟨rfl, -⟩ : chars = call.chars ∧ after = rest := by
    have hindex := congrArg Cursor.index (hstop.symm.trans hend)
    simp only [behind, List.length_append] at hindex
    exact List.append_inj hrest (by omega)
  refine ⟨call, ?_, hcolumn, rfl, hnoted⟩
  rw [← List.append_assoc]
  exact Call.standsIn_append hname hkey hcolumn after

theorem exists_takes_of_selects {ms : List Match} (h : (callSite names).body.Selects passed rest ms)
    (hline : line = passed ++ rest) :
    ∃ calls, Takes names line passed.length calls ∧
      ∀ index, ms.filterMap ((callSite names).keyHit? index line) = calls.map (Call.hit index) := by
  -- on how the matches are selected: each match is the leftmost call behind the one before it
  induction h with
  | done hfails =>
    refine ⟨[], .done fun call hcall => ?_, fun _ => rfl⟩
    refine Nat.lt_of_not_le fun hle => ?_
    obtain ⟨skipped, more, hrest, -, t, hway⟩ := exists_way_of_standsIn (hline ▸ hcall) hle
    exact hfails skipped more hrest t hway
  | @next passed skipped chars after m more hfinds hleftmost hstop hmore ih =>
    obtain ⟨call, hstands, hcolumn, rfl, hnoted⟩ := exists_call_of_finds hfinds hstop
    rw [← hline] at hstands
    obtain ⟨calls, htakes, hhits⟩ := ih (by simp only [hline, List.append_assoc])
    have hend : (passed ++ skipped ++ call.chars).length = call.stop := by
      rw [List.length_append, ← hcolumn, Call.stop]
    rw [hend] at htakes
    refine ⟨call :: calls, .next hstands ?_ ?_ htakes, ?_⟩
    · rw [hcolumn, List.length_append]
      exact Nat.le_add_right _ _
    · -- a call further to the left would be a way that the search has passed over
      intro other hother hle
      refine Nat.le_of_not_lt fun hlt => ?_
      obtain ⟨fewer, left, hrest, hcolumn', t, hway⟩ :=
        exists_way_of_standsIn (hline ▸ hother) hle
      have hfewer : fewer.length < skipped.length := by
        rw [hcolumn, hcolumn', List.length_append, List.length_append] at hlt
        omega
      exact hleftmost fewer left hrest hfewer t hway
    · intro index
      rw [List.filterMap_cons, keyHit?_callSite hstands hnoted, hhits, List.map_cons]

/-- The calls of each line are those taken from its start on, and these are the only ones that can be. They
stand in the line and do not overlap, each has its key in the columns reported, and every call that stands
in the line is one of them or starts in an earlier one. -/
structure TakesAll (names : List String) (calls : String → List Call) : Prop where
  takes : ∀ line, Takes names line.toList 0 (calls line)
  unique : ∀ line others, Takes names line.toList 0 others → others = calls line
  apart : ∀ line, (calls line).Pairwise fun a b => a.stop ≤ b.column
  key_eq : ∀ line, ∀ call ∈ calls line, call.StandsIn names line.toList ∧
    slice line.toList call.keyColumn (call.keyColumn + call.key.length) = call.key
  complete : ∀ line, ∀ call : Call, call.StandsIn names line.toList → call ∈ calls line ∨
    ∃ earlier ∈ calls line, earlier.column < call.column ∧ call.column < earlier.stop

/-- A search for names without a parenthesis, such as names of letters, digits, `_` and `:`, reports the calls
that are taken in each line, in order, whatever is then made of them. -/
theorem allKeys_callSite_eq_takes (hne : names ≠ []) (hnames : ∀ name ∈ names, '(' ∉ name.toList) :
    ∃ p, ofNames callSite names = .ok p ∧ ∃ calls, TakesAll names calls ∧ ∀ lines (w : Window),
      p.allKeys lines w = (w.scan lines fun index line _ => (calls line).map (Call.hit index)) ∧
        ∀ (α : Type) (create : KeyHit → Option α), (p.allKeys lines w).filterMap create =
          w.scan lines fun index line _ => (calls line).filterMap fun call => create (call.hit index) := by
  have hlines : ∀ line : String, ∃ calls, Takes names line.toList 0 calls ∧ ∀ index,
      ((callSite names).body.allMatches line.toList).filterMap
        ((callSite names).keyHit? index line.toList) = calls.map (Call.hit index) :=
    fun line => exists_takes_of_selects (selects_allMatches (neverEmpty_callSite names) _) rfl
  obtain ⟨calls, hcalls⟩ := Classical.skolem.mp hlines
  have hall : ∀ lines (w : Window), (callSite names).allKeys lines w =
      w.scan lines fun index line _ => (calls line).map (Call.hit index) := by
    intro lines w
    refine congrArg (w.scan lines) ?_
    funext index line below?
    exact (hcalls line).2 index
  refine ⟨callSite names, if_neg hne, calls, ⟨fun line => (hcalls line).1, ?_, ?_, ?_, ?_⟩, ?_⟩
  · intro line others hothers
    exact hothers.unique hnames (hcalls line).1
  · exact fun line => (hcalls line).1.pairwise
  · intro line call hcall
    obtain ⟨hstands, -⟩ := (hcalls line).1.standsIn hcall
    exact ⟨hstands, hstands.slices.2⟩
  · exact fun line call hcall => (hcalls line).1.mem_or_overlaps hnames hcall (Nat.zero_le _)
  · intro lines w
    refine ⟨hall lines w, fun α create => ?_⟩
    rw [hall, Window.scan_filterMap]
    simp only [List.filterMap_map]
    rfl

/-- A name that ends in another one, a call that stands in a failed attempt at another, and a key that reads
like the start of a call: each call is reported once and none is missed. -/
theorem allKeys_callSite_suffix :
    let names := ["Get", "tvm::Get"]
    let line := "tvm::Get(\"a\"), Get(\"b Get(\"c\"), Get(\"Get(d)\")"
    ∃ calls, TakesAll names calls ∧
      (callSite names).allKeys [line] .all = (calls line).map (Call.hit 0) ∧
      (callSite names).allKeys [line] .all =
        [⟨"tvm::Get", "a", ⟨⟨0, 10⟩, ⟨0, 11⟩⟩⟩, ⟨"Get", "c", ⟨⟨0, 27⟩, ⟨0, 28⟩⟩⟩,
          ⟨"Get", "Get(d)", ⟨⟨0, 37⟩, ⟨0, 43⟩⟩⟩] := by
  intro names line
  obtain ⟨p, hp, calls, htakes, hscan⟩ :=
    allKeys_callSite_eq_takes (show names ≠ [] by decide) (by decide)
  obtain rfl : callSite names = p := Except.ok.inj hp
  obtain ⟨hall, -⟩ := hscan [line] .all
  refine ⟨calls, htakes, ?_, by decide +kernel⟩
  rw [hall]
  exact List.append_nil _

end Pattern

end CrossIndex
