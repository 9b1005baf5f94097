import CrossIndex.Proofs.Matcher.DecoratorGrammar
import CrossIndex.Proofs.Matcher.Window
import CrossIndex.Proofs.Regex.Search

/-!
Hits of decorators. The pattern of decorators and that of declarations read what the grammar has, from the
start of a line. Main statement: the keys of the decorators in a window are just those of the lines that meet
the grammar, one for each line.
-/

namespace CrossIndex

open Cursor Regex

variable {names : List String} {keyword : String} {passed text : List Char} {captures : Captures}
  {t : Stage}

/-! ### The patterns -/

namespace Pattern

theorem mem_language_pair {word : List Char} :
    word ∈ (seqs [char '(', blanks, char ')']).language ↔
      ∃ between, AreBlanks between ∧ word = '(' :: (between ++ [')']) := by
  rw [language_seqs_cons, Language.mem_mul]
  constructor
  · rintro ⟨_, hopen, _, ⟨between, hbetween, _, hclose, rfl⟩, rfl⟩
    rw [mem_language_char.mp hopen, mem_language_char.mp hclose]
    exact ⟨between, mem_language_blanks.mp hbetween, rfl⟩
  · rintro ⟨between, hbetween, rfl⟩
    have hinside : between ++ [')'] ∈ (seqs [blanks, char ')']).language :=
      Language.append_mem_mul (mem_language_blanks.mpr hbetween) (mem_language_char.mpr rfl)
    exact ⟨['('], mem_language_char.mpr rfl, _, hinside, rfl⟩

/-- The second form of a decorator ends with the line. -/
theorem way_bareEnd_iff :
    (seqs [blanks, opt true (seqs [char '(', blanks, char ')']), blanks, anchor .textEnd]).Way
        (behind passed text, captures) t ↔
      IsBareEnd text ∧ t = (behind (passed ++ text) [], captures) := by
  have hblanks : blanks.isPlain = true := rfl
  have hpair : (opt true (seqs [char '(', blanks, char ')'])).isPlain = true := rfl
  simp only [way_seqs_plain hblanks, way_seqs_plain hpair, way_seqs_textEnd, mem_language_opt,
    mem_language_pair, mem_language_blanks]
  constructor
  · rintro ⟨before, hbefore, _, rfl, word, hword, _, rfl, after, hafter, _, rfl, rfl, ht⟩
    obtain rfl : t = (behind (passed ++ before ++ word ++ after) [], captures) := ht
    rcases hword with ⟨between, hbetween, rfl⟩ | rfl
    · simp only [List.append_assoc, List.cons_append, List.append_nil, List.nil_append, and_true]
      exact .pair hbefore hbetween hafter
    · simp only [List.append_assoc, List.append_nil, List.nil_append, and_true]
      exact .blanks fun c hc => (List.mem_append.mp hc).elim (hbefore c) (hafter c)
  · rintro ⟨hclose, rfl⟩
    cases hclose with
    | blanks h =>
      have hnone : AreBlanks [] := fun c hc => by cases hc
      refine ⟨text, h, [], (List.append_nil text).symm, [], Or.inr rfl, [], rfl, [], hnone, [], rfl,
        rfl, ?_⟩
      simp only [List.append_nil]
      rfl
    | @pair before between after hbefore hbetween hafter =>
      refine ⟨before, hbefore, '(' :: (between ++ ')' :: after), rfl, '(' :: (between ++ [')']),
        Or.inl ⟨between, hbetween, rfl⟩, after, ?_, after, hafter, [], (List.append_nil after).symm,
        rfl, ?_⟩
      · simp only [List.append_assoc, List.cons_append, List.nil_append]
      · simp only [List.append_assoc, List.cons_append, List.nil_append]
        rfl

/-- What the two forms of a decorator have in common: the start of the line, its indent and the name. -/
theorem way_decorated_iff (more : List Regex) :
    (seqs (anchor .textStart :: blanks :: opt true (char '@') ::
        group 1 (seq (star true (seq identifier (char '.'))) (anyName names)) :: more)).Way
        (behind passed text, []) t ↔
      passed = [] ∧ ∃ indent, IsIndent indent ∧ ∃ name, IsQualified names name ∧
        ∃ rest, text = indent ++ (name.toList ++ rest) ∧
          (seqs more).Way (behind (indent ++ name.toList) rest,
            [(1, indent.length, indent.length + name.length)]) t := by
  have hblanks : blanks.isPlain = true := rfl
  have hsign : (opt true (char '@')).isPlain = true := rfl
  have hlength : ∀ (indent : List Char) (name : String),
      (indent ++ name.toList).length = indent.length + name.length := by
    intro indent name
    rw [List.length_append, String.length_toList]
  simp only [way_seqs_textStart, way_seqs_plain hblanks, way_seqs_plain hsign,
    way_seqs_group (isPlain_qualified names), mem_language_opt, mem_language_char,
    mem_language_blanks, mem_language_qualified]
  constructor
  · rintro ⟨rfl, blanks, hblanks, _, rfl, sign, hsign, _, rfl, _, ⟨name, hname, rfl⟩, rest, rfl, h⟩
    have hindent : IsIndent (blanks ++ sign) := by
      refine ⟨blanks, hblanks, ?_⟩
      rcases hsign with rfl | rfl
      · exact Or.inr rfl
      · exact Or.inl (List.append_nil blanks)
    refine ⟨rfl, blanks ++ sign, hindent, name, hname, rest, (List.append_assoc _ _ _).symm, ?_⟩
    rwa [List.nil_append, hlength] at h
  · rintro ⟨rfl, indent, ⟨blanks, hblanks, hindent⟩, name, hname, rest, rfl, h⟩
    obtain ⟨sign, hsign, rfl⟩ : ∃ sign, (sign = ['@'] ∨ sign = []) ∧ indent = blanks ++ sign := by
      rcases hindent with rfl | rfl
      · exact ⟨[], Or.inr rfl, (List.append_nil _).symm⟩
      · exact ⟨['@'], Or.inl rfl, rfl⟩
    refine ⟨rfl, blanks, hblanks, sign ++ (name.toList ++ rest), List.append_assoc _ _ _, sign, hsign,
      name.toList ++ rest, rfl, name.toList, ⟨name, hname, rfl⟩, rest, rfl, ?_⟩
    rwa [List.nil_append, hlength]

/-- The pattern of decorators reads just the decorators of the grammar. -/
theorem readsStart_decorator (hnames : ∀ name ∈ names, IsIdentifier name.toList) :
    (decorator names).body.ReadsStart (Decorator.StandsIn names) Decorator.noted := by
  refine ⟨?_, ?_, Decorator.StandsIn.unique hnames⟩
  · intro passed text t h
    obtain ⟨hpassed, indent, hindent, name, hname, rest, rfl, hform⟩ := (way_decorated_iff _).mp h
    rcases hform with hkeyed | hbare
    · obtain ⟨key, hkey, tail, rfl, hend⟩ := (way_quoted 2 []).mp hkeyed
      refine ⟨hpassed, _, .keyed hindent hname hkey tail, ?_⟩
      rw [List.length_append, String.length_toList] at hend
      exact congrArg Prod.snd hend
    · obtain ⟨hclose, rfl⟩ := way_bareEnd_iff.mp hbare
      exact ⟨hpassed, _, .bare hindent hname hclose, rfl⟩
  · intro d text h
    cases h with
    | @keyed indent name key hindent hname hkey tail =>
      obtain ⟨t, hkeyed⟩ : ∃ t, (seqs [char '(', quote, keyGroup 2, quote]).Way
          (behind (indent ++ name.toList) (quoted key ++ tail),
            [(1, indent.length, indent.length + name.length)]) t :=
        ⟨_, (way_quoted 2 []).mpr ⟨key, hkey, tail, rfl, rfl⟩⟩
      exact ⟨t, (way_decorated_iff _).mpr
        ⟨rfl, indent, hindent, name, hname, _, rfl, Or.inl hkeyed⟩⟩
    | @bare indent close name hindent hname hclose =>
      obtain ⟨t, hbare⟩ : ∃ t,
          (seqs [blanks, opt true (seqs [char '(', blanks, char ')']), blanks, anchor .textEnd]).Way
            (behind (indent ++ name.toList) close,
              [(1, indent.length, indent.length + name.length)]) t :=
        ⟨_, way_bareEnd_iff.mpr ⟨hclose, rfl⟩⟩
      exact ⟨t, (way_decorated_iff _).mpr
        ⟨rfl, indent, hindent, name, hname, _, rfl, Or.inr hbare⟩⟩

/-- The pattern of declarations passes just the declarations, from the start of a line. -/
theorem way_declaration_iff :
    (declaration keyword).body.Way (behind passed text, captures) t ↔
      passed = [] ∧ ∃ indent, AreBlanks indent ∧ ∃ gap, (gap ≠ [] ∧ AreBlanks gap) ∧
        ∃ name, IsIdentifier name ∧ ∃ blanks, AreBlanks blanks ∧
          ∃ opener, (opener = '(' ∨ opener = ':') ∧ ∃ tail,
            text = indent ++ (keyword.toList ++ (gap ++ (name ++ (blanks ++ opener :: tail)))) ∧
              t = (behind (indent ++ (keyword.toList ++ (gap ++ (name ++ (blanks ++ [opener]))))) tail,
                (1, (indent ++ (keyword.toList ++ gap)).length,
                  (indent ++ (keyword.toList ++ (gap ++ name))).length) :: captures) := by
  have hblanks : blanks.isPlain = true := rfl
  have hblanks1 : blanks1.isPlain = true := rfl
  have hidentifier : identifier.isPlain = true := rfl
  have hopener : (one (.union (.single '(') (.single ':'))).isPlain = true := rfl
  have hmem : ∀ word, word ∈ (one (.union (.single '(') (.single ':'))).language ↔
      ∃ opener, (opener = '(' ∨ opener = ':') ∧ word = [opener] := by
    intro word
    refine exists_congr fun opener => and_congr_left fun _ => ?_
    rw [CharClass.contains_union, Bool.or_eq_true, CharClass.contains_single,
      CharClass.contains_single]
  simp only [declaration, way_seqs_textStart, way_seqs_plain hblanks, way_seqs_plain hblanks1,
    way_seqs_plain (isPlain_text keyword), way_seqs_group hidentifier, way_seqs_plain hopener, hmem,
    mem_language_blanks, mem_language_blanks1, mem_language_text, mem_language_identifier]
  constructor
  · rintro ⟨rfl, indent, hindent, _, rfl, _, rfl, _, rfl, gap, hgap, _, rfl, name, hname, _, rfl,
      blanks, hblanks, _, rfl, _, ⟨opener, hopener, rfl⟩, tail, rfl, ht⟩
    refine ⟨rfl, indent, hindent, gap, hgap, name, hname, blanks, hblanks, opener, hopener, tail, rfl, ?_⟩
    simp only [List.nil_append, List.append_assoc] at ht
    exact ht
  · rintro ⟨rfl, indent, hindent, gap, hgap, name, hname, blanks, hblanks, opener, hopener, tail, rfl,
      rfl⟩
    refine ⟨rfl, indent, hindent, _, rfl, _, rfl, _, rfl, gap, hgap, _, rfl, name, hname, _, rfl,
      blanks, hblanks, _, rfl, _, ⟨opener, hopener, rfl⟩, tail, rfl, ?_⟩
    simp only [List.nil_append, List.append_assoc]
    rfl

theorem readsStart_declaration (hkeyword : IsIdentifier keyword.toList) :
    (declaration keyword).body.ReadsStart (Declaration.StandsIn keyword) Declaration.noted := by
  refine ⟨?_, ?_, Declaration.StandsIn.unique hkeyword⟩
  · intro passed text t h
    obtain ⟨hpassed, indent, hindent, gap, ⟨hne, hgap⟩, name, hname, blanks, hblanks, opener, hopener,
      tail, rfl, rfl⟩ := way_declaration_iff.mp h
    rw [← String.toList_ofList (l := name)] at hname ⊢
    refine ⟨hpassed, _, .intro hindent hne hgap hname hblanks hopener tail, ?_⟩
    simp only [Declaration.noted, List.length_append, String.length_toList, Nat.add_assoc]
  · intro d text h
    cases h with
    | intro hindent hne hgap hname hblanks hopener tail =>
      exact ⟨_, way_declaration_iff.mpr ⟨rfl, _, hindent, _, ⟨hne, hgap⟩, _, hname, _, hblanks, _,
        hopener, tail, rfl, rfl⟩⟩

end Pattern

/-! ### Hits -/

namespace DecoratorMatcher

variable {lines : List String} {i : Nat} {line : String} {hit : KeyHit}

theorem named?_decorator (names : List String) {d : Decorator} {m : Match} (h : m.captures = d.noted) :
    (Pattern.decorator names).named? m "name" = some (d.column, d.column + d.name.length) ∧
      (Pattern.decorator names).named? m "key" =
        d.key?.map fun key => (d.keyColumn, d.keyColumn + key.length) := by
  obtain ⟨start, stop, captures⟩ := m
  obtain rfl : captures = d.noted := h
  obtain ⟨column, name, key?⟩ := d
  cases key? with
  | none => exact ⟨rfl, rfl⟩
  | some key => exact ⟨rfl, rfl⟩

theorem hit?_of_keyed (hnames : ∀ name ∈ names, IsIdentifier name.toList) {column : Nat}
    {name key : String} (h : Decorator.StandsIn names ⟨column, name, some key⟩ line.toList)
    (i : Nat) (below? : Option String) : (ofNames names keyword).hit? i line below? =
      some ⟨name, key,
        Range.onLine i (column + name.length + 2) (column + name.length + 2 + key.length)⟩ := by
  obtain ⟨m, hsearch, hnoted⟩ := (Pattern.readsStart_decorator hnames).search?_of_standsIn h
  obtain ⟨hname, hkey⟩ := named?_decorator names hnoted
  obtain ⟨hslice, hslices⟩ := h.slices
  have hkeySlice := hslices key rfl
  simp only [hit?, ofNames, hsearch, hname, hkey, Option.bind_eq_bind, Option.bind_some,
    Option.map_some, hslice, hkeySlice, Option.pure_def]
  rfl

/-- The hit of a bare decorator: the name that the line below declares. -/
def declared? (keyword name : String) (i : Nat) (below : String) : Option KeyHit := do
  let place ← (Pattern.declaration keyword).body.search? below.toList
  let (first, last) ← (Pattern.declaration keyword).named? place "key"
  return ⟨name, slice below.toList first last, Range.onLine (i + 1) first last⟩

theorem hit?_of_bare (hnames : ∀ name ∈ names, IsIdentifier name.toList) {column : Nat}
    {name : String} (h : Decorator.StandsIn names ⟨column, name, none⟩ line.toList)
    (i : Nat) (below? : Option String) :
    (ofNames names keyword).hit? i line below? = below?.bind (declared? keyword name i) := by
  obtain ⟨m, hsearch, hnoted⟩ := (Pattern.readsStart_decorator hnames).search?_of_standsIn h
  obtain ⟨hname, hkey⟩ := named?_decorator names hnoted
  obtain ⟨hslice, -⟩ := h.slices
  simp only [hit?, ofNames, hsearch, hname, hkey, Option.bind_eq_bind, Option.bind_some,
    Option.map_none, hslice]
  rfl

theorem declared?_eq_some_iff (hkeyword : IsIdentifier keyword.toList) {name below : String} :
    declared? keyword name i below = some hit ↔
      ∃ d : Declaration, d.StandsIn keyword below.toList ∧
        hit = ⟨name, d.name, Range.onLine (i + 1) d.column (d.column + d.name.length)⟩ := by
  have hreads := Pattern.readsStart_declaration hkeyword
  have hfound : ∀ {m : Match} {d : Declaration},
      (Pattern.declaration keyword).body.search? below.toList = some m → m.captures = d.noted →
        d.StandsIn keyword below.toList → declared? keyword name i below =
          some ⟨name, d.name, Range.onLine (i + 1) d.column (d.column + d.name.length)⟩ := by
    intro m d hsearch hnoted hstands
    have hspan : (Pattern.declaration keyword).named? m "key" =
        some (d.column, d.column + d.name.length) := by
      obtain ⟨start, stop, captures⟩ := m
      obtain rfl : captures = d.noted := hnoted
      rfl
    simp only [declared?, hsearch, hspan, Option.bind_eq_bind, Option.bind_some, hstands.slice_eq,
      Option.pure_def]
  constructor
  · intro h
    obtain ⟨m, hsearch, -⟩ := Option.bind_eq_some_iff.mp h
    obtain ⟨d, hstands, hnoted⟩ := hreads.exists_of_search? hsearch
    rw [hfound hsearch hnoted hstands] at h
    exact ⟨d, hstands, (Option.some.inj h).symm⟩
  · rintro ⟨d, hstands, rfl⟩
    obtain ⟨m, hsearch, hnoted⟩ := hreads.search?_of_standsIn hstands
    exact hfound hsearch hnoted hstands

/-- A line has just the hit that the grammar gives it. -/
theorem hit?_eq_some_iff (hnames : ∀ name ∈ names, IsIdentifier name.toList)
    (hkeyword : IsIdentifier keyword.toList) (hline : lines[i]? = some line) :
    (ofNames names keyword).hit? i line lines[i + 1]? = some hit ↔
      Decorates names keyword lines i hit := by
  constructor
  · intro h
    obtain ⟨m, hsearch, -⟩ := Option.bind_eq_some_iff.mp h
    obtain ⟨⟨column, name, key?⟩, hstands, -⟩ :=
      (Pattern.readsStart_decorator hnames).exists_of_search? hsearch
    cases key? with
    | some key =>
      rw [hit?_of_keyed hnames hstands] at h
      cases h
      exact .keyed hline hstands
    | none =>
      rw [hit?_of_bare hnames hstands] at h
      obtain ⟨below, hbelow, hdeclared⟩ := Option.bind_eq_some_iff.mp h
      obtain ⟨d, hdeclares, rfl⟩ := (declared?_eq_some_iff hkeyword).mp hdeclared
      exact .bare hline hstands hbelow hdeclares
  · intro h
    cases h with
    | keyed hline' hstands =>
      obtain rfl := Option.some.inj (hline.symm.trans hline')
      exact hit?_of_keyed hnames hstands i _
    | bare hline' hstands hbelow hdeclares =>
      obtain rfl := Option.some.inj (hline.symm.trans hline')
      rw [hit?_of_bare hnames hstands, hbelow, Option.bind_some]
      exact (declared?_eq_some_iff hkeyword).mpr ⟨_, hdeclares, rfl⟩

/-- The hits of two lines stand at different places, though a bare decorator and the line below it may both
have theirs on that line. -/
theorem range_ne_of_decorates {j : Nat} {hit' : KeyHit} (hlt : i < j)
    (h : Decorates names keyword lines i hit) (h' : Decorates names keyword lines j hit') :
    hit.range ≠ hit'.range := by
  intro hrange
  have hplace := congrArg Range.start hrange
  cases h with
  | keyed _ _ =>
    cases h' with
    | keyed _ _ => exact absurd (congrArg Position.line hplace) (Nat.ne_of_lt hlt)
    | bare _ _ _ _ => exact absurd (congrArg Position.line hplace) (Nat.ne_of_lt (Nat.lt_succ_of_lt hlt))
  | bare _ _ hbelow hdeclares =>
    cases h' with
    | bare _ _ _ _ =>
      exact absurd (congrArg Position.line hplace) (Nat.ne_of_lt (Nat.succ_lt_succ hlt))
    | @keyed line column name key hline hstands =>
      obtain ⟨hsame, hcolumn⟩ := Position.mk.inj hplace
      obtain rfl := Option.some.inj ((hsame ▸ hbelow).symm.trans hline)
      -- a declared name comes right after a blank, and a key in quotes after a quote
      obtain ⟨k, c, hk, hbefore, hblank⟩ := hdeclares.getElem?_before
      have hquote := hstands.getElem?_before
      have hplace : column + name.length + 1 = k := by
        have hnext : column + name.length + 2 = k + 1 := hcolumn.symm.trans hk
        omega
      rw [hplace, hbefore] at hquote
      rw [Option.some.inj hquote] at hblank
      exact absurd hblank (by decide)

theorem pairwise_range_hits (hnames : ∀ name ∈ names, IsIdentifier name.toList)
    (hkeyword : IsIdentifier keyword.toList) (lines : List String) (w : Window) :
    ((ofNames names keyword).hits lines w).Pairwise fun a b => a.range ≠ b.range := by
  obtain ⟨rows, hhits, hordered, hrows⟩ :=
    w.exists_rows_of_scan lines fun i line below? => (ofNames names keyword).hit? i line below?
  rw [hits, hhits, List.pairwise_map]
  apply hordered.imp_of_mem
  intro a b ha hb hlt
  obtain ⟨-, line, hline, hfound⟩ := (hrows _ _).mp ha
  obtain ⟨-, line', hline', hfound'⟩ := (hrows _ _).mp hb
  exact range_ne_of_decorates hlt ((hit?_eq_some_iff hnames hkeyword hline).mp hfound)
    ((hit?_eq_some_iff hnames hkeyword hline').mp hfound')

/-- The keys of the decorators in a window are those of the lines of the window that meet the grammar: each
such line has just one, and they come in the order of their lines. -/
theorem hits_eq_decorates (hne : names ≠ []) (hnames : ∀ name ∈ names, IsIdentifier name.toList)
    (hkeyword : IsIdentifier keyword.toList) :
    ∃ d, ofNames? names keyword = .ok d ∧ ∀ lines (w : Window), ∃ rows : List (Nat × KeyHit),
      d.hits lines w = rows.map Prod.snd ∧ rows.Pairwise (fun a b => a.1 < b.1) ∧
        ∀ i hit, (i, hit) ∈ rows ↔ w.Holds i ∧ Decorates names keyword lines i hit := by
  refine ⟨ofNames names keyword, if_neg hne, fun lines w => ?_⟩
  obtain ⟨rows, hhits, hordered, hrows⟩ :=
    w.exists_rows_of_scan lines fun i line below? => (ofNames names keyword).hit? i line below?
  refine ⟨rows, hhits, hordered, fun i hit => ?_⟩
  rw [hrows]
  refine and_congr_right fun _ => ?_
  constructor
  · rintro ⟨line, hline, hfound⟩
    exact (hit?_eq_some_iff hnames hkeyword hline).mp hfound
  · intro h
    obtain ⟨line, hline⟩ : ∃ line, lines[i]? = some line := by
      cases h with
      | keyed hline _ => exact ⟨_, hline⟩
      | bare hline _ _ _ => exact ⟨_, hline⟩
    exact ⟨line, hline, (hit?_eq_some_iff hnames hkeyword hline).mpr h⟩

/-- A key in quotes behind a namespace that ends in one of the names, a bare decorator over a declaration, and
one that the line below does not declare. -/
theorem hits_eq_decorates_register :
    let names := ["func", "register_func"]
    let lines := ["@tvm.func.register_func(\"a.b\", override=True)", "  register_func ( ) ", "\tdef key (x):",
      "@func", "class key:"]
    ∃ rows : List (Nat × KeyHit),
      rows.map Prod.snd = [⟨"tvm.func.register_func", "a.b", ⟨⟨0, 25⟩, ⟨0, 28⟩⟩⟩,
        ⟨"register_func", "key", ⟨⟨2, 5⟩, ⟨2, 8⟩⟩⟩] ∧
      ∀ i hit, (i, hit) ∈ rows ↔ Window.all.Holds i ∧ Decorates names "def" lines i hit := by
  intro names lines
  have hne : names ≠ [] := by decide
  have hnames : ∀ name ∈ names, IsIdentifier name.toList := by decide +kernel
  have hkeyword : IsIdentifier "def".toList := by decide +kernel
  obtain ⟨d, hd, hwindows⟩ := hits_eq_decorates hne hnames hkeyword
  obtain rfl : ofNames names "def" = d := Except.ok.inj hd
  obtain ⟨rows, hhits, -, hrows⟩ := hwindows lines .all
  exact ⟨rows, hhits.symm.trans (by decide +kernel), hrows⟩

end DecoratorMatcher

end CrossIndex
