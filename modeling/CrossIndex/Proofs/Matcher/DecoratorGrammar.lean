import CrossIndex.Proofs.Matcher.Identifier

/-!
The grammar of decorators and of the declarations below them. Main statements: a line is read as a decorator
in one way at most, and as a declaration in one way at most.
-/

namespace CrossIndex

/-- Blanks, and an `@` behind them or none. -/
def IsIndent (text : List Char) : Prop :=
  ∃ blanks, AreBlanks blanks ∧ (text = blanks ∨ text = blanks ++ ['@'])

/-- Blanks, and among them an empty pair of parentheses or none. -/
inductive IsBareEnd : List Char → Prop where
  | blanks {text : List Char} (h : AreBlanks text) : IsBareEnd text
  | pair {before between after : List Char} (hbefore : AreBlanks before) (hbetween : AreBlanks between)
      (hafter : AreBlanks after) : IsBareEnd (before ++ '(' :: (between ++ ')' :: after))

/-- A decorator in a line: its column, its name as written, and its key when that stands in quotes. -/
structure Decorator where
  column : Nat
  name : String
  key? : Option String
  deriving DecidableEq, Repr

namespace Decorator

/-- The line has the decorator: it is indented, a name behind a namespace follows, and then either a key in
quotes, behind which anything may stand, or nothing more than blanks and an empty pair of parentheses. -/
inductive StandsIn (names : List String) : Decorator → List Char → Prop where
  | keyed {indent : List Char} {name key : String} (hindent : IsIndent indent)
      (hname : IsQualified names name) (hkey : IsKey key) (tail : List Char) :
      StandsIn names ⟨indent.length, name, some key⟩ (indent ++ (name.toList ++ (quoted key ++ tail)))
  | bare {indent close : List Char} {name : String} (hindent : IsIndent indent)
      (hname : IsQualified names name) (hclose : IsBareEnd close) :
      StandsIn names ⟨indent.length, name, none⟩ (indent ++ (name.toList ++ close))

/-- The column of the key in quotes, if there is one. -/
def keyColumn (d : Decorator) : Nat := d.column + d.name.length + 2

/-- What the groups note when a decorator is passed. -/
def noted (d : Decorator) : Captures :=
  (d.key?.map fun key => (2, d.keyColumn, d.keyColumn + key.length)).toList ++
    [(1, d.column, d.column + d.name.length)]

end Decorator

/-- A declaration in a line: the column of the declared name, and the name. -/
structure Declaration where
  column : Nat
  name : String
  deriving DecidableEq, Repr

/-- The line has the declaration: blanks, the keyword, a blank or more, an identifier, blanks, and a
parenthesis or a colon, behind which anything may stand. -/
inductive Declaration.StandsIn (keyword : String) : Declaration → List Char → Prop where
  | intro {indent gap blanks : List Char} {name : String} {opener : Char} (hindent : AreBlanks indent)
      (hne : gap ≠ []) (hgap : AreBlanks gap) (hname : IsIdentifier name.toList)
      (hblanks : AreBlanks blanks) (hopener : opener = '(' ∨ opener = ':') (tail : List Char) :
      StandsIn keyword ⟨(indent ++ (keyword.toList ++ gap)).length, name⟩
        (indent ++ (keyword.toList ++ (gap ++ (name.toList ++ (blanks ++ opener :: tail)))))

/-- What the group notes when a declaration is passed. -/
def Declaration.noted (d : Declaration) : Captures := [(1, d.column, d.column + d.name.length)]

/-- The hit of a line of a file: the key in quotes of its decorator, or for a bare decorator the name that
the line below declares. -/
inductive Decorates (names : List String) (keyword : String) (lines : List String) (i : Nat) :
    KeyHit → Prop where
  | keyed {line : String} {column : Nat} {name key : String} (hline : lines[i]? = some line)
      (hstands : Decorator.StandsIn names ⟨column, name, some key⟩ line.toList) :
      Decorates names keyword lines i ⟨name, key,
        Range.onLine i (column + name.length + 2) (column + name.length + 2 + key.length)⟩
  | bare {line below : String} {column keyColumn : Nat} {name key : String}
      (hline : lines[i]? = some line)
      (hstands : Decorator.StandsIn names ⟨column, name, none⟩ line.toList)
      (hbelow : lines[i + 1]? = some below)
      (hdeclares : Declaration.StandsIn keyword ⟨keyColumn, key⟩ below.toList) :
      Decorates names keyword lines i ⟨name, key,
        Range.onLine (i + 1) keyColumn (keyColumn + key.length)⟩

variable {names : List String} {keyword : String} {text rest : List Char}

/-! ### One reading of a line -/

theorem IsIndent.forall_mem (h : IsIndent text) :
    ∀ c ∈ text, (Text.isBlank c || c == '@') = true := by
  obtain ⟨blanks, hblanks, rfl | rfl⟩ := h
  · intro c hc
    rw [hblanks c hc, Bool.true_or]
  · intro c hc
    rcases List.mem_append.mp hc with hc | hc
    · rw [hblanks c hc, Bool.true_or]
    · rw [List.mem_singleton.mp hc]
      rfl

theorem not_indent_of_isIdentifierPart {c : Char} (h : isIdentifierPart c = true) :
    (Text.isBlank c || c == '@') = false := by
  rw [not_isBlank_of_isIdentifierPart h, Bool.false_or, beq_eq_false_iff_ne]
  rintro rfl
  exact absurd h (by decide)

/-- Behind a name stands no character that could belong to it. -/
def EndsName (rest : List Char) : Prop :=
  ∀ c, rest.head? = some c → (isIdentifierPart c || c == '.') = false

theorem not_name_of_isBlank {c : Char} (h : Text.isBlank c = true) :
    (isIdentifierPart c || c == '.') = false := by
  rw [Bool.or_eq_false_iff, beq_eq_false_iff_ne]
  constructor
  · exact Bool.eq_false_iff.mpr fun hpart => by
      rw [not_isBlank_of_isIdentifierPart hpart] at h
      cases h
  · rintro rfl
    exact absurd h (by decide)

theorem endsName_blanks_append {blanks : List Char} (hblanks : AreBlanks blanks)
    (hrest : EndsName rest) : EndsName (blanks ++ rest) := by
  cases blanks with
  | nil => exact hrest
  | cons d blanks =>
    intro c hc
    obtain rfl : d = c := Option.some.inj hc
    exact not_name_of_isBlank (hblanks d List.mem_cons_self)

theorem endsName_cons {c : Char} (h : (isIdentifierPart c || c == '.') = false) (rest : List Char) :
    EndsName (c :: rest) := by
  intro d hd
  obtain rfl : c = d := Option.some.inj hd
  exact h

theorem endsName_quoted (key : String) (tail : List Char) : EndsName (quoted key ++ tail) :=
  quoted_append key tail ▸ endsName_cons (by decide) _

theorem IsBareEnd.endsName (h : IsBareEnd text) : EndsName text := by
  cases h with
  | blanks h =>
    rw [← List.append_nil text]
    exact endsName_blanks_append h fun c hc => by cases hc
  | pair hbefore _ _ => exact endsName_blanks_append hbefore (endsName_cons (by decide) _)

/-- The end of a bare decorator has no quote behind a parenthesis. -/
theorem not_isBareEnd_quoted (key : String) (tail : List Char) : ¬IsBareEnd (quoted key ++ tail) := by
  rw [quoted_append]
  -- the parenthesis would open the pair, but no quote may stand in it
  generalize hquoted : '(' :: '\x22' :: (key.toList ++ '\x22' :: tail) = close
  intro h
  cases h with
  | blanks h => exact absurd (h '(' (hquoted ▸ List.mem_cons_self)) (by decide)
  | @pair before between after hbefore hbetween _ =>
    cases before with
    | cons d before =>
      obtain rfl : '(' = d := (List.cons.inj hquoted).1
      exact absurd (hbefore _ List.mem_cons_self) (by decide)
    | nil =>
      have hinside := (List.cons.inj hquoted).2
      cases between with
      | nil => exact absurd (List.cons.inj hinside).1 (by decide)
      | cons d between =>
        obtain rfl : '\x22' = d := (List.cons.inj hinside).1
        exact absurd (hbetween _ List.mem_cons_self) (by decide)

/-- The indent, the name and what follows them are known from the line. -/
theorem indent_append_inj (hnames : ∀ name ∈ names, IsIdentifier name.toList)
    {indent indent' rest' : List Char} {name name' : String} (hindent : IsIndent indent)
    (hindent' : IsIndent indent') (hname : IsQualified names name) (hname' : IsQualified names name')
    (hrest : EndsName rest) (hrest' : EndsName rest')
    (h : indent ++ (name.toList ++ rest) = indent' ++ (name'.toList ++ rest')) :
    indent = indent' ∧ name = name' ∧ rest = rest' := by
  -- the indent goes up to the first character of a name, and the name up to the first that is none
  obtain ⟨hsame, hafter⟩ := Text.append_inj_of_head h hindent.forall_mem
    (fun c hc => not_indent_of_isIdentifierPart (hname.head hnames rest c hc)) hindent'.forall_mem
    (fun c hc => not_indent_of_isIdentifierPart (hname'.head hnames rest' c hc))
  obtain ⟨hchars, hend⟩ := Text.append_inj_of_head hafter (hname.forall_mem hnames) hrest
    (hname'.forall_mem hnames) hrest'
  exact ⟨hsame, String.toList_injective hchars, hend⟩

theorem Decorator.StandsIn.unique {d d' : Decorator}
    (hnames : ∀ name ∈ names, IsIdentifier name.toList) (h : d.StandsIn names text)
    (h' : d'.StandsIn names text) : d = d' := by
  generalize hline : text = line at h'
  cases h with
  | keyed hindent hname hkey tail =>
    cases h' with
    | keyed hindent' hname' hkey' tail' =>
      obtain ⟨rfl, rfl, hend⟩ := indent_append_inj hnames hindent hindent' hname hname'
        (endsName_quoted _ _) (endsName_quoted _ _) hline
      obtain ⟨rfl, -⟩ := quoted_append_inj hkey hkey' hend
      rfl
    | bare hindent' hname' hclose =>
      obtain ⟨-, -, hend⟩ := indent_append_inj hnames hindent hindent' hname hname'
        (endsName_quoted _ _) hclose.endsName hline
      exact absurd (hend ▸ hclose) (not_isBareEnd_quoted _ _)
  | bare hindent hname hclose =>
    cases h' with
    | keyed hindent' hname' hkey tail =>
      obtain ⟨-, -, hend⟩ := indent_append_inj hnames hindent hindent' hname hname'
        hclose.endsName (endsName_quoted _ _) hline
      exact absurd (hend ▸ hclose) (not_isBareEnd_quoted _ _)
    | bare hindent' hname' hclose' =>
      obtain ⟨rfl, rfl, -⟩ := indent_append_inj hnames hindent hindent' hname hname'
        hclose.endsName hclose'.endsName hline
      rfl

theorem not_isBlank_of_head (h : ∀ c, text.head? = some c → isIdentifierPart c = true) :
    ∀ c, text.head? = some c → Text.isBlank c = false :=
  fun c hc => not_isBlank_of_isIdentifierPart (h c hc)

theorem Declaration.StandsIn.unique {d d' : Declaration} (hkeyword : IsIdentifier keyword.toList)
    (h : d.StandsIn keyword text) (h' : d'.StandsIn keyword text) : d = d' := by
  have hopens : ∀ {blanks tail : List Char} {opener : Char}, AreBlanks blanks →
      (opener = '(' ∨ opener = ':') →
        ∀ c, (blanks ++ opener :: tail).head? = some c → isIdentifierPart c = false := by
    intro blanks tail opener hblanks hopener c hc
    have hnot : (isIdentifierPart opener || opener == '.') = false := by
      rcases hopener with rfl | rfl <;> decide
    exact (Bool.or_eq_false_iff.mp (endsName_blanks_append hblanks (endsName_cons hnot _) c hc)).1
  generalize hline : text = line at h'
  cases h with
  | intro hindent hne hgap hname hblanks hopener tail =>
    cases h' with
    | intro hindent' hne' hgap' hname' hblanks' hopener' tail' =>
      obtain ⟨rfl, hafter⟩ := Text.append_inj_of_head hline hindent
        (not_isBlank_of_head (hkeyword.head _)) hindent' (not_isBlank_of_head (hkeyword.head _))
      have hbehind := List.append_cancel_left hafter
      obtain ⟨rfl, hrest⟩ := Text.append_inj_of_head hbehind hgap
        (not_isBlank_of_head (hname.head _)) hgap' (not_isBlank_of_head (hname'.head _))
      obtain ⟨hchars, -⟩ := Text.append_inj_of_head hrest hname.forall_mem
        (hopens hblanks hopener) hname'.forall_mem (hopens hblanks' hopener')
      rw [String.toList_injective hchars]

/-! ### Words in a line -/

theorem Decorator.StandsIn.slices {d : Decorator} (h : d.StandsIn names text) :
    slice text d.column (d.column + d.name.length) = d.name ∧
      ∀ key, d.key? = some key → slice text d.keyColumn (d.keyColumn + key.length) = key := by
  cases h with
  | @keyed indent name key _ _ _ tail =>
    refine ⟨slice_word indent _ name, fun key' hsame => ?_⟩
    obtain rfl : key = key' := Option.some.inj hsame
    exact slice_quoted indent tail name key
  | @bare indent close name _ _ _ =>
    refine ⟨slice_word indent close name, fun key hnone => ?_⟩
    cases hnone

theorem Declaration.StandsIn.slice_eq {d : Declaration} (h : d.StandsIn keyword text) :
    slice text d.column (d.column + d.name.length) = d.name := by
  cases h with
  | @intro indent gap blanks name opener _ _ _ _ _ _ tail =>
    have hslice := slice_word (indent ++ (keyword.toList ++ gap)) (blanks ++ opener :: tail) name
    simpa only [List.append_assoc] using hslice

/-! ### What stands before a key -/

theorem Decorator.StandsIn.getElem?_before {column : Nat} {name key : String}
    (h : Decorator.StandsIn names ⟨column, name, some key⟩ text) :
    text[column + name.length + 1]? = some '\x22' := by
  cases h with
  | @keyed indent _ _ _ _ _ tail =>
    rw [← String.length_toList, quoted_append, List.getElem?_append_right (by omega),
      List.getElem?_append_right (by omega)]
    have hplace : indent.length + name.toList.length + 1 - indent.length - name.toList.length = 1 := by
      omega
    rw [hplace]
    rfl

theorem Declaration.StandsIn.getElem?_before {d : Declaration} (h : d.StandsIn keyword text) :
    ∃ k c, d.column = k + 1 ∧ text[k]? = some c ∧ Text.isBlank c = true := by
  cases h with
  | @intro indent gap blanks name opener _ hne hgap _ _ _ tail =>
    -- the gap ends with a blank, which the name comes right after
    obtain ⟨front, c, rfl⟩ : ∃ front c, gap = front ++ [c] :=
      ⟨gap.dropLast, gap.getLast hne, (List.dropLast_append_getLast hne).symm⟩
    refine ⟨(indent ++ (keyword.toList ++ front)).length, c, ?_, ?_, hgap c (by simp)⟩
    · simp only [List.length_append, List.length_singleton, Nat.add_assoc]
    · have hsplit : indent ++ (keyword.toList ++ (front ++ [c] ++ (name.toList ++
          (blanks ++ opener :: tail)))) = indent ++ (keyword.toList ++ front) ++
            c :: (name.toList ++ (blanks ++ opener :: tail)) := by
        simp only [List.append_assoc, List.singleton_append]
      rw [hsplit, List.getElem?_append_right (Nat.le_refl _), Nat.sub_self]
      rfl

end CrossIndex
