import CrossIndex.Proofs.Python.ItemList

/-!
How import statements are written on one line, with the parentheses, the backslash and the comment that
may stand in them. Main statement: the items of a statement are read back from every way of writing it,
in their order.
-/

namespace CrossIndex.Python

/-! ### Writing -/

/-- What stands behind the word `import` of a from-import. -/
inductive ImportedText where
  | bare (gap : Gap) (list : ListText)
  | inParentheses (blanks : Blanks) (list : ListText)

inductive StatementText where
  | ofModule (afterFrom : Gap) (module : Word) (beforeImport : Gap) (imported : ImportedText)
  | plain (gap : Gap) (list : ListText)

/-- A statement on its line, perhaps with a backslash and a comment behind it. -/
structure LineText where
  indent : Blanks
  statement : StatementText
  before : Blanks
  backslash : Bool
  after : Blanks
  comment? : Option (List Char)

def ImportedText.chars : ImportedText → List Char
  | bare gap list => gap.chars ++ list.chars
  | inParentheses blanks list => blanks.chars ++ '(' :: (list.chars ++ [')'])

def StatementText.chars : StatementText → List Char
  | ofModule afterFrom module beforeImport imported =>
    "from".toList ++ (afterFrom.chars ++ (module.chars ++ (beforeImport.chars ++
      ("import".toList ++ imported.chars))))
  | plain gap list => "import".toList ++ (gap.chars ++ list.chars)

theorem StatementText.chars_ofModule (afterFrom : Gap) (module : Word) (beforeImport : Gap)
    (imported : ImportedText) :
    (ofModule afterFrom module beforeImport imported).chars =
      "from".toList ++ (afterFrom.chars ++ (module.chars ++ (beforeImport.chars ++
        ("import".toList ++ imported.chars)))) := rfl

theorem StatementText.chars_plain (gap : Gap) (list : ListText) :
    (plain gap list).chars = "import".toList ++ (gap.chars ++ list.chars) := rfl

/-- What stands behind a statement and before its comment. -/
def LineText.ending (l : LineText) : List Char :=
  l.before.chars ++ ((if l.backslash then ['\\'] else []) ++ l.after.chars)

def LineText.chars (l : LineText) : List Char :=
  (l.indent.chars ++ (l.statement.chars ++ l.ending)) ++
    (l.comment?.map fun comment => '#' :: comment).getD []

def ImportedText.list : ImportedText → ListText
  | bare _ list => list
  | inParentheses _ list => list

def StatementText.imports : StatementText → List Import
  | ofModule _ module _ imported =>
    imported.list.items.map fun (name, other) => ⟨some (String.ofList module.chars), name, other⟩
  | plain _ list => list.items.map fun (name, other) => ⟨none, name, other⟩

/-! ### Reading what stands behind the keyword -/

variable {text : List Char}

theorem items_eq (text : List Char) :
    items text = itemsBetween (Text.dropEndWhile (· == ')')
      ((Text.dropEndWhile (· == '\\') (Text.trim text)).dropWhile (· == '('))) := rfl

theorem items_dropWhile (text : List Char) : items (text.dropWhile Text.isBlank) = items text := by
  rw [items_eq, items_eq, Text.trim_dropWhile]

theorem dropEndWhile_mark {mark : Char} (h : mark ∉ text) :
    Text.dropEndWhile (· == mark) text = text :=
  Text.dropEndWhile_of_not fun _ hc => beq_eq_false_iff_ne.mpr fun he => h (he ▸ hc)

theorem dropWhile_mark {mark : Char} (h : mark ∉ text) : text.dropWhile (· == mark) = text :=
  Text.dropWhile_of_not fun _ hc => beq_eq_false_iff_ne.mpr fun he => h (he ▸ hc)

theorem LineText.dropEndWhile_ending (l : LineText) (h : '\\' ∉ text) :
    Text.dropEndWhile (· == '\\') (Text.trim (text ++ l.ending)) = Text.trim text ∨
      Text.dropEndWhile (· == '\\') (Text.trim (text ++ l.ending)) =
        (text ++ l.before.chars).dropWhile Text.isBlank := by
  rw [LineText.ending]
  cases l.backslash with
  | false =>
    -- the trim takes the blanks on both sides of where the backslash may stand
    left
    have hno : '\\' ∉ Text.trim text := fun hc => h (Text.mem_of_mem_trim hc)
    change Text.dropEndWhile _ (Text.trim (text ++ (l.before.chars ++ l.after.chars))) = _
    rw [← List.append_assoc, Text.trim_append_blanks l.after.blank,
      Text.trim_append_blanks l.before.blank, dropEndWhile_mark hno]
  | true =>
    -- the trim stops at the backslash, and the blanks before it are not trimmed again
    right
    have hno : '\\' ∉ (text ++ l.before.chars).dropWhile Text.isBlank := by
      intro hc
      rcases List.mem_append.mp ((List.dropWhile_suffix _).subset hc) with hc | hc
      · exact h hc
      · exact l.before.not_mem (by decide) hc
    have hmark : ∀ c ∈ ['\\'], (c == '\\') = true :=
      fun c hc => beq_iff_eq.mpr (List.mem_singleton.mp hc)
    change Text.dropEndWhile _ (Text.trim (text ++ (l.before.chars ++ ('\\' :: l.after.chars)))) = _
    rw [← List.append_assoc, List.append_cons, Text.trim_append_blanks l.after.blank,
      Text.trim_concat (by decide), Text.dropEndWhile_append hmark, dropEndWhile_mark hno]

theorem items_bare (l : LineText) (list : ListText) {gap : List Char}
    (hgap : ∀ c ∈ gap, Text.isBlank c = true) :
    items (gap ++ list.chars ++ l.ending) = list.items := by
  have hno : ∀ c ∈ "(),#\\".toList, c ≠ ',' → c ∉ gap ++ list.chars := by
    intro c hc hcomma
    exact List.not_mem_append (Blanks.not_mem ⟨gap, hgap⟩ (not_isBlank_of_mark hc))
      (list.not_mem hc hcomma)
  have hlist : itemsBetween (gap ++ list.chars) = list.items := by
    have hread := itemsBetween_chars list .nil List.not_mem_nil
    rwa [List.append_nil, ← itemsBetween_blanks_append hgap] at hread
  rw [items_eq]
  rcases l.dropEndWhile_ending (hno '\\' (by decide) (by decide)) with hrest | hrest
  · have hmem : ∀ c ∈ "(),#\\".toList, c ≠ ',' → c ∉ Text.trim (gap ++ list.chars) :=
      fun c hc hcomma hin => hno c hc hcomma (Text.mem_of_mem_trim hin)
    rw [hrest, dropWhile_mark (hmem '(' (by decide) (by decide)),
      dropEndWhile_mark (hmem ')' (by decide) (by decide)),
      itemsBetween_trim, hlist]
  · have hmem : ∀ c ∈ "(),#\\".toList, c ≠ ',' →
        c ∉ (gap ++ list.chars ++ l.before.chars).dropWhile Text.isBlank := by
      intro c hc hcomma hin
      rcases List.mem_append.mp ((List.dropWhile_suffix _).subset hin) with hin | hin
      · exact hno c hc hcomma hin
      · exact l.before.not_mem (not_isBlank_of_mark hc) hin
    rw [hrest, dropWhile_mark (hmem '(' (by decide) (by decide)),
      dropEndWhile_mark (hmem ')' (by decide) (by decide)),
      itemsBetween_dropWhile, itemsBetween_append_blanks l.before.blank, hlist]

theorem exists_closing (l : LineText) (list : ListText) (blanks : Blanks) :
    ∃ closing : Blanks,
      Text.dropEndWhile (· == '\\')
        (Text.trim (blanks.chars ++ '(' :: (list.chars ++ [')']) ++ l.ending)) =
          '(' :: (list.chars ++ (')' :: closing.chars)) := by
  have hbackslash : '\\' ∉ blanks.chars ++ '(' :: (list.chars ++ [')']) := by
    simp only [List.mem_append, List.mem_cons, not_or]
    exact ⟨blanks.not_mem (by decide), by decide, list.not_mem (by decide) (by decide), by decide,
      List.not_mem_nil⟩
  have hstart : ∀ rest, (blanks.chars ++ '(' :: rest).dropWhile Text.isBlank = '(' :: rest := by
    intro rest
    rw [List.dropWhile_append_of_pos blanks.blank, List.dropWhile_cons, if_neg (by decide)]
  rcases l.dropEndWhile_ending hbackslash with hrest | hrest
  · refine ⟨⟨[], fun c hc => by cases hc⟩, ?_⟩
    rw [hrest, ← List.cons_append, ← List.append_assoc, Text.trim_concat (by decide), hstart]
  · -- the blanks before a backslash stay behind the closing parenthesis
    refine ⟨l.before, ?_⟩
    rw [hrest, List.append_assoc, List.cons_append, hstart, List.append_assoc]
    rfl

theorem items_inParentheses (l : LineText) (list : ListText) (blanks : Blanks) :
    items (blanks.chars ++ '(' :: (list.chars ++ [')']) ++ l.ending) = list.items := by
  obtain ⟨closing, hrest⟩ := exists_closing l list blanks
  have hclosing : IsClosing (')' :: closing.chars) := by
    intro c hc
    rcases List.mem_cons.mp hc with rfl | hc
    · exact Or.inr rfl
    · exact Or.inl (closing.blank c hc)
  have hopen : '(' ∉ list.chars ++ ')' :: closing.chars := by
    simp only [List.mem_append, List.mem_cons, not_or]
    exact ⟨list.not_mem (by decide) (by decide), by decide, closing.not_mem (by decide)⟩
  have hcomma : ',' ∉ Text.dropEndWhile (· == ')') (')' :: closing.chars) := by
    intro hc
    rcases hclosing.dropEndWhile _ ',' hc with hblank | hmark
    · exact absurd hblank (by decide)
    · exact absurd hmark (by decide)
  rw [items_eq, hrest, List.dropWhile_cons, if_pos (by decide), dropWhile_mark hopen,
    Text.dropEndWhile_append_of_eq (dropEndWhile_mark (list.not_mem (by decide) (by decide))),
    itemsBetween_chars list (hclosing.dropEndWhile _) hcomma]

/-! ### Reading a statement -/

theorem dropWhile_keyword (word : String) (h : ∃ c ∈ word.toList.head?, Text.isBlank c = false)
    (text : List Char) : (word.toList ++ text).dropWhile Text.isBlank = word.toList ++ text := by
  obtain ⟨c, hc, hblank⟩ := h
  apply Text.dropWhile_of_head
  intro d hd
  rw [List.head?_append, Option.mem_def.mp hc] at hd
  cases hd
  exact hblank

theorem fromImport?_eq_some {code afterFrom text afterModule rest : List Char}
    (hfrom : afterWord? "from" (code.dropWhile Text.isBlank) = some afterFrom)
    (htext : afterBlanks? afterFrom = some text) (hne : text.takeWhile (!Text.isBlank ·) ≠ [])
    (hmodule : afterBlanks? (text.dropWhile (!Text.isBlank ·)) = some afterModule)
    (himport : afterWord? "import" afterModule = some rest)
    (hrest : ∀ c, rest.head? = some c → Text.isWord c = false) :
    fromImport? code = some (text.takeWhile (!Text.isBlank ·), rest) := by
  have hend : (!rest.head?.any Text.isWord) = true := by
    cases hhead : rest.head? with
    | none => rfl
    | some c => rw [Option.any_some, hrest c hhead, Bool.not_false]
  simp only [fromImport?, hfrom, htext, guard, if_pos hne, hmodule, himport, hend, if_true,
    Option.pure_def, Option.bind_eq_bind, Option.bind_some]

/-- A from-import is read as its module and what stands behind the word `import`. -/
theorem fromImport?_chars (indent : Blanks) (afterFrom : Gap) (module : Word) (beforeImport : Gap)
    {rest : List Char} (hrest : ∀ c, rest.head? = some c → Text.isWord c = false) :
    fromImport? (indent.chars ++ ("from".toList ++ (afterFrom.chars ++ (module.chars ++
      (beforeImport.chars ++ ("import".toList ++ rest)))))) = some (module.chars, rest) := by
  have hmodule : ∀ c ∈ module.chars, (!Text.isBlank c) = true := by
    intro c hc
    rw [module.not_isBlank c hc, Bool.not_false]
  have hbehind : ∀ c, (beforeImport.chars ++ ("import".toList ++ rest)).head? = some c →
      (!Text.isBlank c) = false := by
    intro c hc
    rw [beforeImport.head?_append _ c hc, Bool.not_true]
  have htake := Text.takeWhile_append_of_head hmodule hbehind
  have hfrom : ∀ text, afterWord? "from" ((indent.chars ++ ("from".toList ++ text)).dropWhile
      Text.isBlank) = some text := by
    intro text
    rw [List.dropWhile_append_of_pos indent.blank, dropWhile_keyword "from" ⟨'f', by decide⟩,
      afterWord?_append]
  have htext : afterBlanks? (afterFrom.chars ++ (module.chars ++ (beforeImport.chars ++
      ("import".toList ++ rest)))) =
        some (module.chars ++ (beforeImport.chars ++ ("import".toList ++ rest))) := by
    rw [afterBlanks?_append, module.dropWhile_append]
  have hne : (module.chars ++ (beforeImport.chars ++ ("import".toList ++ rest))).takeWhile
      (!Text.isBlank ·) ≠ [] := by
    rw [htake]
    exact module.ne_nil
  have hafter : afterBlanks? ((module.chars ++ (beforeImport.chars ++
      ("import".toList ++ rest))).dropWhile (!Text.isBlank ·)) = some ("import".toList ++ rest) := by
    rw [Text.dropWhile_append_of_head hmodule hbehind, afterBlanks?_append,
      dropWhile_keyword "import" ⟨'i', by decide⟩]
  rw [fromImport?_eq_some (hfrom _) htext hne hafter (afterWord?_append "import" rest) hrest, htake]

theorem fromImport?_plain (indent : Blanks) (rest : List Char) :
    fromImport? (indent.chars ++ ("import".toList ++ rest)) = none := by
  rw [fromImport?, List.dropWhile_append_of_pos indent.blank,
    dropWhile_keyword "import" ⟨'i', by decide⟩]
  rfl

theorem plainImport?_chars (indent : Blanks) (gap : Gap) (rest : List Char) :
    plainImport? (indent.chars ++ ("import".toList ++ (gap.chars ++ rest))) =
      some (rest.dropWhile Text.isBlank) := by
  rw [plainImport?, List.dropWhile_append_of_pos indent.blank,
    dropWhile_keyword "import" ⟨'i', by decide⟩, afterWord?_append, Option.bind_eq_bind,
    Option.bind_some, afterBlanks?_append]

theorem ImportedText.head?_append (i : ImportedText) (text : List Char) :
    ∀ c, (i.chars ++ text).head? = some c → Text.isWord c = false := by
  intro c hc
  cases i with
  | bare gap list =>
    rw [chars, List.append_assoc] at hc
    exact Text.not_isWord_of_isBlank (gap.head?_append _ c hc)
  | inParentheses blanks list =>
    rw [chars, List.append_assoc] at hc
    obtain ⟨blanks, hblanks⟩ := blanks
    cases blanks with
    | nil =>
      cases hc
      decide +kernel
    | cons blank blanks =>
      cases hc
      exact Text.not_isWord_of_isBlank (hblanks c List.mem_cons_self)

theorem items_imported (l : LineText) (imported : ImportedText) :
    items (imported.chars ++ l.ending) = imported.list.items := by
  cases imported with
  | bare gap list => exact items_bare l list gap.blank
  | inParentheses blanks list => exact items_inParentheses l list blanks

/-! ### Reading a line -/

theorem ImportedText.not_mem (i : ImportedText) : '#' ∉ i.chars := by
  cases i with
  | bare gap list =>
    rw [chars, List.mem_append, not_or]
    exact ⟨gap.not_mem (by decide), list.not_mem (by decide) (by decide)⟩
  | inParentheses blanks list =>
    simp only [chars, List.mem_append, List.mem_cons, not_or]
    exact ⟨blanks.not_mem (by decide), by decide, list.not_mem (by decide) (by decide), by decide,
      List.not_mem_nil⟩

theorem StatementText.not_mem (s : StatementText) : '#' ∉ s.chars := by
  cases s with
  | ofModule afterFrom module beforeImport imported =>
    have himport := List.not_mem_append (by decide : '#' ∉ "import".toList) imported.not_mem
    have hmodule := List.not_mem_append (module.not_mem (by decide))
      (List.not_mem_append (beforeImport.not_mem (by decide)) himport)
    exact List.not_mem_append (by decide : '#' ∉ "from".toList)
      (List.not_mem_append (afterFrom.not_mem (by decide)) hmodule)
  | plain gap list =>
    exact List.not_mem_append (by decide : '#' ∉ "import".toList)
      (List.not_mem_append (gap.not_mem (by decide)) (list.not_mem (by decide) (by decide)))

theorem LineText.not_mem_ending (l : LineText) : '#' ∉ l.ending := by
  have hbackslash : '#' ∉ if l.backslash then ['\\'] else [] := by
    cases l.backslash <;> decide
  simp only [ending, List.mem_append, not_or]
  exact ⟨l.before.not_mem (by decide), hbackslash, l.after.not_mem (by decide)⟩

theorem LineText.codeOf_chars (l : LineText) :
    codeOf l.chars = l.indent.chars ++ (l.statement.chars ++ l.ending) := by
  have hcode : ∀ c ∈ l.indent.chars ++ (l.statement.chars ++ l.ending),
      decide (c ≠ '#') = true := by
    have hno : '#' ∉ l.indent.chars ++ (l.statement.chars ++ l.ending) := by
      simp only [List.mem_append, not_or]
      exact ⟨l.indent.not_mem (by decide), l.statement.not_mem, l.not_mem_ending⟩
    exact fun c hc => decide_eq_true fun he => hno (he ▸ hc)
  have hcomment : ∀ c, ((l.comment?.map fun comment => '#' :: comment).getD []).head? = some c →
      decide (c ≠ '#') = false := by
    intro c hc
    cases hl : l.comment? with
    | none =>
      rw [hl] at hc
      cases hc
    | some comment =>
      rw [hl] at hc
      cases hc
      decide
  exact Text.takeWhile_append_of_head hcode hcomment

theorem lineImports_chars (l : LineText) :
    lineImports (String.ofList l.chars) = l.statement.imports := by
  rw [lineImports, String.toList_ofList, l.codeOf_chars]
  cases hstatement : l.statement with
  | ofModule afterFrom module beforeImport imported =>
    have hread := fromImport?_chars l.indent afterFrom module beforeImport
      (imported.head?_append l.ending)
    have hchars : (StatementText.ofModule afterFrom module beforeImport imported).chars ++ l.ending =
        "from".toList ++ (afterFrom.chars ++ (module.chars ++ (beforeImport.chars ++
          ("import".toList ++ (imported.chars ++ l.ending))))) := by
      rw [StatementText.chars_ofModule]
      generalize "from".toList = first, "import".toList = second
      simp only [List.append_assoc]
    simp only [hchars, hread, items_imported, StatementText.imports]
  | plain gap list =>
    have hchars : (StatementText.plain gap list).chars ++ l.ending =
        "import".toList ++ (gap.chars ++ (list.chars ++ l.ending)) := by
      rw [StatementText.chars_plain]
      generalize "import".toList = first
      simp only [List.append_assoc]
    have hno : ∀ c ∈ ([] : List Char), Text.isBlank c = true := fun c hc => by cases hc
    have hitems := items_bare l list hno
    rw [List.nil_append] at hitems
    simp only [hchars, fromImport?_plain, plainImport?_chars, items_dropWhile, hitems,
      StatementText.imports]

/-- The imports of a line are the ones that are written on it, and those of a file are the imports
of its lines one after another. -/
theorem imports_written :
    (∀ l : LineText, imports [String.ofList l.chars] = l.statement.imports) ∧
      ∀ lines, imports lines = lines.flatMap fun line => imports [line] := by
  have hline : ∀ line, imports [line] = lineImports line := fun line =>
    List.flatMap_singleton lineImports line
  constructor
  · intro l
    rw [hline, lineImports_chars]
  · intro lines
    rw [imports, funext hline]

example :
    let nothing : Blanks := ⟨[], fun _ hc => (List.not_mem_nil hc).elim⟩
    let gap : Gap := ⟨⟨[' '], List.forall_mem_singleton.mpr (by decide)⟩, by decide⟩
    let word (c : Char) (h : isPlain c = true) : Word :=
      ⟨[c], List.cons_ne_nil c [], List.forall_mem_singleton.mpr h⟩
    let item : ItemText :=
      ⟨nothing, word 'b' rfl, by decide, some ⟨gap, gap, word 'c' rfl⟩, nothing⟩
    let imported : ImportedText := .inParentheses nothing ⟨item, [], some nothing⟩
    let line : LineText :=
      ⟨nothing, .ofModule gap (word 'a' rfl) gap imported, gap.toBlanks, true, nothing, some ['d']⟩
    String.ofList line.chars = "from a import(b as c,) \\#d" ∧
      imports ["from a import(b as c,) \\#d"] = [⟨some "a", "b", some "c"⟩] := by
  decide +kernel

end CrossIndex.Python
