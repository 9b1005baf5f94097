import CrossIndex.Text.Blank
import CrossIndex.Text.Word
import Mathlib.Data.List.DropRight

/-!
Trimmed texts. What is dropped at the end of a text goes no further than the last character that fails the
test, and blanks around a text do not change what it is trimmed to.
-/

namespace CrossIndex.Text

variable {p : Char → Bool} {c : Char} {text more : List Char}

theorem not_isWord_of_isBlank (h : isBlank c = true) : isWord c = false := by
  have hapart : (blankRanges.all fun blank => wordRanges.all fun word =>
      Nat.blt blank.2 word.1 || Nat.blt word.2 blank.1) = true := by
    decide +kernel
  obtain ⟨blank, hblank, hle, hge⟩ := (inRanges_iff _ _).mp h
  refine Bool.eq_false_iff.mpr fun hword => ?_
  obtain ⟨word, hmem, hle', hge'⟩ := (inRanges_iff _ _).mp hword
  have hone := List.all_eq_true.mp (List.all_eq_true.mp hapart blank hblank) word hmem
  simp only [Bool.or_eq_true, Nat.blt_eq] at hone
  omega

theorem dropEndWhile_append (h : ∀ c ∈ more, p c = true) (text : List Char) :
    dropEndWhile p (text ++ more) = dropEndWhile p text := by
  have hreverse : ∀ c ∈ more.reverse, p c = true := fun c hc => h c (List.mem_reverse.mp hc)
  rw [dropEndWhile, List.reverse_append, List.dropWhile_append_of_pos hreverse, dropEndWhile]

/-- Where nothing is dropped at the end of a text, what follows it is dropped by itself. -/
theorem dropEndWhile_append_of_eq (h : dropEndWhile p text = text) (more : List Char) :
    dropEndWhile p (text ++ more) = text ++ dropEndWhile p more := by
  induction more using List.reverseRecOn with
  | nil => rw [List.append_nil, h, show dropEndWhile p [] = [] from rfl, List.append_nil]
  | append_singleton more c ih =>
    cases hc : p c with
    | true =>
      have hlast : ∀ d ∈ [c], p d = true := fun d hd => List.mem_singleton.mp hd ▸ hc
      rw [← List.append_assoc, dropEndWhile_append hlast, dropEndWhile_append hlast, ih]
    | false =>
      have hkeep : ∀ text, dropEndWhile p (text ++ [c]) = text ++ [c] := fun text =>
        List.rdropWhile_concat_neg p text c (by rw [hc]; exact Bool.false_ne_true)
      rw [← List.append_assoc, hkeep, hkeep, List.append_assoc]

theorem dropEndWhile_append_word (h : ∀ c ∈ more, p c = false) (hne : more ≠ [])
    (text : List Char) : dropEndWhile p (text ++ more) = text ++ more := by
  apply List.rdropWhile_eq_self_iff.mpr
  intro happend hlast
  rw [List.getLast_append_of_ne_nil happend hne, h _ (List.getLast_mem hne)] at hlast
  cases hlast

theorem dropEndWhile_of_not (h : ∀ c ∈ text, p c = false) : dropEndWhile p text = text := by
  by_cases hne : text = []
  · rw [hne]
    rfl
  · exact dropEndWhile_append_word h hne []

/-- A run of characters of the test ends where the first one fails it. -/
theorem takeWhile_append_of_head (h : ∀ c ∈ text, p c = true)
    (hmore : ∀ c, more.head? = some c → p c = false) : (text ++ more).takeWhile p = text := by
  rw [List.takeWhile_append_of_pos h]
  cases more with
  | nil => rw [List.takeWhile_nil, List.append_nil]
  | cons c more =>
    rw [List.takeWhile_cons, hmore c rfl, if_neg Bool.false_ne_true, List.append_nil]

theorem dropWhile_of_head (h : ∀ c, text.head? = some c → p c = false) : text.dropWhile p = text := by
  cases text with
  | nil => rfl
  | cons c text => rw [List.dropWhile_cons, h c rfl, if_neg Bool.false_ne_true]

theorem dropWhile_append_of_head (h : ∀ c ∈ text, p c = true)
    (hmore : ∀ c, more.head? = some c → p c = false) : (text ++ more).dropWhile p = more := by
  rw [List.dropWhile_append_of_pos h, dropWhile_of_head hmore]

/-- A text is cut in one way only into a run of characters of the test and a rest that starts with no such
character. -/
theorem append_inj_of_head {run run' rest rest' : List Char} (h : run ++ rest = run' ++ rest')
    (hrun : ∀ c ∈ run, p c = true) (hrest : ∀ c, rest.head? = some c → p c = false)
    (hrun' : ∀ c ∈ run', p c = true) (hrest' : ∀ c, rest'.head? = some c → p c = false) :
    run = run' ∧ rest = rest' := by
  have htake := congrArg (List.takeWhile p) h
  have hdrop := congrArg (List.dropWhile p) h
  rw [takeWhile_append_of_head hrun hrest, takeWhile_append_of_head hrun' hrest'] at htake
  rw [dropWhile_append_of_head hrun hrest, dropWhile_append_of_head hrun' hrest'] at hdrop
  exact ⟨htake, hdrop⟩

theorem head?_dropWhile (p : Char → Bool) (text : List Char) :
    ∀ c, (text.dropWhile p).head? = some c → p c = false := by
  intro c hc
  have hnot := List.head?_dropWhile_not p text
  rw [hc] at hnot
  simpa using hnot

theorem dropWhile_of_not (h : ∀ c ∈ text, p c = false) : text.dropWhile p = text :=
  dropWhile_of_head fun c hc => h c (List.mem_of_mem_head? hc)

theorem mem_of_mem_dropEndWhile (h : c ∈ dropEndWhile p text) : c ∈ text :=
  (List.rdropWhile_prefix p text).subset h

theorem exists_dropEndWhile (p : Char → Bool) (text : List Char) :
    ∃ dropped, text = dropEndWhile p text ++ dropped ∧ ∀ c ∈ dropped, p c = true := by
  exact ⟨text.rtakeWhile p, List.rdropWhile_append_rtakeWhile.symm,
    fun c hc => List.mem_rtakeWhile_imp hc⟩

theorem mem_of_mem_trim (h : c ∈ trim text) : c ∈ text :=
  (List.dropWhile_suffix isBlank).subset (mem_of_mem_dropEndWhile h)

theorem trim_blanks_append (h : ∀ c ∈ more, isBlank c = true) (text : List Char) :
    trim (more ++ text) = trim text := by
  rw [trim, List.dropWhile_append_of_pos h, trim]

theorem trim_append_blanks (h : ∀ c ∈ more, isBlank c = true) (text : List Char) :
    trim (text ++ more) = trim text := by
  rw [trim, List.dropWhile_append, trim]
  split
  · next hempty =>
    rw [List.isEmpty_iff.mp hempty, List.dropWhile_eq_nil_iff.mpr h]
  · exact dropEndWhile_append h _

theorem trim_dropWhile (text : List Char) : trim (text.dropWhile isBlank) = trim text := by
  have hsplit := List.takeWhile_append_dropWhile (p := isBlank) (l := text)
  have hblanks : ∀ c ∈ text.takeWhile isBlank, isBlank c = true :=
    fun c hc => List.mem_takeWhile_imp hc
  calc trim (text.dropWhile isBlank)
      = trim (text.takeWhile isBlank ++ text.dropWhile isBlank) :=
        (trim_blanks_append hblanks _).symm
    _ = trim text := by rw [hsplit]

/-- A text that ends in a character that is no blank is trimmed at its start only. -/
theorem trim_concat (h : isBlank c = false) (text : List Char) :
    trim (text ++ [c]) = text.dropWhile isBlank ++ [c] := by
  have hstart : (text ++ [c]).dropWhile isBlank = text.dropWhile isBlank ++ [c] := by
    rw [List.dropWhile_append]
    split
    · next hempty => rw [List.isEmpty_iff.mp hempty, dropWhile_of_not (by simpa using h)]; rfl
    · rfl
  rw [trim, hstart]
  exact List.rdropWhile_concat_neg isBlank _ c (by rw [h]; exact Bool.false_ne_true)

end CrossIndex.Text
