import CrossIndex.Proofs.Regex.Ways
import Mathlib.Computability.Language

/-!
Languages of expressions. An expression without anchors and groups matches by the characters alone. Main
statement: such an expression leads from a place of a text to another just when the characters between
them are a word of its language.
-/

namespace CrossIndex

open Cursor Computability

namespace Regex

/-- The words that an expression matches, whatever stands around them. -/
def language : Regex → Language Char
  | empty => 1
  | one c => {word | ∃ x, c.contains x = true ∧ word = [x]}
  | anchor _ => 1
  | seq a b => a.language * b.language
  | alt a b => a.language + b.language
  | plus _ body => body.language * body.language∗
  | group _ body => body.language

/-- The expression has no anchor and no group. -/
def isPlain : Regex → Bool
  | empty | one _ => true
  | anchor _ | group _ _ => false
  | seq a b | alt a b => a.isPlain && b.isPlain
  | plus _ body => body.isPlain

/-- The ways pass just the words of a language, and nothing is noted on them. -/
def Reads (way : Stage → Stage → Prop) (l : Language Char) : Prop :=
  ∀ passed text captures t, way (behind passed text, captures) t ↔
    ∃ word ∈ l, ∃ rest, text = word ++ rest ∧ t = (behind (passed ++ word) rest, captures)

variable {way way' : Stage → Stage → Prop} {l m : Language Char} {passed text word : List Char}
  {captures : Captures} {t : Stage} {r : Regex}

theorem Reads.seq (ha : Reads way l) (hb : Reads way' m) :
    Reads (fun s t => ∃ middle, way s middle ∧ way' middle t) (l * m) := by
  intro passed text captures t
  constructor
  · rintro ⟨middle, hfirst, hsecond⟩
    obtain ⟨word, hword, rest, rfl, rfl⟩ := (ha _ _ _ _).mp hfirst
    obtain ⟨more, hmore, rest, rfl, rfl⟩ := (hb _ _ _ _).mp hsecond
    refine ⟨word ++ more, Language.append_mem_mul hword hmore, rest, ?_, ?_⟩
    · rw [List.append_assoc]
    · rw [List.append_assoc]
  · rintro ⟨_, hwords, rest, rfl, rfl⟩
    obtain ⟨word, hword, more, hmore, rfl⟩ := Language.mem_mul.mp hwords
    refine ⟨(behind (passed ++ word) (more ++ rest), captures), ?_, ?_⟩
    · exact (ha _ _ _ _).mpr ⟨word, hword, more ++ rest, List.append_assoc _ _ _, rfl⟩
    · exact (hb _ _ _ _).mpr ⟨more, hmore, rest, rfl, by rw [List.append_assoc]⟩

theorem Reads.round (h : Reads way l) :
    Round way (behind passed text, captures) t ↔ ∃ word ∈ l, word ≠ [] ∧
      ∃ rest, text = word ++ rest ∧ t = (behind (passed ++ word) rest, captures) := by
  have hpasses : ∀ word rest : List Char,
      (behind (passed ++ word) rest).index ≠ (behind passed text).index ↔ word ≠ [] := by
    intro word rest
    simp only [behind, List.length_append, ← List.length_pos_iff_ne_nil]
    omega
  constructor
  · rintro ⟨hway, hne⟩
    obtain ⟨word, hword, rest, htext, rfl⟩ := (h _ _ _ _).mp hway
    exact ⟨word, hword, (hpasses word rest).mp hne, rest, htext, rfl⟩
  · rintro ⟨word, hword, hne, rest, htext, rfl⟩
    exact ⟨(h _ _ _ _).mpr ⟨word, hword, rest, htext, rfl⟩, (hpasses word rest).mpr hne⟩

/-- A word of a star that is not empty starts with a word of the language that is not empty. -/
theorem exists_append_of_mem_kstar (h : word ∈ l∗) (hne : word ≠ []) :
    ∃ first ∈ l, first ≠ [] ∧ ∃ more ∈ l∗, word = first ++ more := by
  obtain ⟨words, rfl, hwords⟩ := Language.mem_kstar_iff_exists_nonempty.mp h
  cases words with
  | nil => exact absurd rfl hne
  | cons first words =>
    obtain ⟨hfirst, hfirstNe⟩ := hwords first List.mem_cons_self
    have hmore : words.flatten ∈ l∗ :=
      Language.join_mem_kstar fun other ho => (hwords other (List.mem_cons_of_mem _ ho)).1
    exact ⟨first, hfirst, hfirstNe, words.flatten, hmore, rfl⟩

theorem append_mem_kstar {more : List Char} (h : word ∈ l) (hmore : more ∈ l∗) : word ++ more ∈ l∗ :=
  mul_kstar_le_kstar (a := l) (Language.append_mem_mul h hmore)

theorem Reads.rounds (h : Reads way l) : Reads (Relation.ReflTransGen (Round way)) l∗ := by
  intro passed text captures t
  constructor
  · intro hrounds
    generalize hs : ((behind passed text, captures) : Stage) = s at hrounds
    induction hrounds using Relation.ReflTransGen.head_induction_on generalizing passed text with
    | refl => exact ⟨[], Language.nil_mem_kstar l, text, rfl, by rw [List.append_nil, hs]⟩
    | head hround _ ih =>
      subst hs
      obtain ⟨word, hword, -, rest, rfl, rfl⟩ := h.round.mp hround
      obtain ⟨more, hmore, rest, rfl, rfl⟩ := ih _ _ rfl
      refine ⟨word ++ more, append_mem_kstar hword hmore, rest, ?_, ?_⟩
      · rw [List.append_assoc]
      · rw [List.append_assoc]
  · rintro ⟨word, hword, rest, rfl, rfl⟩
    obtain ⟨words, rfl, hwords⟩ := Language.mem_kstar_iff_exists_nonempty.mp hword
    -- one round for each of the words
    induction words generalizing passed with
    | nil =>
      rw [List.flatten_nil, List.append_nil]
      exact .refl
    | cons first words ih =>
      obtain ⟨hfirst, hne⟩ := hwords first List.mem_cons_self
      have hround : Round way (behind passed ((first :: words).flatten ++ rest), captures)
          (behind (passed ++ first) (words.flatten ++ rest), captures) :=
        h.round.mpr ⟨first, hfirst, hne, _, by rw [List.flatten_cons, List.append_assoc], rfl⟩
      have hwords := fun other ho => hwords other (List.mem_cons_of_mem first ho)
      refine .head hround ?_
      rw [List.flatten_cons, ← List.append_assoc]
      exact ih _ hwords (Language.join_mem_kstar fun other ho => (hwords other ho).1)

theorem Reads.plus {body : Regex} (greedy : Bool) (h : Reads body.Way l) :
    Reads (plus greedy body).Way (l * l∗) := by
  intro passed text captures t
  constructor
  · rintro ⟨first, hfirst, hmore⟩
    have hrounds : Relation.ReflTransGen (Round body.Way) first t := by
      split at hmore
      · exact hmore ▸ .refl
      · exact hmore
    exact (h.seq h.rounds _ _ _ _).mp ⟨first, hfirst, hrounds⟩
  · rintro ⟨word, hword, rest, rfl, rfl⟩
    by_cases hne : word = []
    · -- a first round that passes no character is the only one
      subst hne
      obtain ⟨first, hfirst, more, -, hnil⟩ := Language.mem_mul.mp hword
      obtain ⟨rfl, -⟩ := List.append_eq_nil_iff.mp hnil
      rw [List.nil_append, List.append_nil]
      refine ⟨(behind passed rest, captures), (h _ _ _ _).mpr ⟨[], hfirst, rest, rfl, ?_⟩, ?_⟩
      · rw [List.append_nil]
      · rw [if_pos rfl]
    · obtain ⟨first, hfirst, hfirstNe, more, hmore, rfl⟩ :=
        exists_append_of_mem_kstar (mul_kstar_le_kstar (a := l) hword) hne
      rw [List.append_assoc]
      obtain ⟨hway, hpasses⟩ := h.round.mpr
        ⟨first, hfirst, hfirstNe, more ++ rest, rfl, rfl⟩
      refine ⟨_, hway, ?_⟩
      rw [if_neg hpasses]
      exact (h.rounds _ _ _ _).mpr ⟨more, hmore, rest, rfl, by rw [List.append_assoc]⟩

/-- An expression without anchors and groups reads the words of its language. -/
theorem reads_language (h : r.isPlain = true) : Reads r.Way r.language := by
  induction r with
  | empty =>
    intro passed text captures t
    constructor
    · intro ht
      exact ⟨[], Language.nil_mem_one, text, rfl, by rw [List.append_nil]; exact ht⟩
    · rintro ⟨word, hword, rest, rfl, rfl⟩
      obtain rfl := (Language.mem_one word).mp hword
      rw [List.append_nil]
      rfl
  | one c =>
    intro passed text captures t
    constructor
    · rintro ⟨x, rest, htext, hx, rfl⟩
      obtain rfl : text = x :: rest := htext
      refine ⟨[x], ⟨x, hx, rfl⟩, rest, rfl, ?_⟩
      rw [behind, behind, List.getLast?_concat, List.length_append, List.length_singleton]
    · rintro ⟨word, ⟨x, hx, rfl⟩, rest, rfl, rfl⟩
      refine ⟨x, rest, rfl, hx, ?_⟩
      rw [behind, behind, List.getLast?_concat, List.length_append, List.length_singleton]
  | anchor a => cases h
  | seq a b iha ihb =>
    obtain ⟨ha, hb⟩ := Bool.and_eq_true_iff.mp h
    exact (iha ha).seq (ihb hb)
  | alt a b iha ihb =>
    obtain ⟨ha, hb⟩ := Bool.and_eq_true_iff.mp h
    intro passed text captures t
    rw [Way, iha ha, ihb hb]
    constructor
    · rintro (⟨word, hword, hmore⟩ | ⟨word, hword, hmore⟩)
      · exact ⟨word, Or.inl hword, hmore⟩
      · exact ⟨word, Or.inr hword, hmore⟩
    · rintro ⟨word, hword | hword, hmore⟩
      · exact Or.inl ⟨word, hword, hmore⟩
      · exact Or.inr ⟨word, hword, hmore⟩
  | plus greedy body ih => exact (ih h).plus greedy
  | group index body => cases h

/-! ### The words of the derived forms -/

variable {rs more : List Regex} {c : Char} {kind : CharClass} {greedy : Bool}

theorem mem_language_char : word ∈ (char c).language ↔ word = [c] := by
  constructor
  · rintro ⟨x, hx, rfl⟩
    rw [(CharClass.contains_single c x).mp hx]
  · rintro rfl
    exact ⟨c, (CharClass.contains_single c c).mpr rfl, rfl⟩

theorem language_seqs_cons (r : Regex) (more : List Regex) :
    (seqs (r :: more)).language = r.language * (seqs more).language := by
  cases more with
  | nil => exact (mul_one r.language).symm
  | cons next more => rfl

theorem mem_language_text {chars : String} : word ∈ (Regex.text chars).language ↔ word = chars.toList := by
  rw [Regex.text]
  induction chars.toList generalizing word with
  | nil => exact Language.mem_one word
  | cons c chars ih =>
    rw [List.map_cons, language_seqs_cons, Language.mem_mul]
    constructor
    · rintro ⟨first, hfirst, more, hmore, rfl⟩
      rw [mem_language_char.mp hfirst, ih.mp hmore]
      rfl
    · rintro rfl
      exact ⟨[c], mem_language_char.mpr rfl, chars, ih.mpr rfl, rfl⟩

theorem mem_language_alts : word ∈ (alts rs).language ↔ ∃ r ∈ rs, word ∈ r.language := by
  induction rs with
  | nil =>
    constructor
    · rintro ⟨x, hx, -⟩
      cases hx
    · rintro ⟨r, hr, -⟩
      cases hr
  | cons r more ih =>
    cases more with
    | nil => simp [alts]
    | cons next more =>
      rw [alts, language, Language.mem_add, ih, List.exists_mem_cons_iff (a := r)]
      exact fun h => List.cons_ne_nil _ _ h

theorem isPlain_seqs (h : ∀ r ∈ rs, r.isPlain = true) : (seqs rs).isPlain = true := by
  induction rs with
  | nil => rfl
  | cons r more ih =>
    cases more with
    | nil => exact h r List.mem_cons_self
    | cons next more =>
      exact Bool.and_eq_true_iff.mpr
        ⟨h r List.mem_cons_self, ih fun other ho => h other (List.mem_cons_of_mem _ ho)⟩

theorem isPlain_text (chars : String) : (Regex.text chars).isPlain = true := by
  refine isPlain_seqs fun r hr => ?_
  obtain ⟨c, -, rfl⟩ := List.mem_map.mp hr
  rfl

theorem isPlain_alts (h : ∀ r ∈ rs, r.isPlain = true) : (alts rs).isPlain = true := by
  induction rs with
  | nil => rfl
  | cons r more ih =>
    cases more with
    | nil => exact h r List.mem_cons_self
    | cons next more =>
      exact Bool.and_eq_true_iff.mpr
        ⟨h r List.mem_cons_self, ih fun other ho => h other (List.mem_cons_of_mem _ ho)⟩

theorem mem_language_opt : word ∈ (opt greedy r).language ↔ word ∈ r.language ∨ word = [] := by
  cases greedy with
  | true => exact Iff.rfl
  | false => exact or_comm

theorem language_star (greedy : Bool) (body : Regex) :
    (star greedy body).language = body.language∗ := by
  rw [← Language.one_add_self_mul_kstar_eq_kstar]
  cases greedy with
  | true => exact add_comm _ _
  | false => rfl

theorem mem_kstar_one : word ∈ (one kind).language∗ ↔ ∀ c ∈ word, kind.contains c = true := by
  constructor
  · intro h
    obtain ⟨words, rfl, hwords⟩ := Language.mem_kstar.mp h
    intro c hc
    obtain ⟨other, ho, hc⟩ := List.mem_flatten.mp hc
    obtain ⟨x, hx, rfl⟩ := hwords other ho
    exact List.mem_singleton.mp hc ▸ hx
  · intro h
    induction word with
    | nil => exact Language.nil_mem_kstar _
    | cons c word ih =>
      have hword := ih fun d hd => h d (List.mem_cons_of_mem _ hd)
      have hfirst : [c] ∈ (one kind).language := ⟨c, h c List.mem_cons_self, rfl⟩
      exact append_mem_kstar hfirst hword

theorem mem_language_plus_one : word ∈ (plus greedy (one kind)).language ↔
    word ≠ [] ∧ ∀ c ∈ word, kind.contains c = true := by
  constructor
  · rintro ⟨first, ⟨x, hx, rfl⟩, more, hmore, rfl⟩
    refine ⟨List.cons_ne_nil x more, fun c hc => ?_⟩
    rcases List.mem_cons.mp hc with rfl | hc
    · exact hx
    · exact mem_kstar_one.mp hmore c hc
  · rintro ⟨hne, h⟩
    cases word with
    | nil => exact absurd rfl hne
    | cons c word =>
      have hword := mem_kstar_one.mpr fun d hd => h d (List.mem_cons_of_mem _ hd)
      exact Language.append_mem_mul (a := [c]) ⟨c, h c List.mem_cons_self, rfl⟩ hword

/-! ### Sequences of parts -/

theorem way_seqs_cons {s : Stage} (r : Regex) (more : List Regex) :
    (seqs (r :: more)).Way s t ↔ ∃ middle, r.Way s middle ∧ (seqs more).Way middle t := by
  cases more with
  | nil =>
    constructor
    · intro h
      exact ⟨t, h, rfl⟩
    · rintro ⟨middle, h, rfl⟩
      exact h
  | cons next more => exact Iff.rfl

theorem way_seqs_anchor {a : Anchor} :
    (seqs (anchor a :: more)).Way (behind passed text, captures) t ↔
      a.holds passed.getLast? text.head? = true ∧ (seqs more).Way (behind passed text, captures) t := by
  rw [way_seqs_cons]
  constructor
  · rintro ⟨_, ⟨hholds, rfl⟩, hmore⟩
    exact ⟨hholds, hmore⟩
  · rintro ⟨hholds, hmore⟩
    exact ⟨_, ⟨hholds, rfl⟩, hmore⟩

theorem way_seqs_textStart :
    (seqs (anchor .textStart :: more)).Way (behind passed text, captures) t ↔
      passed = [] ∧ (seqs more).Way (behind passed text, captures) t := by
  rw [way_seqs_anchor, Anchor.holds, Option.isNone_iff_eq_none, List.getLast?_eq_none_iff]

theorem way_seqs_textEnd :
    (seqs (anchor .textEnd :: more)).Way (behind passed text, captures) t ↔
      text = [] ∧ (seqs more).Way (behind passed text, captures) t := by
  rw [way_seqs_anchor, Anchor.holds, Option.isNone_iff_eq_none, List.head?_eq_none_iff]

theorem way_seqs_plain (h : r.isPlain = true) :
    (seqs (r :: more)).Way (behind passed text, captures) t ↔ ∃ word ∈ r.language, ∃ rest,
      text = word ++ rest ∧ (seqs more).Way (behind (passed ++ word) rest, captures) t := by
  rw [way_seqs_cons]
  constructor
  · rintro ⟨middle, hway, hmore⟩
    obtain ⟨word, hword, rest, htext, rfl⟩ := (reads_language h _ _ _ _).mp hway
    exact ⟨word, hword, rest, htext, hmore⟩
  · rintro ⟨word, hword, rest, htext, hmore⟩
    exact ⟨_, (reads_language h _ _ _ _).mpr ⟨word, hword, rest, htext, rfl⟩, hmore⟩

theorem way_seqs_char :
    (seqs (char c :: more)).Way (behind passed text, captures) t ↔ ∃ rest,
      text = c :: rest ∧ (seqs more).Way (behind (passed ++ [c]) rest, captures) t := by
  rw [way_seqs_plain rfl]
  constructor
  · rintro ⟨word, hword, h⟩
    rwa [mem_language_char.mp hword] at h
  · intro h
    exact ⟨[c], mem_language_char.mpr rfl, h⟩

/-- An expression that begins with the characters of a text passes at least these. -/
theorem way_seqs_text {chars : String}
    (h : (seqs (Regex.text chars :: more)).Way (behind passed text, captures) t) :
    chars.toList <+: text ∧ passed.length + chars.length ≤ t.1.index := by
  obtain ⟨word, hword, rest, rfl, hmore⟩ := (way_seqs_plain (isPlain_text chars)).mp h
  obtain rfl := mem_language_text.mp hword
  refine ⟨List.prefix_append _ _, ?_⟩
  have hle := hmore.reaches.index_le
  simp only [behind, List.length_append, String.length_toList] at hle
  exact hle

/-- A group notes where its word stands. -/
theorem way_seqs_group {index : Nat} (h : r.isPlain = true) :
    (seqs (group index r :: more)).Way (behind passed text, captures) t ↔
      ∃ word ∈ r.language, ∃ rest, text = word ++ rest ∧
        (seqs more).Way (behind (passed ++ word) rest,
          (index, passed.length, (passed ++ word).length) :: captures) t := by
  rw [way_seqs_cons]
  constructor
  · rintro ⟨_, ⟨inside, hway, rfl⟩, hmore⟩
    obtain ⟨word, hword, rest, htext, rfl⟩ := (reads_language h _ _ _ _).mp hway
    exact ⟨word, hword, rest, htext, hmore⟩
  · rintro ⟨word, hword, rest, htext, hmore⟩
    have hway := (reads_language h passed text captures _).mpr ⟨word, hword, rest, htext, rfl⟩
    exact ⟨_, ⟨_, hway, rfl⟩, hmore⟩

end Regex

end CrossIndex
