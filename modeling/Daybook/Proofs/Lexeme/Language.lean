import Daybook.Proofs.Lexeme.Cut
import Mathlib.Computability.Language

/-!
# The languages of lexemes

Which texts a lexeme can be, said without the functions that cut it off the front: as sets of texts,
put together with the operations of languages. What each of those functions takes is in the language
of its lexeme, and where the text behind it matters, it is told what that text is. About the
scanners of [SPEC 11.3] and the lexicon of `Atom`.

* `oneOf p`, `manyOf p`, `someOf p`: a character, characters, and at least one character of a class.
* `dateText`, `numberText`, `freeText isStop`, `enclosed opening closing inner`: the languages.
* `Takes L Ahead n cs`: the first `n` characters of `cs` are in `L`, and what is behind them is in
  `Ahead`.

Results:
* `takes_dateLength?`: a date is a year, a month and a day, or a month and a day, and neither a
  digit nor a sign follows.
* `takes_numberLength`: a number is `([0-9][0-9,]*)?\.?[0-9]+`.
* `takes_freeRun`, `takes_textRun`: free text does not end in a blank character.
* a `takes_` lemma for each other lexeme.
-/

namespace Daybook.Lexeme

open Text

variable {p : Char → Bool} {c : Char} {n : Nat} {cs text ahead : List Char} {L : Language Char}
  {Ahead : List Char → Prop}

/-! ## Languages -/

/-- One character of a class. -/
def oneOf (p : Char → Bool) : Language Char := {text | ∃ c, p c ∧ text = [c]}

/-- Characters of a class, perhaps none. -/
def manyOf (p : Char → Bool) : Language Char := {text | ∀ c ∈ text, p c}

/-- Characters of a class, at least one. -/
def someOf (p : Char → Bool) : Language Char := {text | text ≠ [] ∧ ∀ c ∈ text, p c}

/-- This text and no other. -/
def exactly (text : List Char) : Language Char := {text}

/-- A text between two characters. -/
def enclosed (opening closing : Char) (inner : Language Char) : Language Char :=
  exactly [opening] * inner * exactly [closing]

/-- Four digits. -/
def yearText : Language Char := {text | text.length = 4 ∧ ∀ c ∈ text, c.isDigit}

/-- One digit or two. -/
def dayText : Language Char :=
  {text | (text.length = 1 ∨ text.length = 2) ∧ ∀ c ∈ text, c.isDigit}

/-- A year, a month and a day, or a month and a day, with `/`, `-` or `.` between them. -/
def dateText : Language Char :=
  (1 + yearText * oneOf isDateSign) * dayText * oneOf isDateSign * dayText

/-- The regular expression `([0-9][0-9,]*)?\.?[0-9]+`. -/
def numberText : Language Char :=
  (1 + oneOf Char.isDigit * manyOf fun c => c.isDigit || c = ',') * (1 + exactly ['.']) *
    someOf Char.isDigit

/-- Text on one line and without stops that does not end in a blank character. -/
def freeText (isStop : Char → Bool) : Language Char :=
  {text | text ≠ [] ∧ (∀ c ∈ text, endsLine c = false ∧ isStop c = false) ∧
    ∀ c ∈ text.getLast?, isBlank c = false}

theorem nil_mem_manyOf (p : Char → Bool) : [] ∈ manyOf p := fun _ hc => absurd hc List.not_mem_nil

/-- A space is layout. -/
theorem space_mem_layout : [' '] ∈ manyOf isLayout := List.all_eq_true.mp (by decide)

theorem mem_enclosed {opening closing : Char} {inner : List Char} (h : inner ∈ L) :
    opening :: (inner ++ [closing]) ∈ enclosed opening closing L :=
  Language.append_mem_mul (a := [opening] ++ inner) (b := [closing])
    (Language.append_mem_mul rfl h) rfl

/-- A number is digits and commas, of which the first is a digit, perhaps a point, and digits. -/
theorem exists_of_mem_numberText (h : text ∈ numberText) : ∃ grouped point digits,
    text = grouped ++ point ++ digits ∧ (∀ c ∈ grouped, c.isDigit ∨ c = ',') ∧
      (grouped = [] ∨ ∃ c ∈ grouped.head?, c.isDigit) ∧ (point = [] ∨ point = ['.']) ∧
      digits ∈ someOf Char.isDigit := by
  obtain ⟨front, ⟨grouped, hgrouped, point, hpoint, rfl⟩, digits, hdigits, rfl⟩ := h
  suffices hchars : (∀ c ∈ grouped, c.isDigit ∨ c = ',') ∧
      (grouped = [] ∨ ∃ c ∈ grouped.head?, c.isDigit) from
    ⟨grouped, point, digits, rfl, hchars.1, hchars.2, hpoint, hdigits⟩
  rcases hgrouped with rfl | ⟨first, ⟨c, hc, rfl⟩, more, hmore, rfl⟩
  · exact ⟨by simp, .inl rfl⟩
  · refine ⟨List.forall_mem_cons.mpr ⟨.inl hc, fun d hd => ?_⟩, .inr ⟨c, rfl, hc⟩⟩
    simpa using hmore d hd

/-- The other way round, that is a number. -/
theorem mem_numberText {grouped point digits : List Char}
    (hgrouped : ∀ c ∈ grouped, c.isDigit ∨ c = ',')
    (hfirst : grouped = [] ∨ ∃ c ∈ grouped.head?, c.isDigit) (hpoint : point = [] ∨ point = ['.'])
    (hdigits : digits ∈ someOf Char.isDigit) : grouped ++ point ++ digits ∈ numberText := by
  refine Language.append_mem_mul (Language.append_mem_mul ?_ hpoint) hdigits
  rcases hfirst with rfl | ⟨c, hc, hdigit⟩
  · exact .inl rfl
  · obtain ⟨more, rfl⟩ := List.head?_eq_some_iff.mp hc
    refine .inr (Language.append_mem_mul (a := [c]) ⟨c, hdigit, rfl⟩ fun d hd => ?_)
    simpa using hgrouped d (List.mem_cons_of_mem c hd)

/-! ## What is taken from the front -/

/-- The first `n` characters are a text of the language, and what is behind them is as told. -/
def Takes (L : Language Char) (Ahead : List Char → Prop) (n : Nat) (cs : List Char) : Prop :=
  ∃ text ahead, cs = text ++ ahead ∧ text ∈ L ∧ Ahead ahead ∧ text.length = n

theorem Takes.intro (htext : text ∈ L) (hahead : Ahead ahead) :
    Takes L Ahead text.length (text ++ ahead) := ⟨text, ahead, rfl, htext, hahead, rfl⟩

theorem Takes.mono {M : Language Char} {Behind : List Char → Prop} (h : Takes L Ahead n cs)
    (htext : ∀ text ∈ L, text ∈ M) (hahead : ∀ ahead, Ahead ahead → Behind ahead) :
    Takes M Behind n cs := by
  obtain ⟨text, ahead, rfl, htext', hahead', rfl⟩ := h
  exact .intro (htext text htext') (hahead ahead hahead')

/-- A text of a language at the front. -/
theorem takes_of_isPrefix (hfront : text <+: cs) (htext : text ∈ L) :
    Takes L (fun _ => True) text.length cs := by
  obtain ⟨ahead, rfl⟩ := hfront
  exact .intro htext trivial

/-- The characters of a class end in front of another one. -/
theorem takeWhile_stops {ahead : List Char} (h : ∀ c ∈ cs, p c)
    (hahead : ∀ d ∈ ahead.head?, p d = false) : (cs ++ ahead).takeWhile p = cs := by
  have hnone : ahead.takeWhile p = [] := by
    cases ahead with
    | nil => rfl
    | cons d ahead => exact List.takeWhile_cons_of_neg (by simp [hahead d rfl])
  rw [List.takeWhile_append_of_pos h, hnone, List.append_nil]

/-- The characters of a class at the front, if there are any. -/
theorem takes_takeWhile (h : 0 < (cs.takeWhile p).length) :
    Takes (someOf p) (fun _ => True) (cs.takeWhile p).length cs :=
  takes_of_isPrefix (List.takeWhile_prefix p)
    ⟨List.ne_nil_of_length_pos h, fun _ => List.mem_takeWhile_imp⟩

/-! ## Lines -/

/-- A keyword has a space or a tab behind it. -/
theorem takes_keywordLength {word : List Char} (h : 0 < keywordLength word cs) :
    Takes (exactly word) (fun ahead => ∃ d ∈ ahead.head?, isLayout d) (keywordLength word cs)
      cs := by
  obtain ⟨-, d, more, hd, rfl⟩ := keywordLength_pos_iff.mp h
  rw [keywordLength_append hd]
  exact .intro rfl ⟨d, rfl, hd⟩

/-- **Free text does not end in a blank character**, and it holds no stop. -/
theorem takes_freeRun {isStop : Char → Bool} (h : 0 < (freeRun isStop cs).length) :
    Takes (freeText isStop) (fun _ => True) (freeRun isStop cs).length cs :=
  takes_of_isPrefix (freeRun_isPrefix isStop cs) ⟨List.ne_nil_of_length_pos h,
    fun _ => freeRun_no_break, fun c hc => trimEnd_getLast _ c hc⟩

/-! ## Dates -/

/-- What is behind a run of characters starts with another character. -/
theorem head?_dropWhile : ∀ c ∈ (cs.dropWhile p).head?, p c = false := by
  intro c hc
  have hnot := List.head?_dropWhile_not p cs
  rw [Option.mem_def.mp hc] at hnot
  exact hnot

theorem mem_yearText {field : List Char} (h : isYearField field) : field ∈ yearText := by
  simp only [isYearField, Bool.and_eq_true, decide_eq_true_eq, List.all_eq_true] at h
  exact h

theorem mem_dayText {field : List Char} (h : isDayField field) : field ∈ dayText := by
  simp only [isDayField, Bool.and_eq_true, Bool.or_eq_true, decide_eq_true_eq,
    List.all_eq_true] at h
  exact h

/-- Fields of the right shape with signs between them are a date. -/
theorem mem_dateText {run : List Char} (h : isDateFields (fields isDateSign run)) :
    run ∈ dateText := by
  generalize hfields : fields isDateSign run = parts at h
  unfold isDateFields at h
  split at h
  · next year month day =>
    simp only [Bool.and_eq_true] at h
    obtain ⟨a, rest, ha, rfl, hrest⟩ := exists_of_fields_eq_cons hfields
    obtain ⟨b, last, hb, rfl, hlast⟩ := exists_of_fields_eq_cons hrest
    obtain rfl := eq_of_fields_eq_singleton hlast
    have hyear : year ++ [a] ∈ 1 + yearText * oneOf isDateSign :=
      .inr (Language.append_mem_mul (mem_yearText h.1.1) ⟨a, ha, rfl⟩)
    have hdate := Language.append_mem_mul (Language.append_mem_mul (Language.append_mem_mul hyear
      (mem_dayText h.1.2)) (show [b] ∈ oneOf isDateSign from ⟨b, hb, rfl⟩)) (mem_dayText h.2)
    simpa [dateText] using hdate
  · next month day =>
    simp only [Bool.and_eq_true] at h
    obtain ⟨b, last, hb, rfl, hlast⟩ := exists_of_fields_eq_cons hfields
    obtain rfl := eq_of_fields_eq_singleton hlast
    have hyear : [] ∈ 1 + yearText * oneOf isDateSign := .inl rfl
    have hdate := Language.append_mem_mul (Language.append_mem_mul (Language.append_mem_mul hyear
      (mem_dayText h.1)) (show [b] ∈ oneOf isDateSign from ⟨b, hb, rfl⟩)) (mem_dayText h.2)
    simpa [dateText] using hdate
  · simp at h

/-- **A date is not followed by a digit or a sign.** -/
theorem takes_dateLength? (h : dateLength? cs = some n) :
    Takes dateText (fun ahead => ∀ c ∈ ahead.head?, isDateChar c = false) n cs := by
  obtain ⟨hshape, rfl⟩ := dateLength?_eq_some_iff.mp h
  exact ⟨_, _, (List.takeWhile_append_dropWhile (p := isDateChar)).symm, mem_dateText hshape,
    head?_dropWhile, rfl⟩

/-! ## Numbers and commodities -/

/-- A point and digits. -/
theorem exists_of_fractionLength (h : 0 < fractionLength cs) :
    ∃ digits ahead, cs = '.' :: (digits ++ ahead) ∧ digits ∈ someOf Char.isDigit ∧
      fractionLength cs = digits.length + 1 := by
  unfold fractionLength at h ⊢
  split at h
  · next cs =>
    split at h
    · simp at h
    · next hne =>
      refine ⟨digitRun cs, cs.dropWhile Char.isDigit, ?_, ⟨by simpa using hne, ?_⟩, by simp [hne]⟩
      · rw [digitRun, List.takeWhile_append_dropWhile]
      · exact fun _ => List.mem_takeWhile_imp
  · simp at h

/-- Digits in front are in front of digits and commas too. -/
theorem head?_groupedRun (h : digitRun cs ≠ []) : ∃ c ∈ (groupedRun cs).head?, c.isDigit := by
  cases cs with
  | nil => exact absurd rfl h
  | cons c cs =>
    have hc : c.isDigit := by
      by_contra hc
      exact h (by simp [digitRun, hc])
    exact ⟨c, by simp [groupedRun, hc], hc⟩

/-- Digits and commas with a point and digits behind them are a number. -/
theorem takes_fraction (hdigits : digitRun cs ≠ [])
    (h : 0 < fractionLength (cs.drop (groupedRun cs).length)) :
    Takes numberText (fun _ => True)
      ((groupedRun cs).length + fractionLength (cs.drop (groupedRun cs).length)) cs := by
  obtain ⟨digits, ahead, hrest, hfraction, hlen⟩ := exists_of_fractionLength h
  have hgrouped : ∀ c ∈ groupedRun cs, c.isDigit ∨ c = ',' := fun c hc => by
    simpa using List.mem_takeWhile_imp hc
  have hnumber : groupedRun cs ++ ['.'] ++ digits ∈ numberText :=
    mem_numberText hgrouped (.inr (head?_groupedRun hdigits)) (.inr rfl) hfraction
  have hsplit : groupedRun cs ++ cs.drop (groupedRun cs).length = cs := by
    rw [groupedRun, drop_run, List.takeWhile_append_dropWhile]
  refine ⟨groupedRun cs ++ ['.'] ++ digits, ahead, ?_, hnumber, trivial, ?_⟩
  · rw [hrest] at hsplit
    rw [List.append_assoc, List.append_assoc]
    exact hsplit.symm
  · simp only [List.length_append, List.length_singleton, hlen]
    omega

/-- **A number is `([0-9][0-9,]*)?\.?[0-9]+`.** -/
theorem takes_numberLength (h : 0 < numberLength cs) :
    Takes numberText (fun _ => True) (numberLength cs) cs := by
  unfold numberLength at h ⊢
  split at h
  · next hnone =>
    obtain ⟨digits, ahead, rfl, hdigits, hlen⟩ := exists_of_fractionLength h
    have hnumber : [] ++ ['.'] ++ digits ∈ numberText :=
      mem_numberText (by simp) (.inl rfl) (.inr rfl) hdigits
    rw [if_pos hnone, hlen]
    exact ⟨'.' :: digits, ahead, rfl, hnumber, trivial, rfl⟩
  · next hsome =>
    rw [if_neg hsome]
    simp only at h ⊢
    split at h
    · next hshape =>
      rw [if_pos hshape]
      have hdigits : digitRun cs ∈ someOf Char.isDigit :=
        ⟨by simpa using hsome, fun _ => List.mem_takeWhile_imp⟩
      rcases Nat.eq_zero_or_pos (fractionLength (cs.drop (groupedRun cs).length)) with hzero | hpos
      · -- without a fraction there are no commas among the digits
        rw [hzero] at hshape ⊢
        simp only [Nat.lt_irrefl, decide_false, Bool.or_false, decide_eq_true_eq] at hshape
        have hnumber : [] ++ [] ++ digitRun cs ∈ numberText :=
          mem_numberText (by simp) (.inl rfl) (.inl rfl) hdigits
        rw [Nat.add_zero, hshape]
        exact takes_of_isPrefix (List.takeWhile_prefix _) hnumber
      · exact takes_fraction hdigits.1 hpos
    · simp at h

/-- What stands between quotes. -/
theorem exists_of_quotedCommodity? {inner : List Char} (h : quotedCommodity? cs = some inner) :
    inner ∈ someOf isQuotedChar ∧ ∃ ahead, cs = '"' :: (inner ++ ['"']) ++ ahead := by
  obtain ⟨hne, hchars, ahead, rfl⟩ := quotedCommodity?_eq_some h
  exact ⟨⟨hne, hchars⟩, ahead, by simp⟩

/-! ## Comments -/

/-- The name of a tag has a colon behind it. -/
theorem takes_tagNameLength? (h : tagNameLength? cs = some n) :
    Takes (someOf isTagNameChar) (fun ahead => ahead.head? = some ':') n cs := by
  obtain ⟨name, after, rfl, hne, hname, rfl⟩ := tagNameLength?_eq_some_iff.mp h
  exact .intro ⟨hne, hname⟩ rfl

theorem endsLine_of_mem_textRun (h : c ∈ textRun cs) : endsLine c = false := by
  have hline := onLine_textRun cs
  have hfront := List.prefix_iff_eq_take.mp (textRun_isPrefix cs)
  rw [hfront] at h
  exact hline.endsLine_eq_false h

/-- **Free text in a comment does not end in a blank character.** -/
theorem takes_textRun (h : 0 < (textRun cs).length) :
    Takes (freeText fun _ => false) (fun _ => True) (textRun cs).length cs := by
  refine takes_of_isPrefix (textRun_isPrefix cs) ⟨List.ne_nil_of_length_pos h,
    fun _ hc => ⟨endsLine_of_mem_textRun hc, rfl⟩, fun c hc => ?_⟩
  cases cs with
  | nil => simp [textRun] at hc
  | cons d cs =>
    rw [textRun] at hc
    split at hc
    · simp at hc
    · exact trimEnd_getLast _ c hc

/-! ## Account names -/

/-- What the name of an account without brackets may hold. -/
def isNameChar (c : Char) : Bool := !(c = '\t' || c = ';' || endsLine c)

/-- What a name in brackets may hold. -/
def isEnclosedChar (closing c : Char) : Bool := !(c = closing || c = ';' || endsLine c)

theorem isNameChar_of_nameEnds (h : nameEnds (c :: cs) = false) : isNameChar c := by
  unfold nameEnds at h
  split at h
  · next heq => simp at heq
  · next heq =>
    rw [(List.cons.inj heq).1]
    rfl
  · next heq =>
    obtain ⟨rfl, -⟩ := List.cons.inj heq
    simpa [isNameChar] using h

theorem of_mem_take_nameLength : ∀ {cs : List Char}, c ∈ cs.take (nameLength cs) → isNameChar c
  | [], h => by simp at h
  | d :: cs, h => by
    unfold nameLength at h
    split at h
    · simp at h
    · next hends =>
      rw [List.take_succ_cons] at h
      rcases List.mem_cons.mp h with rfl | hmore
      · exact isNameChar_of_nameEnds (by simpa using hends)
      · exact of_mem_take_nameLength hmore

theorem takes_nameLength (h : 0 < nameLength cs) :
    Takes (someOf isNameChar) (fun _ => True) (nameLength cs) cs := by
  have hlen : (cs.take (nameLength cs)).length = nameLength cs :=
    List.length_take_of_le (nameLength_le cs)
  have hne : cs.take (nameLength cs) ≠ [] :=
    List.ne_nil_of_length_pos (Nat.lt_of_lt_of_eq h hlen.symm)
  exact ⟨_, _, (List.take_append_drop _ cs).symm, ⟨hne, fun _ => of_mem_take_nameLength⟩, trivial,
    hlen⟩

/-- A name in brackets, and what is behind it. -/
theorem exists_of_enclosedName? {opening closing : Char} {inner : List Char}
    (h : enclosedName? opening closing cs = some inner) :
    inner ∈ someOf (isEnclosedChar closing) ∧
      ∃ ahead, cs = opening :: (inner ++ closing :: ahead) := by
  obtain ⟨hne, hchars, hahead⟩ := enclosedName?_eq_some h
  exact ⟨⟨hne, hchars⟩, hahead⟩

end Daybook.Lexeme
