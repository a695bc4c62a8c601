import Daybook.Proofs.Lexeme.Language

/-!
# Lexemes that are taken whole

What is cut off the front of a text is in the language of its lexeme. The other way round, a text of
the language is cut off whole, as long as what is behind it could not go on with it. For numbers
there is an exception: digits with commas among them need a point.

Results:
* `numberLength_digits`, `numberLength_fraction`, `numberLength_eq_zero_of_comma`: what is taken
  where digits, a fraction, or digits and commas are in front.
* `numberLength_append`: **a number is taken whole**, if it has a point or no comma.
* `numberLength_comma`, `point_of_comma`: nothing is taken of a number with a comma and no point.
* `quotedCommodity?_append`, `freeRun_append`: so are a commodity in quotes and free text.
-/

namespace Daybook.Lexeme

open Text

variable {c : Char} {cs n ahead : List Char}

/-! ## Layout -/

/-- What stands at the front is layout, if there is any, and else what is behind the layout. -/
theorem head?_layout {P : Char → Prop} {gap : List Char} (hgap : ∀ c ∈ gap, isLayout c)
    (hlayout : ∀ c, isLayout c → P c) (hahead : ∀ d ∈ ahead.head?, P d) :
    ∀ d ∈ (gap ++ ahead).head?, P d := by
  cases gap with
  | nil => exact hahead
  | cons c gap =>
    rintro _ ⟨⟩
    exact hlayout c (hgap c List.mem_cons_self)

/-! ## Numbers -/

/-- What a number can go on with. -/
def isNumberChar (c : Char) : Bool := c.isDigit || c = ',' || c = '.'

theorem isNumberChar_eq_false_iff :
    isNumberChar c = false ↔ c.isDigit = false ∧ c ≠ ',' ∧ c ≠ '.' := by
  simp [isNumberChar, and_assoc]

/-- A number starts with a digit or with its point. -/
theorem exists_cons_of_mem_numberText (hn : n ∈ numberText) :
    ∃ c cs, n = c :: cs ∧ (c.isDigit ∨ c = '.') := by
  obtain ⟨grouped, point, digits, rfl, -, hfirst, hpoint, hdigits⟩ := exists_of_mem_numberText hn
  rcases hfirst with rfl | ⟨c, hc, hdigit⟩
  · obtain ⟨d, ds, rfl⟩ := List.exists_cons_of_ne_nil hdigits.1
    rcases hpoint with rfl | rfl
    · exact ⟨d, ds, rfl, .inl (hdigits.2 d List.mem_cons_self)⟩
    · exact ⟨'.', d :: ds, rfl, .inr rfl⟩
  · obtain ⟨more, rfl⟩ := List.head?_eq_some_iff.mp hc
    exact ⟨c, more ++ point ++ digits, by simp, .inl hdigit⟩

theorem isNumberChar_of_first (hc : c.isDigit ∨ c = '.') : isNumberChar c := by
  rcases hc with hdigit | rfl
  · simp [isNumberChar, hdigit]
  · rfl

theorem fractionLength_append {digits : List Char} (hdigits : digits ∈ someOf Char.isDigit)
    (hahead : ∀ d ∈ ahead.head?, d.isDigit = false) :
    fractionLength ('.' :: (digits ++ ahead)) = digits.length + 1 := by
  have hrun : digitRun (digits ++ ahead) = digits := takeWhile_stops hdigits.2 hahead
  simp [fractionLength, hrun, hdigits.1]

theorem fractionLength_of_head (hahead : ∀ d ∈ ahead.head?, d ≠ '.') :
    fractionLength ahead = 0 := by
  unfold fractionLength
  split
  · exact absurd rfl (hahead '.' rfl)
  · rfl

/-- Where neither a digit nor a point stands there is no number. -/
theorem numberLength_of_head (hahead : ∀ d ∈ ahead.head?, d.isDigit = false ∧ d ≠ '.') :
    numberLength ahead = 0 := by
  have hnone : digitRun ahead = [] := by
    cases ahead with
    | nil => rfl
    | cons d ahead => exact List.takeWhile_cons_of_neg (by simp [(hahead d rfl).1])
  rw [numberLength, if_pos (List.isEmpty_iff.mpr hnone)]
  exact fractionLength_of_head fun d hd => (hahead d hd).2

/-- Digits are a number, if neither more digits nor a comma nor a fraction follows. -/
theorem numberLength_digits (hn : n ∈ someOf Char.isDigit)
    (hahead : ∀ d ∈ ahead.head?, d.isDigit = false ∧ d ≠ ',')
    (hfraction : fractionLength ahead = 0) : numberLength (n ++ ahead) = n.length := by
  have hdigits : digitRun (n ++ ahead) = n := takeWhile_stops hn.2 fun d hd => (hahead d hd).1
  have hgrouped : groupedRun (n ++ ahead) = n :=
    takeWhile_stops (fun c hc => by simp [hn.2 c hc]) fun d hd => by simp [hahead d hd]
  simp [numberLength, hdigits, hgrouped, hfraction, hn.1]

/-- A fraction is a number, also with digits and commas in front of it that start with a digit. -/
theorem numberLength_fraction {whole digits : List Char}
    (hfirst : whole = [] ∨ ∃ c ∈ whole.head?, c.isDigit) (hwhole : ∀ d ∈ whole, d.isDigit ∨ d = ',')
    (hdigits : digits ∈ someOf Char.isDigit) (hahead : ∀ d ∈ ahead.head?, d.isDigit = false) :
    numberLength (whole ++ ['.'] ++ digits ++ ahead) = (whole ++ ['.'] ++ digits).length := by
  have hfraction := fractionLength_append hdigits hahead
  have happend : whole ++ ['.'] ++ digits ++ ahead = whole ++ '.' :: (digits ++ ahead) := by simp
  rw [happend]
  rcases hfirst with rfl | ⟨c, hc, hdigit⟩
  · have hnone : digitRun ('.' :: (digits ++ ahead)) = [] := rfl
    simp [numberLength, hnone, hfraction]
  · have hrun : groupedRun (whole ++ '.' :: (digits ++ ahead)) = whole :=
      takeWhile_stops (fun d hd => by simpa using hwhole d hd) (by rintro _ ⟨⟩; rfl)
    have hsome : digitRun (whole ++ '.' :: (digits ++ ahead)) ≠ [] := by
      obtain ⟨more, rfl⟩ := List.head?_eq_some_iff.mp hc
      simp [digitRun, hdigit]
    simp [numberLength, hsome, hrun, hfraction]

/-- Digits and commas with a comma among them and no fraction behind them are no number, not even in
part. -/
theorem numberLength_eq_zero_of_comma (hcomma : ',' ∈ groupedRun cs)
    (hfraction : fractionLength (cs.drop (groupedRun cs).length) = 0) : numberLength cs = 0 := by
  by_cases hempty : digitRun cs = []
  · -- a comma stands in front
    rw [numberLength, if_pos (List.isEmpty_iff.mpr hempty)]
    refine fractionLength_of_head fun d hd hpoint => ?_
    obtain ⟨more, rfl⟩ := List.head?_eq_some_iff.mp (hpoint ▸ hd)
    simp [groupedRun] at hcomma
  · have hshort : (groupedRun cs).length ≠ (digitRun cs).length := by
      intro heq
      have hsame : groupedRun cs = digitRun cs :=
        (List.prefix_of_prefix_length_le (List.takeWhile_prefix _) (List.takeWhile_prefix _)
          (Nat.le_of_eq heq)).eq_of_length heq
      have hdigit : (',' : Char).isDigit := List.mem_takeWhile_imp (hsame ▸ hcomma)
      exact absurd hdigit (by decide)
    simp [numberLength, hempty, hshort, hfraction]

/-- A number without a point is digits and commas. -/
theorem isGrouped_of_mem (hn : n ∈ numberText) (hpoint : '.' ∉ n) :
    ∀ c ∈ n, c.isDigit || c = ',' := by
  obtain ⟨grouped, point, digits, rfl, hgrouped, -, hpoints, hdigits⟩ := exists_of_mem_numberText hn
  have hnone : point = [] := hpoints.resolve_right fun heq => hpoint (by simp [heq])
  rw [hnone, List.append_nil]
  intro c hc
  simpa using (List.mem_append.mp hc).elim (hgrouped c) fun hmem => .inl (hdigits.2 c hmem)

theorem ne_nil_of_mem_numberText (hn : n ∈ numberText) : n ≠ [] := by
  obtain ⟨c, cs, rfl, -⟩ := exists_cons_of_mem_numberText hn
  exact List.cons_ne_nil c cs

/-- A number without a point and without a comma is digits. -/
theorem mem_digits_of_mem (hn : n ∈ numberText) (hpoint : '.' ∉ n) (hcomma : ',' ∉ n) :
    n ∈ someOf Char.isDigit := by
  refine ⟨ne_nil_of_mem_numberText hn, fun c hc => ?_⟩
  have hgrouped : c.isDigit ∨ c = ',' := by simpa using isGrouped_of_mem hn hpoint c hc
  exact hgrouped.resolve_right fun heq => hcomma (heq ▸ hc)

/-- A number with a point has digits behind it, and digits and commas in front of it. -/
theorem exists_of_point (hn : n ∈ numberText) (hpoint : '.' ∈ n) : ∃ whole digits,
    n = whole ++ ['.'] ++ digits ∧ (∀ c ∈ whole, c.isDigit ∨ c = ',') ∧
      (whole = [] ∨ ∃ c ∈ whole.head?, c.isDigit) ∧ digits ∈ someOf Char.isDigit := by
  obtain ⟨whole, point, digits, rfl, hwhole, hfirst, rfl | rfl, hdigits⟩ :=
    exists_of_mem_numberText hn
  · rw [List.append_nil] at hpoint
    rcases List.mem_append.mp hpoint with hmem | hmem
    · exact absurd (hwhole _ hmem) (by decide)
    · exact absurd (hdigits.2 _ hmem) (by decide)
  · exact ⟨whole, digits, rfl, hwhole, hfirst, hdigits⟩

/-- **A number is taken whole**, if it has a point or no comma. -/
theorem numberLength_append (hn : n ∈ numberText) (hcommas : ',' ∈ n → '.' ∈ n)
    (hahead : ∀ d ∈ ahead.head?, isNumberChar d = false) :
    numberLength (n ++ ahead) = n.length := by
  simp only [isNumberChar_eq_false_iff] at hahead
  by_cases hpoint : '.' ∈ n
  · obtain ⟨whole, digits, rfl, hwhole, hfirst, hdigits⟩ := exists_of_point hn hpoint
    exact numberLength_fraction hfirst hwhole hdigits fun d hd => (hahead d hd).1
  · exact numberLength_digits (mem_digits_of_mem hn hpoint fun hmem => hpoint (hcommas hmem))
      (fun d hd => ⟨(hahead d hd).1, (hahead d hd).2.1⟩)
      (fractionLength_of_head fun d hd => (hahead d hd).2.2)

/-- **Digits and commas are no number**, not even in part, if there is a comma and no point. -/
theorem numberLength_comma (hn : n ∈ numberText) (hcomma : ',' ∈ n) (hpoint : '.' ∉ n)
    (hahead : ∀ d ∈ ahead.head?, isNumberChar d = false) : numberLength (n ++ ahead) = 0 := by
  simp only [isNumberChar_eq_false_iff] at hahead
  have hrun : groupedRun (n ++ ahead) = n :=
    takeWhile_stops (isGrouped_of_mem hn hpoint) fun d hd => by simp [hahead d hd]
  refine numberLength_eq_zero_of_comma (hrun.symm ▸ hcomma) ?_
  rw [hrun, List.drop_left]
  exact fractionLength_of_head fun d hd => (hahead d hd).2.2

/-- A number that is taken whole has a point if it has a comma. -/
theorem point_of_comma (hn : n ∈ numberText) (h : numberLength (n ++ ahead) = n.length)
    (hcomma : ',' ∈ n) : '.' ∈ n := by
  by_contra hpoint
  have hpos : 0 < n.length := List.length_pos_of_mem hcomma
  have hcut : numberLength (n ++ ahead) = numberLength n := by
    refine numberLength_cut (fun hdigits => ?_) (Nat.le_of_eq h)
    exact h ▸ groupedRun_length_le hdigits (h ▸ hpos)
  have hnone : numberLength (n ++ []) = 0 := numberLength_comma hn hcomma hpoint (by simp)
  rw [List.append_nil, ← hcut, h] at hnone
  exact Nat.ne_of_gt hpos hnone

/-! ## Commodities -/

/-- A commodity in quotes is taken whole, whatever is behind it. -/
theorem quotedCommodity?_append {inner : List Char} (hinner : inner ∈ someOf isQuotedChar)
    (ahead : List Char) : quotedCommodity? ('"' :: (inner ++ '"' :: ahead)) = some inner := by
  have hrun : (inner ++ '"' :: ahead).takeWhile isQuotedChar = inner :=
    takeWhile_stops hinner.2 (by rintro _ ⟨⟩; rfl)
  have hdrop : (inner ++ '"' :: ahead).drop inner.length = '"' :: ahead := List.drop_left
  simp [quotedCommodity?, hrun, hdrop, hinner.1]

/-! ## Free text -/

/-- Nothing is cut off a text that does not end in a blank character. -/
theorem trimEnd_eq_self (h : ∀ c ∈ cs.getLast?, isBlank c = false) : trimEnd cs = cs := by
  obtain ⟨gap, hsplit, hblank⟩ := trimEnd_append cs
  cases hlast : gap.getLast? with
  | none => rwa [List.getLast?_eq_none_iff.mp hlast, List.append_nil] at hsplit
  | some c =>
    have hc : c ∈ cs.getLast? := by
      rw [← hsplit]
      exact List.mem_getLast?_append_of_mem_getLast? hlast
    exact absurd (hblank c (List.mem_of_getLast? hlast)) (by simp [h c hc])

/-- **Free text is taken whole** in front of a stop or the end of the line. -/
theorem freeRun_append {isStop : Char → Bool} {text : List Char} (htext : text ∈ freeText isStop)
    (hahead : ∀ c ∈ ahead.head?, endsLine c || isStop c) :
    freeRun isStop (text ++ ahead) = text := by
  have hrun : (text ++ ahead).takeWhile (fun c => !(endsLine c || isStop c)) = text :=
    takeWhile_stops (fun c hc => by simp [htext.2.1 c hc]) fun c hc => by simp [hahead c hc]
  rw [freeRun, hrun, trimEnd_eq_self htext.2.2]

end Daybook.Lexeme
