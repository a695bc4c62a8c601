import Daybook.Date
import Daybook.Proofs.Journal.Decimal

/-!
# Dates in standard form

A day is shown with its year, its month and its day of the month, and read back from them. A year of
more or less than four digits has a sign in front; the years before the year 0 have one too. This is
the stored form of dates ([SPEC 12.4]).

Results:
* `number?_padded`: a number with zeros in front is read back.
* `ofText?_text`: **every day is read back from its standard form.**
-/

namespace Daybook.Date

open Text

theorem isSign_of_mem_padded {width n : Nat} {c : Char} (h : c ∈ padded width n) :
    decide (c = '-') = false := by
  have hdigit := isDigit_of_mem_padded h
  simp only [decide_eq_false_iff_not]
  rintro rfl
  exact absurd hdigit (by decide)

/-- A number with zeros in front is read back. -/
theorem number?_padded (width n : Nat) : number? width (padded width n) = some n := by
  have hall : (padded width n).all Char.isDigit :=
    List.all_eq_true.mpr fun _ hc => isDigit_of_mem_padded hc
  simp [number?, length_padded_le, hall, ofDigits_padded]

/-- The three numbers of a day in standard form. -/
theorem fields_chars (year month day : Nat) :
    fields (· = '-') (padded 4 year ++ '-' :: (padded 2 month ++ '-' :: padded 2 day)) =
      [padded 4 year, padded 2 month, padded 2 day] := by
  rw [fields_append_cons (fun _ => isSign_of_mem_padded) rfl,
    fields_append_cons (fun _ => isSign_of_mem_padded) rfl,
    fields_of_forall fun _ => isSign_of_mem_padded]

/-- A year in standard form is its sign and its digits. -/
theorem splitSign_yearChars (year : Int) (rest : List Char) :
    splitSign (yearChars year ++ rest) =
      (decide (year < 0), padded 4 year.natAbs ++ rest) := by
  unfold yearChars
  split
  · next h =>
    simp only [Bool.and_eq_true, decide_eq_true_eq] at h
    have hyear : year.toNat = year.natAbs := by omega
    have hsign : decide (year < 0) = false := by simpa using h.1
    rw [hyear, hsign]
    cases hdigits : padded 4 year.natAbs with
    | nil =>
      have hlength := length_padded_le 4 year.natAbs
      simp [hdigits] at hlength
    | cons c cs =>
      have hc : c.isDigit := isDigit_of_mem_padded (hdigits ▸ List.mem_cons_self)
      exact Decimal.splitSign_signed hc false (cs ++ rest)
  · by_cases hsign : year < 0
    · simp [hsign, splitSign]
    · simp [hsign, splitSign]

/-- A date in standard form is read from its sign and its three numbers. -/
theorem ofText?_of_fields {s : String} {negative : Bool} {unsigned year month day : List Char}
    (hsplit : splitSign s.toList = (negative, unsigned))
    (hfields : fields (· = '-') unsigned = [year, month, day]) :
    ofText? s = (number? 4 year).bind fun y => (number? 2 month).bind fun m =>
      (number? 2 day).bind fun d => of? (if negative then -(y : Int) else y) m d := by
  unfold ofText?
  simp only [hsplit, hfields, Option.bind_eq_bind]

/-- **Every day is read back from its standard form.** -/
theorem ofText?_text (d : Date) : ofText? d.text = some d := by
  have hday : of? d.year d.month d.day = some d := dif_pos d.isCalendarDay
  have hyear : (if d.year < 0 then -(d.year.natAbs : Int) else d.year.natAbs) = d.year := by
    split <;> omega
  have hsplit : splitSign d.text.toList = (decide (d.year < 0),
      padded 4 d.year.natAbs ++ '-' :: (padded 2 d.month ++ '-' :: padded 2 d.day)) := by
    rw [text, String.toList_ofList, chars, List.append_assoc, splitSign_yearChars, List.cons_append]
  simp only [ofText?_of_fields hsplit (fields_chars ..), number?_padded, Option.bind_some,
    decide_eq_true_eq, hyear, hday]

end Daybook.Date
