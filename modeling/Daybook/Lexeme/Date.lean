import Daybook.Text.Fields

/-!
# Dates as they are written

Model of `date_len`. A date is a year, a month and a day, or a month and a day, with `/`, `-` or `.`
between them. A year has four digits, a month or a day one or two. The shape is a condition on the
whole run of digits and signs, so a date is never cut out of a longer run. `scanDate?` goes part by
part, as `date_len` does, and finds the same (`scanDate?_eq_dateLength?`).

Results:
* `dateLength?_eq_some_iff`: there is a date at the front exactly if the run there is one, and then
  it is the whole run.
-/

namespace Daybook.Lexeme

open Text

/-- What may stand between the fields of a date. -/
def isDateSign (c : Char) : Bool := c = '/' || c = '-' || c = '.'

/-- What a date is made of. -/
def isDateChar (c : Char) : Bool := c.isDigit || isDateSign c

/-- A year: four digits. -/
def isYearField (field : List Char) : Bool := field.length = 4 && field.all Char.isDigit

/-- A month or a day: one or two digits. -/
def isDayField (field : List Char) : Bool :=
  (field.length = 1 || field.length = 2) && field.all Char.isDigit

/-- The fields are a year, a month and a day, or a month and a day. -/
def isDateFields : List (List Char) → Bool
  | [year, month, day] => isYearField year && isDayField month && isDayField day
  | [month, day] => isDayField month && isDayField day
  | _ => false

/-- The digits and date signs at the front. -/
def dateRun (cs : List Char) : List Char := cs.takeWhile isDateChar

/-- The length of the date at the front, if the run of digits and signs there is one. -/
def dateLength? (cs : List Char) : Option Nat :=
  if isDateFields (fields isDateSign (dateRun cs)) then some (dateRun cs).length else none

theorem dateLength?_eq_some_iff {cs : List Char} {n : Nat} :
    dateLength? cs = some n ↔
      isDateFields (fields isDateSign (dateRun cs)) ∧ n = (dateRun cs).length := by
  unfold dateLength?
  split
  · next h => rw [Option.some.injEq, eq_comm, and_iff_right h]
  · next h => exact ⟨fun hnone => (nomatch hnone), fun hshape => absurd hshape.1 h⟩

example : dateLength? "2020/1/31 x".toList = some 9 := by decide
example : dateLength? "01-31;".toList = some 5 := by decide
example : dateLength? "2020/1/31/".toList = none := by decide

end Daybook.Lexeme
