import Daybook.Proofs.Journal.Date
import Daybook.Proofs.Lexeme.Date

/-!
# Dates and the calendar

What a written date names is said here by its shape alone, and which days there are by the calendar
of the standard library. A text resolves to a day exactly if it names one of that calendar. About
`resolve_date` ([SPEC 4.4]).

* `Names defaultYear text year month day`: the text is a date, and these are its numbers.
* `IsGregorian year month day`: the standard library has such a date in its calendar.
* `resolveInSteps text defaultYear`: a text resolved field by field, each read as a number that has
  to be within bounds, with a fault for each thing that can go wrong.

Results:
* `isCalendarDay_iff`: the days of the calendar are those of the standard library in the years there
  are.
* `resolve_eq_ok_iff`: what a text resolves to.
* `resolve_gregorian`: **resolving a date is reading its numbers and looking them up in the
  calendar.**
* `resolveInSteps_eq`: **only the shape and the day can be wrong**, whatever else is looked for.
-/

namespace Daybook.Date

open Text Lexeme

variable {text : String} {cs : List Char} {defaultYear year : Int} {month day : Nat}

/-! ## The calendar -/

/-- The standard library has such a date in its calendar. -/
def IsGregorian (year : Int) (month day : Nat) : Prop :=
  ∃ date : Std.Time.PlainDate,
    date.year.toInt = year ∧ date.month.val = month ∧ date.day.val = day

theorem isLeapYear_toInt (year : Std.Time.Year.Offset) : isLeapYear year.toInt = year.isLeap := by
  have hdvd (n : Int) : year.toInt.tmod n = 0 ↔ year.toInt % n = 0 := by
    rw [← Int.dvd_iff_tmod_eq_zero, Int.dvd_iff_emod_eq_zero]
  simp only [isLeapYear, Std.Time.Year.Offset.isLeap, ne_eq, hdvd, Bool.decide_and, Bool.decide_or]

/-- The months have as many days as in the standard library. -/
theorem daysInMonth_toInt (year : Std.Time.Year.Offset) (month : Std.Time.Month.Ordinal) :
    (daysInMonth year.toInt month.val.toNat : Int) = (month.days year.isLeap).val := by
  obtain ⟨month, hfirst, hlast⟩ := month
  have hmonth : month = 1 ∨ month = 2 ∨ month = 3 ∨ month = 4 ∨ month = 5 ∨ month = 6 ∨ month = 7 ∨
      month = 8 ∨ month = 9 ∨ month = 10 ∨ month = 11 ∨ month = 12 := by omega
  have hfebruary (leap : Bool) (h : 1 ≤ (2 : Int) ∧ (2 : Int) ≤ 12) :
      ((if leap then 29 else 28 : Nat) : Int) = (Std.Time.Month.Ordinal.days leap ⟨2, h⟩).val := by
    cases leap <;> rfl
  rw [← isLeapYear_toInt]
  rcases hmonth with rfl | rfl | rfl | rfl | rfl | rfl | rfl | rfl | rfl | rfl | rfl | rfl <;>
    first | rfl | exact hfebruary _ _

theorem month_of_daysInMonth (h : 0 < daysInMonth year month) : 1 ≤ month ∧ month ≤ 12 := by
  unfold daysInMonth at h
  split at h <;> simp_all

theorem daysInMonth_le : daysInMonth year month ≤ 31 := by
  unfold daysInMonth
  split <;> first | decide | (split <;> decide)

/-- **The days of the calendar are those of the standard library**, in the years there are. -/
theorem isCalendarDay_iff : IsCalendarDay year month day ↔
    IsGregorian year month day ∧ -262143 ≤ year ∧ year ≤ 262142 := by
  constructor
  · rintro ⟨hleast, hmost, hfirst, hlast⟩
    have hmonth := month_of_daysInMonth (Nat.lt_of_lt_of_le hfirst hlast)
    have hday : day ≤ 31 := Nat.le_trans hlast daysInMonth_le
    let m : Std.Time.Month.Ordinal := ⟨month, by omega, by omega⟩
    have hvalid : (day : Int) ≤ (m.days (Std.Time.Year.Offset.isLeap year)).val := by
      rw [← daysInMonth_toInt]
      exact Int.ofNat_le.mpr hlast
    exact ⟨⟨⟨year, m, ⟨day, by omega, by omega⟩, hvalid⟩, rfl, rfl, rfl⟩, hleast, hmost⟩
  · rintro ⟨⟨date, rfl, hmonth, hday⟩, hleast, hmost⟩
    have hfirst : 1 ≤ date.day.val := date.day.property.1
    have hlast : date.day.val ≤ (date.month.days date.year.isLeap).val := date.valid
    rw [← daysInMonth_toInt, hmonth, hday, Int.toNat_natCast] at hlast
    exact ⟨hleast, hmost, by omega, by omega⟩

/-! ## What a text names -/

/-- The text is a date, and these are its numbers: a month and a day in one or two digits, in front
of them a year in four, or else the default year. -/
inductive Names (defaultYear : Int) : List Char → Int → Nat → Nat → Prop
  /-- With its year. -/
  | full {year month day : List Char} {a b : Char} : year ∈ yearText → month ∈ dayText →
    day ∈ dayText → isDateSign a → isDateSign b →
    Names defaultYear (year ++ a :: (month ++ b :: day)) (ofDigits year) (ofDigits month)
      (ofDigits day)
  /-- In the default year. -/
  | short {month day : List Char} {b : Char} : month ∈ dayText → day ∈ dayText → isDateSign b →
    Names defaultYear (month ++ b :: day) defaultYear (ofDigits month) (ofDigits day)

/-- What is a date names something. -/
theorem exists_names (h : cs ∈ dateText) (defaultYear : Int) :
    ∃ year month day, Names defaultYear cs year month day := by
  rcases exists_of_mem_dateText h with
    ⟨year, a, month, b, day, rfl, hyear, hmonth, hday, ha, hb⟩ |
    ⟨month, b, day, rfl, hmonth, hday, hb⟩
  · exact ⟨_, _, _, .full hyear hmonth hday ha hb⟩
  · exact ⟨_, _, _, .short hmonth hday hb⟩

/-- What names something is a date, and its fields are looked up. -/
theorem Names.isDateFields (h : Names defaultYear cs year month day) :
    isDateFields (fields isDateSign cs) ∧
      ofFields? defaultYear (fields isDateSign cs) = of? year month day := by
  cases h with
  | full hyear hmonth hday ha hb =>
    refine ⟨isDateFields_full hyear hmonth hday ha hb, ?_⟩
    rw [fields_full hyear.2 hmonth.2 hday.2 ha hb, ofFields?]
  | short hmonth hday hb =>
    refine ⟨isDateFields_short hmonth hday hb, ?_⟩
    rw [fields_short hmonth.2 hday.2 hb, ofFields?]

/-- A date that is named is looked up. -/
theorem resolve_of_names (h : Names defaultYear text.toList year month day) :
    resolve text defaultYear = (of? year month day).elim (.error .noSuchDay) .ok := by
  obtain ⟨hshape, hfields⟩ := h.isDateFields
  simp only [resolve, hshape, hfields, if_true]
  cases of? year month day <;> rfl

/-- What is no date is refused for its shape. -/
theorem resolve_of_notMem (h : text.toList ∉ dateText) :
    resolve text defaultYear = .error .shape := by
  rw [resolve_eq_error_shape_iff]
  rw [mem_dateText_iff] at h
  simpa using h

theorem of?_eq_some_iff {date : Date} : of? year month day = some date ↔
    date.year = year ∧ date.month = month ∧ date.day = day := by
  constructor
  · intro h
    unfold of? at h
    split at h
    · cases h
      exact ⟨rfl, rfl, rfl⟩
    · cases h
  · rintro ⟨rfl, rfl, rfl⟩
    exact dif_pos date.isCalendarDay

/-- **A text resolves to the day that it names.** -/
theorem resolve_eq_ok_iff {date : Date} : resolve text defaultYear = .ok date ↔
    Names defaultYear text.toList date.year date.month date.day := by
  constructor
  · intro h
    by_cases hdate : text.toList ∈ dateText
    · obtain ⟨year, month, day, hnames⟩ := exists_names hdate defaultYear
      rw [resolve_of_names hnames] at h
      cases hday : of? year month day with
      | none => simp [hday] at h
      | some found =>
        rw [hday] at h
        obtain rfl := Except.ok.inj h
        obtain ⟨rfl, rfl, rfl⟩ := of?_eq_some_iff.mp hday
        exact hnames
    · rw [resolve_of_notMem hdate] at h
      cases h
  · intro h
    rw [resolve_of_names h, of?_eq_some_iff.mpr ⟨rfl, rfl, rfl⟩]
    rfl

/-! ## What is written for a day -/

theorem padded_mem_dayText {width n : Nat} (hwidth : width = 1 ∨ width = 2) (hn : n < 100) :
    padded width n ∈ dayText := by
  have hleast := length_padded_le width n
  have hdigits : (Nat.toDigits 10 n).length ≤ 2 :=
    (Nat.length_toDigits_le_iff (by decide) (by decide)).mpr hn
  have hmost : (padded width n).length ≤ 2 := by
    rw [padded, List.length_leftpad]
    omega
  exact ⟨by omega, fun _ => isDigit_of_mem_padded⟩

theorem padded_mem_yearText {n : Nat} (hn : n < 10000) : padded 4 n ∈ yearText := by
  have hdigits : (Nat.toDigits 10 n).length ≤ 4 :=
    (Nat.length_toDigits_le_iff (by decide) (by decide)).mpr hn
  refine ⟨?_, fun _ => isDigit_of_mem_padded⟩
  rw [padded, List.length_leftpad]
  omega

/-- **Resolving a date is reading its numbers and looking them up in the calendar.** The other way
round, every date with a year of four digits is named by that year and by its month and its day,
each with or without a zero in front, whatever the signs between them and the default year. -/
theorem resolve_gregorian :
    (∀ (text : String) (defaultYear year : Int) (month day : Nat),
      (∃ date, resolve text defaultYear = .ok date ∧
        date.year = year ∧ date.month = month ∧ date.day = day) ↔
      Names defaultYear text.toList year month day ∧ IsGregorian year month day ∧
        -262143 ≤ year ∧ year ≤ 262142) ∧
    (∀ (year month day : Nat) (a b : Char) (monthWidth dayWidth : Nat) (defaultYear : Int),
      IsGregorian year month day → year ≤ 9999 → isDateSign a → isDateSign b →
      monthWidth = 1 ∨ monthWidth = 2 → dayWidth = 1 ∨ dayWidth = 2 →
      ∃ date, resolve (String.ofList (padded 4 year ++
          a :: (padded monthWidth month ++ b :: padded dayWidth day))) defaultYear = .ok date ∧
        date.year = year ∧ date.month = month ∧ date.day = day) := by
  constructor
  · intro text defaultYear year month day
    constructor
    · rintro ⟨date, hdate, rfl, rfl, rfl⟩
      exact ⟨resolve_eq_ok_iff.mp hdate, isCalendarDay_iff.mp date.isCalendarDay⟩
    · rintro ⟨hnames, hgregorian⟩
      exact ⟨⟨year, month, day, isCalendarDay_iff.mpr hgregorian⟩, resolve_eq_ok_iff.mpr hnames,
        rfl, rfl, rfl⟩
  · intro year month day a b monthWidth dayWidth defaultYear hgregorian hyear ha hb hmonth hday
    have hexists : IsCalendarDay year month day :=
      isCalendarDay_iff.mpr ⟨hgregorian, by omega, by omega⟩
    have hdays := Nat.lt_of_lt_of_le hexists.2.2.1 hexists.2.2.2
    have hmonths := month_of_daysInMonth hdays
    have hlast : day ≤ 31 := Nat.le_trans hexists.2.2.2 daysInMonth_le
    refine ⟨⟨year, month, day, hexists⟩, resolve_eq_ok_iff.mpr ?_, rfl, rfl, rfl⟩
    have hnames : Names defaultYear _ _ _ _ := .full (padded_mem_yearText (n := year) (by omega))
      (padded_mem_dayText (n := month) hmonth (by omega))
      (padded_mem_dayText (n := day) hday (by omega)) ha hb
    simpa only [ofDigits_padded, String.toList_ofList] using hnames

/-- The leap day of the year 2000, in digits of two sorts and with two signs. -/
theorem resolve_leap_day :
    (∃ date, resolve "2000/2.29" 1999 = .ok date ∧
      date.year = 2000 ∧ date.month = 2 ∧ date.day = 29) ∧ IsGregorian 2000 2 29 := by
  have hday : IsGregorian 2000 2 29 := (isCalendarDay_iff.mp (by decide)).1
  exact ⟨resolve_gregorian.2 2000 2 29 '/' '.' 1 2 1999 hday (by decide) rfl rfl (.inl rfl)
    (.inr rfl), hday⟩

/-! ## Field by field -/

/-- What can go wrong with a date whose fields are read one after the other. -/
inductive StepFault
  /-- It is not written as a date. -/
  | shape
  /-- The year is not a number within bounds. -/
  | year
  /-- The month is not a number within bounds. -/
  | month
  /-- The day is not a number within bounds. -/
  | day
  /-- There is no such day. -/
  | noSuchDay
deriving DecidableEq, Repr

/-- The step at which a date fails. -/
def StepFault.ofFault : DateFault → StepFault
  | .shape => shape
  | .noSuchDay => noSuchDay

/-- At least one digit and nothing else, in so many bytes at most. -/
def isNumberField (bytes : Nat) (field : List Char) : Bool :=
  !field.isEmpty && byteLength field ≤ bytes && field.all Char.isDigit

/-- The number that digits spell, if it is no greater than this. -/
def numberUpTo? (limit : Nat) (field : List Char) : Option Nat :=
  if !field.isEmpty && field.all Char.isDigit && ofDigits field ≤ limit then some (ofDigits field)
  else none

/-- The number of a field, or else this fault. -/
def readNumber (fault : StepFault) (limit : Nat) (field : List Char) : Except StepFault Nat :=
  (numberUpTo? limit field).elim (.error fault) .ok

/-- The month and the day of a year that is known. -/
def resolveInYear (year : Int) (month day : List Char) : Except StepFault Date := do
  if isNumberField 2 month && isNumberField 2 day then
    let month ← readNumber .month (2 ^ 32 - 1) month
    let day ← readNumber .day (2 ^ 32 - 1) day
    (of? year month day).elim (.error .noSuchDay) .ok
  else .error .shape

/-- The day that a text names, where a missing year is this one, with its fields read one after the
other: the year as a signed number of 32 bits, the month and the day as unsigned ones. -/
def resolveInSteps (text : String) (defaultYear : Int) : Except StepFault Date :=
  match fields isDateSign text.toList with
  | [year, month, day] =>
    if byteLength year = 4 && isNumberField 4 year then do
      let year ← readNumber .year (2 ^ 31 - 1) year
      resolveInYear year month day
    else .error .shape
  | [month, day] => resolveInYear defaultYear month day
  | _ => .error .shape

/-- So many digits spell a number below that power of ten. -/
theorem ofDigits_lt {cs : List Char} (h : ∀ c ∈ cs, c.isDigit) : ofDigits cs < tenTo cs.length := by
  induction cs using List.reverseRecOn with
  | nil => exact Nat.one_pos
  | append_singleton cs c ih =>
    have hlast := digitValue_le (h c (List.mem_append_right cs List.mem_cons_self))
    have hfront := ih fun d hd => h d (List.mem_append_left [c] hd)
    rw [ofDigits_append_singleton, List.length_append, List.length_singleton, tenTo_succ]
    omega

theorem byteLength_of_isDigit (h : ∀ c ∈ cs, c.isDigit) : byteLength cs = cs.length :=
  byteLength_eq_length fun c hc => utf8Size_of_isDigit (h c hc)

theorem isNumberField_iff {bytes : Nat} : isNumberField bytes cs ↔
    1 ≤ cs.length ∧ cs.length ≤ bytes ∧ ∀ c ∈ cs, c.isDigit := by
  have hpos : cs.isEmpty = false ↔ 1 ≤ cs.length := by cases cs <;> simp
  simp only [isNumberField, Bool.and_eq_true, Bool.not_eq_true', hpos, decide_eq_true_eq,
    List.all_eq_true, and_assoc]
  exact and_congr_right fun _ => and_congr_left fun hdigits => by
    rw [byteLength_of_isDigit hdigits]

/-- Four bytes that are digits are a year. -/
theorem isYearField_eq : (byteLength cs = 4 && isNumberField 4 cs) = isYearField cs := by
  rw [Bool.eq_iff_iff, isYearField_iff, Bool.and_eq_true, decide_eq_true_eq, isNumberField_iff]
  constructor
  · rintro ⟨hlength, -, -, hdigits⟩
    exact ⟨byteLength_of_isDigit hdigits ▸ hlength, hdigits⟩
  · rintro ⟨hlength, hdigits⟩
    exact ⟨by rw [byteLength_of_isDigit hdigits, hlength], by omega, by omega, hdigits⟩

theorem isDayField_eq : isNumberField 2 cs = isDayField cs := by
  rw [Bool.eq_iff_iff, isDayField_iff, isNumberField_iff]
  constructor
  · rintro ⟨hpos, hle, hdigits⟩
    exact ⟨by omega, hdigits⟩
  · rintro ⟨hlength, hdigits⟩
    exact ⟨by omega, by omega, hdigits⟩

/-- **A field of digits is always a number within bounds.** -/
theorem readNumber_eq_ok {fault : StepFault} {limit bytes : Nat} (h : isNumberField bytes cs)
    (hlimit : tenTo bytes ≤ limit) : readNumber fault limit cs = .ok (ofDigits cs) := by
  obtain ⟨hpos, hle, hdigits⟩ := isNumberField_iff.mp h
  have hlt := ofDigits_lt hdigits
  have hmono : tenTo cs.length ≤ tenTo bytes := by
    obtain ⟨more, rfl⟩ := Nat.exists_eq_add_of_le hle
    rw [tenTo_add]
    exact Nat.le_mul_of_pos_right _ (tenTo_pos more)
  have hnumber : numberUpTo? limit cs = some (ofDigits cs) := by
    have hsome : cs.isEmpty = false := by cases cs <;> simp_all
    have hall : cs.all Char.isDigit := List.all_eq_true.mpr hdigits
    have hbound : ofDigits cs ≤ limit := by omega
    simp [numberUpTo?, hsome, hall, hbound]
  rw [readNumber, hnumber]
  rfl

/-- A month and a day are looked up if they are fields of the right shape. -/
theorem resolveInYear_eq {month day : List Char} : resolveInYear year month day =
    Except.mapError StepFault.ofFault
      (if isDayField month && isDayField day then
        match of? year (ofDigits month) (ofDigits day) with
        | some date => .ok date
        | none => .error .noSuchDay
      else .error .shape) := by
  unfold resolveInYear
  rw [isDayField_eq, isDayField_eq]
  split
  · next h =>
    simp only [Bool.and_eq_true, ← isDayField_eq] at h
    rw [readNumber_eq_ok h.1 (by decide), readNumber_eq_ok h.2 (by decide)]
    show (of? year (ofDigits month) (ofDigits day)).elim _ _ = _
    cases of? year (ofDigits month) (ofDigits day) <;> rfl
  · rfl

/-- **Only the shape and the day can be wrong**: a year, a month or a day is never out of bounds. -/
theorem resolveInSteps_eq (text : String) (defaultYear : Int) :
    resolveInSteps text defaultYear = (resolve text defaultYear).mapError .ofFault := by
  unfold resolveInSteps resolve
  generalize fields isDateSign text.toList = parts
  simp only
  split
  · next year month day =>
    rw [isYearField_eq]
    simp only [isDateFields, ofFields?]
    by_cases hyear : isYearField year
    · have hnumber : isNumberField 4 year := by
        rw [← isYearField_eq, Bool.and_eq_true] at hyear
        exact hyear.2
      rw [readNumber_eq_ok hnumber (show tenTo 4 ≤ 2 ^ 31 - 1 by decide)]
      simp only [hyear, if_true, Bool.true_and]
      exact resolveInYear_eq
    · simp only [hyear, Bool.false_eq_true, if_false, Bool.false_and]
      rfl
  · exact resolveInYear_eq
  · next hfull hshort =>
    have hnone : isDateFields parts = false := by
      unfold isDateFields
      split
      · exact absurd rfl (hfull _ _ _)
      · exact absurd rfl (hshort _ _)
      · rfl
    simp only [hnone, Bool.false_eq_true, if_false]
    rfl

end Daybook.Date
