import Daybook.Proofs.Lexeme.Language
import Daybook.Text.Place

/-!
# Two ways to find a date

A date is found by its whole run of digits and signs, which has the shape of one or has not. It can
be found part by part too, with no run in hand: some digits, then up to twice a sign and one or two
digits more. A sign that is not followed by such digits ends the search at once, and a digit or a
sign behind the last part undoes it. Both ways find the same. The first way is that of the model,
the second that of `date_len`.

* `scanParts n cs`: up to `n` parts in front, how many there are and how many characters they take.
* `scanDate? cs`: the length of a date found part by part.

Results:
* `mem_dateText_iff`: the language of dates is that of the texts whose fields are date fields.
* `dateLength?_eq_some_iff_takes`: what is found by its run is a date with nothing of one behind it.
* `scanDate?_eq_dateLength?`: **part by part and by its run the same date is found.**
-/

namespace Daybook.Lexeme

open Text

variable {a b c : Char} {n m : Nat} {cs text ahead year month day field : List Char}

/-! ## Written dates -/

theorem isDateSign_of_isDigit (h : c.isDigit) : isDateSign c = false := by
  by_contra hsign
  simp only [isDateSign, Bool.not_eq_false, Bool.or_eq_true, decide_eq_true_eq] at hsign
  rcases hsign with (rfl | rfl) | rfl <;> exact absurd h (by decide)

theorem isDigit_of_isDateSign (h : isDateSign c) : c.isDigit = false := by
  by_contra hdigit
  exact absurd (isDateSign_of_isDigit (by simpa using hdigit)) (by simp [h])

theorem utf8Size_of_isDigit (h : c.isDigit) : c.utf8Size = 1 := by
  simp only [Char.isDigit, Bool.and_eq_true, decide_eq_true_eq] at h
  exact Char.utf8Size_eq_one_iff.mpr (UInt32.le_trans h.2 (by decide))

theorem isDateChar_eq_false_iff :
    isDateChar c = false ↔ c.isDigit = false ∧ isDateSign c = false := by
  simp [isDateChar]

theorem isYearField_iff : isYearField field ↔ field ∈ yearText := by
  refine ⟨mem_yearText, fun ⟨hlength, hdigits⟩ => ?_⟩
  simpa [isYearField] using ⟨hlength, hdigits⟩

theorem isDayField_iff : isDayField field ↔ field ∈ dayText := by
  refine ⟨mem_dayText, fun ⟨hlength, hdigits⟩ => ?_⟩
  simpa [isDayField] using ⟨hlength, hdigits⟩

/-- The fields of a date with a year. -/
theorem fields_full (hyear : ∀ c ∈ year, c.isDigit) (hmonth : ∀ c ∈ month, c.isDigit)
    (hday : ∀ c ∈ day, c.isDigit) (ha : isDateSign a) (hb : isDateSign b) :
    fields isDateSign (year ++ a :: (month ++ b :: day)) = [year, month, day] := by
  rw [fields_append_cons (fun c hc => isDateSign_of_isDigit (hyear c hc)) ha,
    fields_append_cons (fun c hc => isDateSign_of_isDigit (hmonth c hc)) hb,
    fields_of_forall fun c hc => isDateSign_of_isDigit (hday c hc)]

/-- The fields of a date without a year. -/
theorem fields_short (hmonth : ∀ c ∈ month, c.isDigit) (hday : ∀ c ∈ day, c.isDigit)
    (hb : isDateSign b) : fields isDateSign (month ++ b :: day) = [month, day] := by
  rw [fields_append_cons (fun c hc => isDateSign_of_isDigit (hmonth c hc)) hb,
    fields_of_forall fun c hc => isDateSign_of_isDigit (hday c hc)]

theorem isDateFields_full (hyear : year ∈ yearText) (hmonth : month ∈ dayText)
    (hday : day ∈ dayText) (ha : isDateSign a) (hb : isDateSign b) :
    isDateFields (fields isDateSign (year ++ a :: (month ++ b :: day))) := by
  rw [fields_full hyear.2 hmonth.2 hday.2 ha hb]
  simp [isDateFields, isYearField_iff.mpr hyear, isDayField_iff.mpr hmonth,
    isDayField_iff.mpr hday]

theorem isDateFields_short (hmonth : month ∈ dayText) (hday : day ∈ dayText)
    (hb : isDateSign b) : isDateFields (fields isDateSign (month ++ b :: day)) := by
  rw [fields_short hmonth.2 hday.2 hb]
  simp [isDateFields, isDayField_iff.mpr hmonth, isDayField_iff.mpr hday]

/-- A date has a year in front, or it has none. -/
theorem exists_of_mem_dateText (h : text ∈ dateText) :
    (∃ year a month b day, text = year ++ a :: (month ++ b :: day) ∧ year ∈ yearText ∧
      month ∈ dayText ∧ day ∈ dayText ∧ isDateSign a ∧ isDateSign b) ∨
    ∃ month b day, text = month ++ b :: day ∧ month ∈ dayText ∧ day ∈ dayText ∧ isDateSign b := by
  obtain ⟨_, ⟨_, ⟨front, hfront, month, hmonth, rfl⟩, _, ⟨b, hb, rfl⟩, rfl⟩, day, hday, rfl⟩ := h
  rcases hfront with rfl | ⟨year, hyear, _, ⟨a, ha, rfl⟩, rfl⟩
  · exact .inr ⟨month, b, day, by simp, hmonth, hday, hb⟩
  · exact .inl ⟨year, a, month, b, day, by simp, hyear, hmonth, hday, ha, hb⟩

/-- **The language of dates is that of the texts whose fields are date fields.** -/
theorem mem_dateText_iff : text ∈ dateText ↔ isDateFields (fields isDateSign text) := by
  refine ⟨fun h => ?_, mem_dateText⟩
  rcases exists_of_mem_dateText h with
    ⟨year, a, month, b, day, rfl, hyear, hmonth, hday, ha, hb⟩ |
    ⟨month, b, day, rfl, hmonth, hday, hb⟩
  · exact isDateFields_full hyear hmonth hday ha hb
  · exact isDateFields_short hmonth hday hb

theorem isDateChar_of_mem_dateText (h : text ∈ dateText) : ∀ c ∈ text, isDateChar c := by
  have hdigit {c : Char} (hc : c.isDigit) : isDateChar c := by simp [isDateChar, hc]
  have hsign {c : Char} (hc : isDateSign c) : isDateChar c := by simp [isDateChar, hc]
  intro c hc
  rcases exists_of_mem_dateText h with
    ⟨year, a, month, b, day, rfl, hyear, hmonth, hday, ha, hb⟩ |
    ⟨month, b, day, rfl, hmonth, hday, hb⟩
  · simp only [List.mem_append, List.mem_cons] at hc
    rcases hc with hc | rfl | hc | rfl | hc
    exacts [hdigit (hyear.2 c hc), hsign ha, hdigit (hmonth.2 c hc), hsign hb,
      hdigit (hday.2 c hc)]
  · simp only [List.mem_append, List.mem_cons] at hc
    rcases hc with hc | rfl | hc
    exacts [hdigit (hmonth.2 c hc), hsign hb, hdigit (hday.2 c hc)]

/-- A date takes a byte a character. -/
theorem byteLength_of_mem_dateText (h : text ∈ dateText) : byteLength text = text.length := by
  refine byteLength_eq_length fun c hc => ?_
  have hchar := isDateChar_of_mem_dateText h c hc
  simp only [isDateChar, Bool.or_eq_true, isDateSign, decide_eq_true_eq] at hchar
  rcases hchar with hdigit | (rfl | rfl) | rfl
  · exact utf8Size_of_isDigit hdigit
  all_goals rfl

/-! ## By the run -/

/-- **What is found by its run is a date with nothing of one behind it.** -/
theorem dateLength?_eq_some_iff_takes : dateLength? cs = some n ↔
    Takes dateText (fun ahead => ∀ c ∈ ahead.head?, isDateChar c = false) n cs := by
  refine ⟨takes_dateLength?, ?_⟩
  rintro ⟨text, ahead, rfl, htext, hahead, rfl⟩
  have hrun : dateRun (text ++ ahead) = text :=
    takeWhile_stops (isDateChar_of_mem_dateText htext) hahead
  rw [dateLength?_eq_some_iff, hrun]
  exact ⟨mem_dateText_iff.mp htext, rfl⟩

/-! ## Part by part -/

/-- Up to so many parts in front, each a sign and one or two digits: how many there are, and how
many characters they take. Nothing if a sign is followed by no digit or by more of them. -/
def scanParts : Nat → List Char → Option (Nat × Nat)
  | 0, _ => some (0, 0)
  | _ + 1, [] => some (0, 0)
  | n + 1, c :: cs =>
    if isDateSign c then
      let run := digitRun cs
      if run.length = 0 || 2 < run.length then none
      else (scanParts n (cs.drop run.length)).map fun (parts, length) =>
        (parts + 1, length + (run.length + 1))
    else some (0, 0)

/-- So many digits may stand in front of so many parts: four of a year, or one or two of a month. -/
def fitsParts (first : Nat) : Nat → Bool
  | 2 => first = 4
  | 1 => first ≤ 2
  | _ => false

/-- The length of the date at the front, found part by part. -/
def scanDate? (cs : List Char) : Option Nat :=
  let first := (digitRun cs).length
  if first = 0 || 4 < first then none
  else
    match scanParts 2 (cs.drop first) with
    | none => none
    | some (parts, more) =>
      let continues := (cs.drop (first + more)).head?.any isDateChar
      if fitsParts first parts && !continues then some (first + more) else none

theorem digitRun_append (hfield : ∀ c ∈ field, c.isDigit)
    (hahead : ∀ c ∈ ahead.head?, c.isDigit = false) : digitRun (field ++ ahead) = field :=
  takeWhile_stops hfield hahead

/-- There is no part where there is no sign. -/
theorem scanParts_of_head (hahead : ∀ c ∈ ahead.head?, isDateSign c = false) :
    ∀ n, scanParts n ahead = some (0, 0)
  | 0 => rfl
  | n + 1 => by
    cases ahead with
    | nil => rfl
    | cons c cs => simp [scanParts, hahead c rfl]

/-- One part in front of the others. -/
theorem scanParts_cons (hc : isDateSign c) (hfield : field ∈ dayText)
    (hahead : ∀ d ∈ ahead.head?, d.isDigit = false) :
    scanParts (n + 1) (c :: (field ++ ahead)) =
      (scanParts n ahead).map fun (parts, length) =>
        (parts + 1, length + (field.length + 1)) := by
  obtain ⟨hlength, hdigits⟩ := hfield
  have hfits : (field.length = 0 || 2 < field.length) = false := by
    simp only [Bool.or_eq_false_iff, decide_eq_false_iff_not]
    omega
  simp only [scanParts, if_pos hc, digitRun_append hdigits hahead, hfits, Bool.false_eq_true,
    if_false, List.drop_left]

/-- So many parts, each a sign and one or two digits. -/
inductive Parts : Nat → List Char → Prop
  /-- None. -/
  | nil : Parts 0 []
  /-- One more. -/
  | cons {n : Nat} {c : Char} {field cs : List Char} :
    isDateSign c → field ∈ dayText → Parts n cs → Parts (n + 1) (c :: (field ++ cs))

/-- What is found are parts. -/
theorem exists_of_scanParts {parts : Nat} (h : scanParts n cs = some (parts, m)) :
    ∃ text ahead, cs = text ++ ahead ∧ Parts parts text ∧ text.length = m := by
  have hnone {cs : List Char} {parts m : Nat} (heq : some (0, 0) = some (parts, m)) :
      ∃ text ahead, cs = text ++ ahead ∧ Parts parts text ∧ text.length = m := by
    cases heq
    exact ⟨[], cs, rfl, .nil, rfl⟩
  induction n generalizing cs parts m with
  | zero => exact hnone h
  | succ n ih =>
    cases cs with
    | nil => exact hnone h
    | cons c cs =>
      rw [scanParts] at h
      split at h
      · next hsign =>
        simp only at h
        split at h
        · cases h
        · next hrun =>
          simp only [Bool.or_eq_true, decide_eq_true_eq] at hrun
          have hfield : digitRun cs ∈ dayText :=
            ⟨by omega, fun _ => List.mem_takeWhile_imp⟩
          have hfront : digitRun cs ++ cs.drop (digitRun cs).length = cs :=
            List.prefix_iff_eq_append.mp (List.takeWhile_prefix _)
          obtain ⟨⟨more, length⟩, hmore, heq⟩ := Option.map_eq_some_iff.mp h
          obtain ⟨rfl, rfl⟩ := Prod.mk.inj heq
          obtain ⟨text, ahead, hdrop, hparts, rfl⟩ := ih hmore
          refine ⟨c :: (digitRun cs ++ text), ahead, ?_, .cons hsign hfield hparts, ?_⟩
          · rw [List.cons_append, List.append_assoc, ← hdrop, hfront]
          · simp only [List.length_cons, List.length_append]
            omega
      · exact hnone h

/-- One part makes a month and a day; two of them have a year in front. -/
theorem mem_dateText_of_parts {first : List Char} {parts : Nat}
    (hdigits : ∀ c ∈ first, c.isDigit) (hpos : 0 < first.length)
    (hfits : fitsParts first.length parts) (h : Parts parts text) : first ++ text ∈ dateText := by
  rw [mem_dateText_iff]
  cases h with
  | nil => cases hfits
  | cons hb hday hmore =>
    cases hmore with
    | nil =>
      have hlength : first.length ≤ 2 := of_decide_eq_true hfits
      rw [List.append_nil]
      exact isDateFields_short ⟨by omega, hdigits⟩ hday hb
    | cons hc hfield hlast =>
      cases hlast with
      | nil =>
        have hlength : first.length = 4 := of_decide_eq_true hfits
        rw [List.append_nil]
        exact isDateFields_full ⟨hlength, hdigits⟩ hday hfield hb hc
      | cons => cases hfits

/-- A date that is found part by part is a date with nothing of one behind it. -/
theorem takes_scanDate? (h : scanDate? cs = some n) :
    Takes dateText (fun ahead => ∀ c ∈ ahead.head?, isDateChar c = false) n cs := by
  have hdigits : ∀ c ∈ digitRun cs, c.isDigit := fun _ => List.mem_takeWhile_imp
  have hfront : digitRun cs ++ cs.drop (digitRun cs).length = cs :=
    List.prefix_iff_eq_append.mp (List.takeWhile_prefix _)
  unfold scanDate? at h
  simp only at h
  split at h
  · cases h
  · next hfirst =>
    simp only [Bool.or_eq_true, decide_eq_true_eq] at hfirst
    split at h
    · cases h
    · next parts more hscan =>
      obtain ⟨text, ahead, hdrop, hparts, rfl⟩ := exists_of_scanParts hscan
      generalize digitRun cs = first at hfirst hdigits hfront hdrop h
      obtain rfl : cs = first ++ text ++ ahead := by rw [List.append_assoc, ← hdrop, hfront]
      rw [← List.length_append, List.drop_left] at h
      split at h
      · next hfits =>
        obtain rfl := Option.some.inj h
        simp only [Bool.and_eq_true, Bool.not_eq_true'] at hfits
        refine .intro (mem_dateText_of_parts hdigits (by omega) hfits.1 hparts) fun c hc => ?_
        rw [Option.mem_def.mp hc] at hfits
        exact hfits.2
      · cases h

/-- Some digits and the parts behind them are found. -/
theorem scanDate?_append {first : List Char} {parts : Nat} (hdigits : ∀ c ∈ first, c.isDigit)
    (hpos : 0 < first.length) (hfits : fitsParts first.length parts)
    (hnodigit : ∀ c ∈ (text ++ ahead).head?, c.isDigit = false)
    (hscan : scanParts 2 (text ++ ahead) = some (parts, text.length))
    (hahead : ∀ c ∈ ahead.head?, isDateChar c = false) :
    scanDate? (first ++ text ++ ahead) = some (first ++ text).length := by
  have hlength : first.length ≤ 4 := by
    unfold fitsParts at hfits
    split at hfits <;> simp at hfits <;> omega
  have hfirst : (first.length = 0 || 4 < first.length) = false := by
    simp only [Bool.or_eq_false_iff, decide_eq_false_iff_not]
    omega
  have hends : ahead.head?.any isDateChar = false := by
    cases ahead with
    | nil => rfl
    | cons c cs => exact hahead c rfl
  have hrun : digitRun (first ++ text ++ ahead) = first := by
    rw [List.append_assoc]
    exact digitRun_append hdigits hnodigit
  have hdrop : (first ++ text ++ ahead).drop first.length = text ++ ahead := by
    rw [List.append_assoc, List.drop_left]
  simp only [scanDate?, hrun, hfirst, hdrop, hscan, Bool.false_eq_true, if_false]
  rw [← List.length_append, List.drop_left, hends, hfits]
  rfl

/-- **Part by part and by its run the same date is found.** -/
theorem scanDate?_eq_dateLength? (cs : List Char) : scanDate? cs = dateLength? cs := by
  refine Option.ext fun n => ⟨fun h => ?_, fun h => ?_⟩
  · exact dateLength?_eq_some_iff_takes.mpr (takes_scanDate? h)
  · obtain ⟨text, ahead, rfl, htext, hahead, rfl⟩ := dateLength?_eq_some_iff_takes.mp h
    have hdigit : ∀ c ∈ ahead.head?, c.isDigit = false := fun c hc =>
      (isDateChar_eq_false_iff.mp (hahead c hc)).1
    have hsign : ∀ c ∈ ahead.head?, isDateSign c = false := fun c hc =>
      (isDateChar_eq_false_iff.mp (hahead c hc)).2
    rcases exists_of_mem_dateText htext with
      ⟨year, a, month, b, day, rfl, hyear, hmonth, hday, ha, hb⟩ |
      ⟨month, b, day, rfl, hmonth, hday, hb⟩
    · have hscan : scanParts 2 (a :: (month ++ b :: day) ++ ahead) =
          some (2, (a :: (month ++ b :: day)).length) := by
        have hnext : ∀ d ∈ (b :: (day ++ ahead)).head?, d.isDigit = false := by
          rintro _ ⟨⟩
          exact isDigit_of_isDateSign hb
        rw [List.cons_append, List.append_assoc, List.cons_append, scanParts_cons ha hmonth hnext,
          scanParts_cons hb hday hdigit, scanParts]
        simp
        omega
      refine scanDate?_append hyear.2 (by have := hyear.1; omega)
        (show fitsParts _ 2 from decide_eq_true hyear.1) ?_ hscan hahead
      rintro _ ⟨⟩
      exact isDigit_of_isDateSign ha
    · have hscan : scanParts 2 (b :: day ++ ahead) = some (1, (b :: day).length) := by
        rw [List.cons_append, scanParts_cons hb hday hdigit, scanParts_of_head hsign]
        simp
      have hlength : month.length ≤ 2 := by have := hmonth.1; omega
      refine scanDate?_append hmonth.2 (by have := hmonth.1; omega)
        (show fitsParts _ 1 from decide_eq_true hlength) ?_ hscan hahead
      rintro _ ⟨⟩
      exact isDigit_of_isDateSign hb

end Daybook.Lexeme
