import Daybook.Proofs.Journal.Calendar
import Daybook.Proofs.Reading.Refused
import Daybook.Proofs.Token.Spelled

/-!
# The dates of a source

The tokenizer takes a date for its shape, and the same shape is asked for when the date is resolved.
So nothing that was read as a date, in a transaction or in a price, can fail for anything but the
want of such a day. About `date_len` and `resolve_date`, which test the shape each in its own way
([SPEC 4.4]).

* `Date.IsResolvable text defaultYear`: the text resolves to a day, or there is no such day, and
  nothing else is wrong.

Results:
* `isResolvable_iff`: a text is resolvable exactly if it is in the language of dates.
* `exists_date_of_readJournal`: the text for which a journal is refused is a date of its source.
* `date_shapes_agree`: **what is found as a date is what can be resolved**, and a date of a source
  fails only for want of a day.
-/

namespace Daybook

open Daybook.Tree Lexeme Text

variable {source : String} {year : Int} {fault : DateFault}

/-! ## Texts that can be resolved -/

/-- The text resolves to a day, or there is no such day; nothing else is wrong. -/
def Date.IsResolvable (text : String) (defaultYear : Int) : Prop :=
  (∃ date, resolveInSteps text defaultYear = .ok date) ∨
    resolveInSteps text defaultYear = .error .noSuchDay

/-- **A text is resolvable exactly if it is in the language of dates**, whatever the default year.
-/
theorem Date.isResolvable_iff {text : String} {defaultYear : Int} :
    IsResolvable text defaultYear ↔ text.toList ∈ dateText := by
  unfold IsResolvable
  rw [resolveInSteps_eq]
  constructor
  · intro h
    by_contra hdate
    rw [resolve_of_notMem hdate] at h
    rcases h with ⟨date, hok⟩ | hnone
    · cases hok
    · cases hnone
  · intro h
    obtain ⟨year, month, day, hnames⟩ := exists_names h defaultYear
    rw [resolve_of_names hnames]
    cases of? year month day with
    | none => exact .inr rfl
    | some date => exact .inl ⟨date, rfl⟩

/-! ## Dates of items -/

/-- The token is this date. -/
def SaysDate (us : List Token) (text : String) : Prop :=
  ∃ t : Token, us = [t] ∧ t.kind = .date ∧ t.image = text

theorem tells_date (t : Token) : Tells SaysDate (spellKind .date t) [t.image] :=
  tells_singleton fun _ h => ⟨t, (mem_spellKind.mp h).1, (mem_spellKind.mp h).2, rfl⟩

/-- **The tokens that spell an item tell its dates.** -/
theorem tells_dates {x : Tree.Item} {v : Written.Item} (h : Written.Item.ofTree x = .ok v) :
    Tells SaysDate x.spellings v.dates := by
  cases x with
  | transaction t =>
    cases h
    have hsecond : Tells SaysDate (spellOption SecondDate.spellings t.secondDate)
        (t.secondDate.toList.flatMap fun d => [d.date.image]) :=
      tells_option (fun d => (tells_date d.date).right) t.secondDate
    have hdates : (Written.Item.transaction (.ofTree t)).dates =
        [t.date.image] ++ t.secondDate.toList.flatMap fun d => [d.date.image] := by
      unfold Written.Item.dates Written.Transaction.ofTree
      cases t.secondDate <;> rfl
    rw [hdates]
    exact ((tells_date t.date).mul hsecond).left.left.left.left.left.left
  | price p =>
    cases h
    exact (tells_date p.date).right.left.left.left.left
  | lineComment c =>
    cases h
    exact tells_nil _
  | account a =>
    cases h
    exact tells_nil _
  | commodity c =>
    obtain ⟨d, -, rfl⟩ := map_eq_ok.mp h
    exact tells_nil _
  | defaultCommodity d =>
    obtain ⟨e, -, rfl⟩ := map_eq_ok.mp h
    exact tells_nil _

/-- **A date of a source is resolvable.** -/
theorem isResolvable_of_mem_tokenize {t : Token} (ht : t ∈ (tokenize source).tokens)
    (hkind : t.kind = .date) (defaultYear : Int) : Date.IsResolvable t.image defaultYear := by
  have htext := mem_textsWith_of_mem_tokenize ht
  rw [hkind] at htext
  exact Date.isResolvable_iff.mpr htext.1

/-- What refuses a journal and is no missing commodity is a fault of what is written. -/
theorem mem_faults_of_readJournal {cause : JournalFault} (hcause : cause ≠ .missingCommodity)
    (h : readJournal year source = .error cause) :
    ∃ w, Written.Journal.ofTree (readTree source).result = .ok w ∧ cause ∈ w.faults year := by
  have htree := ofTree_failsWith (readTree source).result
  have hhead := head?_faults_eq_some_iff (readTree source).result cause
  unfold readJournal readWritten at h
  cases hw : Written.Journal.ofTree (readTree source).result with
  | error other =>
    simp only [hw] at h
    obtain rfl : other = cause := Except.error.inj h
    exact absurd (hhead.mp (htree.eq_error_iff.mp hw)).1 hcause
  | ok w =>
    simp only [hw] at h
    refine ⟨w, rfl, List.mem_of_mem_head? ?_⟩
    exact ((ofWritten_failsWith year w).map (readTree source).withResult).eq_error_iff.mp h

/-- The text for which a journal is refused is a date of its source. -/
theorem exists_date_of_readJournal {text : String}
    (h : readJournal year source = .error (.invalidDate text fault)) :
    (∃ t ∈ (tokenize source).tokens, t.kind = .date ∧ t.image = text) ∧
      Date.resolve text year = .error fault := by
  have hcause : JournalFault.invalidDate text fault ≠ .missingCommodity := by simp
  obtain ⟨w, hw, hfault⟩ := mem_faults_of_readJournal hcause h
  obtain ⟨v, hv, hitem⟩ := List.mem_flatMap.mp hfault
  rcases mem_faults_item hitem with ⟨_, hdate, hcause⟩ | hamount
  · obtain ⟨_, hresolve, heq⟩ := mem_dateFaults_iff.mp hcause
    cases heq
    have hmem : text ∈ w.items.flatMap fun v => v.value.dates :=
      List.mem_flatMap.mpr ⟨v, hv, hdate⟩
    obtain ⟨_, hsub, t, rfl, hkind, himage⟩ := told_of_ofTree (fun _ _ => tells_dates) hw hmem
    exact ⟨⟨t, hsub.subset List.mem_cons_self, hkind, himage⟩, hresolve⟩
  · nomatch hamount

/-- **What is found as a date is what can be resolved.** A date is found by its run or part by part,
which is the same, just where a text stands that is resolvable and that no digit and no sign
follows. A date of a source is resolvable in every default year, so a journal that is refused for
one of its dates is refused for want of the day. -/
theorem date_shapes_agree :
    (∀ (cs : List Char) (n : Nat) (defaultYear : Int), dateLength? cs = some n ↔
      ∃ text ahead, cs = text ++ ahead ∧ byteLength text = n ∧
        Date.IsResolvable (String.ofList text) defaultYear ∧
        ∀ c ∈ ahead.head?, c.isDigit = false ∧ isDateSign c = false) ∧
    (∀ cs : List Char, scanDate? cs = dateLength? cs) ∧
    (∀ (text : String) (defaultYear : Int), Date.resolveInSteps text defaultYear =
      (Date.resolve text defaultYear).mapError .ofFault) ∧
    (∀ (source : String) (t : Token) (defaultYear : Int), t ∈ (tokenize source).tokens →
      t.kind = .date → Date.IsResolvable t.image defaultYear) ∧
    (∀ (source : String) (defaultYear : Int) (text : String) (fault : DateFault),
      readJournal defaultYear source = .error (.invalidDate text fault) →
      fault = .noSuchDay ∧ ∃ t ∈ (tokenize source).tokens, t.kind = .date ∧ t.image = text) := by
  refine ⟨fun cs n defaultYear => ?_, scanDate?_eq_dateLength?, Date.resolveInSteps_eq,
    fun _ _ defaultYear ht hkind => isResolvable_of_mem_tokenize ht hkind defaultYear,
    fun source defaultYear text fault h => ?_⟩
  · simp only [dateLength?_eq_some_iff_takes, Takes, isDateChar_eq_false_iff, Date.isResolvable_iff,
      String.toList_ofList]
    constructor
    · rintro ⟨text, ahead, rfl, htext, hahead, rfl⟩
      exact ⟨text, ahead, rfl, byteLength_of_mem_dateText htext, htext, hahead⟩
    · rintro ⟨text, ahead, rfl, rfl, htext, hahead⟩
      exact ⟨text, ahead, rfl, htext, hahead, (byteLength_of_mem_dateText htext).symm⟩
  · obtain ⟨⟨t, ht, hkind, rfl⟩, hresolve⟩ := exists_date_of_readJournal h
    refine ⟨?_, t, ht, hkind, rfl⟩
    have hdate := isResolvable_of_mem_tokenize ht hkind defaultYear
    rw [Date.IsResolvable, Date.resolveInSteps_eq, hresolve] at hdate
    rcases hdate with ⟨date, hok⟩ | hnone
    · cases hok
    · cases fault with
      | shape => cases hnone
      | noSuchDay => rfl

/-- The thirtieth of February is resolvable, and is no day. -/
theorem date_shapes_agree_no_such_day :
    readJournal 2024 "2/30 x\n" = .error (.invalidDate "2/30" .noSuchDay) ∧
    ∃ t ∈ (tokenize "2/30 x\n").tokens, t.kind = .date ∧ t.image = "2/30" ∧
      Date.IsResolvable t.image 2024 := by
  have hrefused : readJournal 2024 "2/30 x\n" = .error (.invalidDate "2/30" .noSuchDay) := by
    decide +kernel
  obtain ⟨-, t, ht, hkind, himage⟩ := date_shapes_agree.2.2.2.2 _ _ _ _ hrefused
  exact ⟨hrefused, t, ht, hkind, himage, date_shapes_agree.2.2.2.1 _ t 2024 ht hkind⟩

end Daybook
