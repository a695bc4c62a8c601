import Daybook.Proofs.Reading.Kept

/-!
# The default year

The default year is that of the dates that are written without one, and nothing else depends on it.
If every date has its year, the journal means the same in all years, or is refused for the same
fault. If some have none, two years can differ in whether there is such a day; where both have a
meaning, it differs in the years of these dates only. So `lower_to_cooked_with` uses its year as
`resolve_date` does ([SPEC 4.4], [SPEC 12.3]).

* `IsYearless text`: the text has the two parts of a month and a day.
* `SameDay y₁ y₂ text d₁ d₂`: the text means `d₁` in the year `y₁` and `d₂` in the year `y₂`, so far
  as the year tells them apart.
* `SameButYears y₁ y₂ w j₁ j₂`: two meanings of a journal that differ in the years of dates that
  have none.

Results:
* `resolve_of_not_isYearless`: a date with a year does not depend on another.
* `sameDay_of_resolve`: **a date without a year is the same day of either year.**
* `ofWritten_defaultYear`: **the default year counts for dates without a year, and only for them.**
-/

namespace Daybook

open Lexeme Text

/-- The text has two parts, as a date without a year has. -/
def IsYearless (text : String) : Prop := (fields isDateSign text.toList).length = 2

instance (text : String) : Decidable (IsYearless text) := inferInstanceAs (Decidable (_ = _))

/-- The dates of an item as they are written. -/
def Written.Item.dates : Written.Item → List String
  | transaction t => t.date :: t.secondDate.toList
  | price p => [p.date]
  | lineComment _ | account _ | commodity _ | defaultCommodity _ => []

/-- Two meanings of a written date: the same day of either year if it has none, else the same day.
-/
def SameDay (y₁ y₂ : Int) (text : String) (d₁ d₂ : Date) : Prop :=
  if IsYearless text then d₁.year = y₁ ∧ d₂.year = y₂ ∧ d₁.month = d₂.month ∧ d₁.day = d₂.day
  else d₁ = d₂

/-- Two meanings of a written transaction: they differ in the years of dates that have none. -/
structure Transaction.SameButYears (y₁ y₂ : Int) (u : Written.Transaction) (t₁ t₂ : Transaction) :
    Prop where
  date : SameDay y₁ y₂ u.date t₁.date t₂.date
  secondDate : u.secondDate = none ∧ t₁.secondDate = none ∧ t₂.secondDate = none ∨
    ∃ text ∈ u.secondDate, ∃ d₁ ∈ t₁.secondDate, ∃ d₂ ∈ t₂.secondDate, SameDay y₁ y₂ text d₁ d₂
  rest : t₂ = { t₁ with date := t₂.date, secondDate := t₂.secondDate }

/-- Two meanings of a written price: they differ in the year of a date that has none. -/
structure Price.SameButYears (y₁ y₂ : Int) (u : Written.PriceDirective) (p₁ p₂ : Price) : Prop where
  date : SameDay y₁ y₂ u.date p₁.date p₂.date
  rest : p₂ = { p₁ with date := p₂.date }

/-- Two meanings of a written journal: they differ in the years of dates that have none. -/
structure Journal.SameButYears (y₁ y₂ : Int) (w : Written.Journal) (j₁ j₂ : Journal) : Prop where
  length_transactions : j₁.transactions.length = j₂.transactions.length
  transactions : List.Forall₂ (fun v t => ∃ u, v.value = .transaction u ∧
      Transaction.SameButYears y₁ y₂ u t.1 t.2)
    (w.openedBy .date) (j₁.transactions.zip j₂.transactions)
  length_prices : j₁.prices.length = j₂.prices.length
  prices : List.Forall₂ (fun v p => ∃ u, v.value = .price u ∧ Price.SameButYears y₁ y₂ u p.1 p.2)
    (w.openedBy .priceKeyword) (j₁.prices.zip j₂.prices)
  accounts : j₁.accounts = j₂.accounts
  commodities : j₁.commodities = j₂.commodities
  defaultCommodity : j₁.defaultCommodity = j₂.defaultCommodity

variable {y₁ y₂ year : Int} {text : String} {d d₁ d₂ : Date}

/-! ## Dates -/

/-- What is no date without a year does not depend on the year. -/
theorem ofFields?_congr {parts : List (List Char)} (h : parts.length ≠ 2) :
    Date.ofFields? y₁ parts = Date.ofFields? y₂ parts := by
  unfold Date.ofFields?
  split
  · rfl
  · exact absurd rfl h
  · rfl

/-- **A date with a year does not depend on another**, nor does the fault of a text that is no date.
-/
theorem resolve_of_not_isYearless (h : ¬ IsYearless text) :
    Date.resolve text y₁ = Date.resolve text y₂ := by
  unfold Date.resolve
  simp only
  rw [ofFields?_congr h]

theorem of?_eq_some {month day : Nat} (h : Date.of? year month day = some d) :
    d.year = year ∧ d.month = month ∧ d.day = day := by
  obtain ⟨_, hd⟩ := Option.dite_none_right_eq_some.mp h
  obtain rfl := Option.some.inj hd
  exact ⟨rfl, rfl, rfl⟩

/-- What a date without a year means. -/
theorem resolve_of_isYearless (h : IsYearless text) (hd : Date.resolve text year = .ok d) :
    ∃ month day, fields isDateSign text.toList = [month, day] ∧
      d.year = year ∧ d.month = ofDigits month ∧ d.day = ofDigits day := by
  obtain ⟨month, day, hparts⟩ := List.length_eq_two.mp h
  refine ⟨month, day, hparts, ?_⟩
  unfold Date.resolve at hd
  rw [hparts] at hd
  simp only at hd
  split at hd
  · split at hd
    · next hfound =>
      obtain rfl := Except.ok.inj hd
      exact of?_eq_some hfound
    · nomatch hd
  · nomatch hd

/-- **A date without a year is the same day of either year.** -/
theorem sameDay_of_resolve (h₁ : Date.resolve text y₁ = .ok d₁)
    (h₂ : Date.resolve text y₂ = .ok d₂) : SameDay y₁ y₂ text d₁ d₂ := by
  unfold SameDay
  split
  · next hyearless =>
    obtain ⟨month, day, hparts, hyear₁, hmonth₁, hday₁⟩ := resolve_of_isYearless hyearless h₁
    obtain ⟨month', day', hparts', hyear₂, hmonth₂, hday₂⟩ := resolve_of_isYearless hyearless h₂
    simp only [hparts, List.cons.injEq, and_true] at hparts'
    obtain ⟨rfl, rfl⟩ := hparts'
    exact ⟨hyear₁, hyear₂, hmonth₁.trans hmonth₂.symm, hday₁.trans hday₂.symm⟩
  · next hyear =>
    rw [resolve_of_not_isYearless hyear, h₂] at h₁
    exact (Except.ok.inj h₁).symm

theorem dateOfWritten_congr (h : ¬ IsYearless text) :
    dateOfWritten y₁ text = dateOfWritten y₂ text := by
  rw [dateOfWritten, dateOfWritten, resolve_of_not_isYearless h]

theorem resolve_of_dateOfWritten (h : dateOfWritten year text = .ok d) :
    Date.resolve text year = .ok d := by
  unfold dateOfWritten at h
  split at h
  · next hd => rw [hd, Except.ok.inj h]
  · nomatch h

theorem sameDay_of_dateOfWritten (h₁ : dateOfWritten y₁ text = .ok d₁)
    (h₂ : dateOfWritten y₂ text = .ok d₂) : SameDay y₁ y₂ text d₁ d₂ :=
  sameDay_of_resolve (resolve_of_dateOfWritten h₁) (resolve_of_dateOfWritten h₂)

/-! ## Items -/

/-- An item whose dates have their years means the same in all years. -/
theorem ofItem_congr {v : Written.Item} (h : ∀ text ∈ v.dates, ¬ IsYearless text) :
    Journal.ofItem y₁ v = Journal.ofItem y₂ v := by
  cases v with
  | transaction t =>
    obtain ⟨hdate, hsecond⟩ := List.forall_mem_cons.mp h
    have hoptional : optionally (dateOfWritten y₁) t.secondDate =
        optionally (dateOfWritten y₂) t.secondDate := by
      cases htext : t.secondDate with
      | none => rfl
      | some text =>
        rw [optionally, optionally, dateOfWritten_congr (hsecond text (by simp [htext]))]
    rw [Journal.ofItem, Journal.ofItem, Transaction.ofWritten, Transaction.ofWritten,
      Transaction.ofHeader, Transaction.ofHeader, dateOfWritten_congr hdate, hoptional]
  | price p =>
    rw [Journal.ofItem, Journal.ofItem, Price.ofWritten, Price.ofWritten,
      dateOfWritten_congr (h p.date List.mem_cons_self)]
  | lineComment | account | commodity | defaultCommodity => rfl

theorem transaction_sameButYears {u : Written.Transaction} {t₁ t₂ : Transaction}
    (h₁ : Transaction.ofWritten y₁ u = .ok t₁) (h₂ : Transaction.ofWritten y₂ u = .ok t₂) :
    Transaction.SameButYears y₁ y₂ u t₁ t₂ := by
  obtain ⟨d₁, s₁, hd₁, hs₁, hlines₁⟩ := Transaction.ofWritten_eq_ok.mp h₁
  obtain ⟨d₂, s₂, hd₂, hs₂, hlines₂⟩ := Transaction.ofWritten_eq_ok.mp h₂
  -- both loops are one, with the dates put in afterwards
  have hloop := Transaction.foldlM_addLine_withDates u.lines ⟨d₁, s₁, u.status, u.chequeNumber,
    u.description.getD .empty, [], tagsOf u.comment⟩
  obtain ⟨t, ht, rfl⟩ := map_eq_ok.mp ((hloop d₁ s₁).symm.trans hlines₁)
  obtain ⟨t', ht', rfl⟩ := map_eq_ok.mp ((hloop d₂ s₂).symm.trans hlines₂)
  obtain rfl := Except.ok.inj (ht.symm.trans ht')
  refine ⟨sameDay_of_dateOfWritten hd₁ hd₂, ?_, rfl⟩
  cases htext : u.secondDate with
  | none =>
    rw [htext] at hs₁ hs₂
    exact .inl ⟨rfl, (Except.ok.inj hs₁).symm, (Except.ok.inj hs₂).symm⟩
  | some text =>
    rw [htext] at hs₁ hs₂
    obtain ⟨e₁, he₁, rfl⟩ := map_eq_ok.mp hs₁
    obtain ⟨e₂, he₂, rfl⟩ := map_eq_ok.mp hs₂
    exact .inr ⟨text, rfl, e₁, rfl, e₂, rfl, sameDay_of_dateOfWritten he₁ he₂⟩

theorem price_sameButYears {u : Written.PriceDirective} {p₁ p₂ : Price}
    (h₁ : Price.ofWritten y₁ u = .ok p₁) (h₂ : Price.ofWritten y₂ u = .ok p₂) :
    Price.SameButYears y₁ y₂ u p₁ p₂ := by
  obtain ⟨d₁, hd₁, h₁⟩ := bind_eq_ok.mp h₁
  obtain ⟨amount, hamount, h₁⟩ := bind_eq_ok.mp h₁
  obtain ⟨d₂, hd₂, h₂⟩ := bind_eq_ok.mp h₂
  rw [hamount] at h₂
  obtain rfl := Except.ok.inj h₁
  obtain rfl := Except.ok.inj h₂
  exact ⟨sameDay_of_dateOfWritten hd₁ hd₂, rfl⟩

/-! ## Journals -/

/-- **The default year counts for dates without a year, and only for them.** -/
theorem ofWritten_defaultYear (y₁ y₂ : Int) (w : Written.Journal) :
    ((∀ x ∈ w.items, ∀ text ∈ x.value.dates, ¬ IsYearless text) →
      Journal.ofWritten y₁ w = Journal.ofWritten y₂ w) ∧
    ∀ j₁ j₂, Journal.ofWritten y₁ w = .ok j₁ → Journal.ofWritten y₂ w = .ok j₂ →
      Journal.SameButYears y₁ y₂ w j₁ j₂ := by
  refine ⟨fun h => ?_, fun j₁ j₂ h₁ h₂ => ?_⟩
  · rw [Journal.ofWritten_eq, Journal.ofWritten_eq, mapM_congr fun x hx => ofItem_congr (h x hx)]
  obtain ⟨parts₁, hparts₁, rfl⟩ := ofWritten_eq_ok_iff.mp h₁
  obtain ⟨parts₂, hparts₂, rfl⟩ := ofWritten_eq_ok_iff.mp h₂
  have htransactions₁ := forall₂_concat lists_transactions rfl (fun _ _ => rfl) hparts₁
  have htransactions₂ := forall₂_concat lists_transactions rfl (fun _ _ => rfl) hparts₂
  have hprices₁ := forall₂_concat lists_prices rfl (fun _ _ => rfl) hparts₁
  have hprices₂ := forall₂_concat lists_prices rfl (fun _ _ => rfl) hparts₂
  refine ⟨htransactions₁.length_eq.symm.trans htransactions₂.length_eq, ?_,
    hprices₁.length_eq.symm.trans hprices₂.length_eq, ?_, ?_, ?_, ?_⟩
  · refine (forall₂_zip htransactions₁ htransactions₂).imp ?_
    rintro v t ⟨⟨u, hu, ht₁⟩, u', hu', ht₂⟩
    obtain rfl := Written.Item.transaction.inj (hu.symm.trans hu')
    exact ⟨u, hu, transaction_sameButYears ht₁ ht₂⟩
  · refine (forall₂_zip hprices₁ hprices₂).imp ?_
    rintro v p ⟨⟨u, hu, hp₁⟩, u', hu', hp₂⟩
    obtain rfl := Written.Item.price.inj (hu.symm.trans hu')
    exact ⟨u, hu, price_sameButYears hp₁ hp₂⟩
  · refine List.right_unique_forall₂' ?_
      (forall₂_concat lists_accounts rfl (fun _ _ => rfl) hparts₁)
      (forall₂_concat lists_accounts rfl (fun _ _ => rfl) hparts₂)
    rintro v a a' ⟨u, hu, rfl⟩ ⟨u', hu', rfl⟩
    rw [Written.Item.account.inj (hu.symm.trans hu')]
  · refine List.right_unique_forall₂' ?_
      (forall₂_concat lists_commodities rfl (fun _ _ => rfl) hparts₁)
      (forall₂_concat lists_commodities rfl (fun _ _ => rfl) hparts₂)
    rintro v c c' ⟨u, hu, hc⟩ ⟨u', hu', hc'⟩
    rw [← Written.Item.commodity.inj (hu.symm.trans hu'), hc] at hc'
    exact Except.ok.inj hc'
  · have hdefault₁ := rel_defaultCommodity hparts₁
    have hdefault₂ := rel_defaultCommodity hparts₂
    generalize (w.items.filter (·.value.opener = .defaultKeyword)).getLast? = last
      at hdefault₁ hdefault₂
    generalize (Journal.concat parts₁).defaultCommodity = a₁ at hdefault₁
    generalize (Journal.concat parts₂).defaultCommodity = a₂ at hdefault₂
    cases hdefault₁ with
    | none =>
      cases hdefault₂
      rfl
    | some h₁ =>
      cases hdefault₂ with
      | some h₂ =>
        obtain ⟨u, hu, ha⟩ := h₁
        obtain ⟨u', hu', ha'⟩ := h₂
        rw [← Written.Item.defaultCommodity.inj (hu.symm.trans hu'), ha] at ha'
        rw [Except.ok.inj ha']

/-- A price of a leap day means the same in every year, and a transaction without a year whose
second date has one means two. -/
theorem ofWritten_defaultYear_leap_day :
    (∃ w : Written.Journal,
      w.items.map (·.value.dates) = [["2020/2/29"]] ∧
      (∀ x ∈ w.items, ∀ text ∈ x.value.dates, ¬ IsYearless text) ∧
      Journal.ofWritten 2020 w = Journal.ofWritten 2021 w) ∧
    ∃ w j₁ j₂, w.items.map (·.value.dates) = [["3/1", "2020-3-2"]] ∧
      Journal.ofWritten 2020 w = .ok j₁ ∧ Journal.ofWritten 2021 w = .ok j₂ ∧
      j₁.transactions.map (fun t => (t.date.text, t.secondDate.map Date.text)) =
        [("2020-03-01", some "2020-03-02")] ∧
      j₂.transactions.map (fun t => (t.date.text, t.secondDate.map Date.text)) =
        [("2021-03-01", some "2020-03-02")] ∧
      Journal.SameButYears 2020 2021 w j₁ j₂ := by
  constructor
  · have hdated : ∀ x ∈ [(⟨.price ⟨"2020/2/29", "X", ⟨.positive, "1", none, "1"⟩, none⟩, ⟨0, 16⟩⟩ :
        Located Written.Item)], ∀ text ∈ x.value.dates, ¬ IsYearless text := by decide +kernel
    exact ⟨⟨[_]⟩, rfl, hdated, (ofWritten_defaultYear 2020 2021 _).1 hdated⟩
  · have h₁ : Journal.ofWritten 2020
        ⟨[⟨.transaction ⟨"3/1", some "2020-3-2", .unmarked, none, none, none, []⟩, ⟨0, 13⟩⟩]⟩ =
        .ok (.ofTransaction ⟨⟨2020, 3, 1, by decide⟩, some ⟨2020, 3, 2, by decide⟩, .unmarked, none,
          .empty, [], []⟩) := by decide +kernel
    have h₂ : Journal.ofWritten 2021
        ⟨[⟨.transaction ⟨"3/1", some "2020-3-2", .unmarked, none, none, none, []⟩, ⟨0, 13⟩⟩]⟩ =
        .ok (.ofTransaction ⟨⟨2021, 3, 1, by decide⟩, some ⟨2020, 3, 2, by decide⟩, .unmarked, none,
          .empty, [], []⟩) := by decide +kernel
    exact ⟨_, _, _, rfl, h₁, h₂, by decide +kernel, by decide +kernel,
      (ofWritten_defaultYear 2020 2021 _).2 _ _ h₁ h₂⟩

end Daybook
