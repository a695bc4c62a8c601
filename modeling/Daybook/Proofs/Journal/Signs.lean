import Daybook.Proofs.Journal.Json
import Daybook.Proofs.Journal.Quantity
import Daybook.Proofs.Written.Amounts

/-!
# Signs that are shown and signs that count

A quantity is shown with the minus with which it is written, and a zero too. Below zero is only what
has a minus and is not zero. So the sign that is shown is the one that counts except for zeros with
a minus, and these are what is stored in another way once it has been read back. About `Amount` with
its `Display`, `is_negative` and stored form, and `cook_quantity`.

* `ShowsMinus s`: the text begins with a minus.
* `SignedAs w a`: what is shown, stored and tested of the sign of an amount, told by what is
  written.
* `JsonForm.Apart α`: different values of the type have different stored forms.

Results:
* `showsMinus_text`: a minus is shown exactly if there is one.
* `mantissa_eq_zero_iff`: a number is zero exactly if all its digits are.
* `signedAs_of_ofWritten`: **an amount has the sign that is written.**
* `Journal.mapAmounts_eq_self_iff`: a journal is kept exactly if each of its amounts is.
* an instance of `Apart` for each part of a journal.
* `encode_dropZeroSign_eq_iff`: **what is read back is stored as before exactly if every sign that
  is shown counts.**
-/

namespace Daybook

open JsonForm Text

/-- The text begins with a minus. -/
def ShowsMinus (s : String) : Prop := s.toList.head? = some '-'

instance (s : String) : Decidable (ShowsMinus s) := inferInstanceAs (Decidable (_ = _))

/-! ## Signs that are shown -/

/-- A minus is shown exactly if there is one, in front of a digit. -/
theorem Decimal.exists_toList_text (d : Decimal) :
    ∃ c cs, d.text.toList = (if d.negative then ['-'] else []) ++ c :: cs ∧ c.isDigit := by
  obtain ⟨c, cs, hwhole, hc⟩ := d.exists_whole
  have htext : d.text.toList = _ := String.toList_ofList
  rw [chars, hwhole, List.append_assoc, List.cons_append] at htext
  exact ⟨c, _, htext, hc⟩

theorem Decimal.showsMinus_text (d : Decimal) : ShowsMinus d.text ↔ d.negative := by
  obtain ⟨c, cs, htext, hc⟩ := d.exists_toList_text
  rw [ShowsMinus, htext]
  cases d.negative with
  | true => simp
  | false =>
    have hne : c ≠ '-' := by
      rintro rfl
      exact absurd hc (by decide)
    simpa using hne

/-- **A minus is shown exactly if there is one**, whatever the commodity. -/
theorem Amount.showsMinus_text (a : Amount) : ShowsMinus a.text ↔ a.quantity.negative := by
  rw [← a.quantity.showsMinus_text]
  unfold text
  cases a.commodity with
  | none => rfl
  | some commodity =>
    obtain ⟨c, cs, htext, -⟩ := a.quantity.exists_toList_text
    simp only [ShowsMinus, String.toList_append, htext]
    cases a.quantity.negative <;> simp

/-- The quantity is stored as it is shown. -/
theorem Amount.get_quantity (a : Amount) :
    (encode a).get "quantity" = .string a.quantity.text := rfl

theorem Amount.isNegative_iff (a : Amount) :
    a.isNegative ↔ ShowsMinus a.text ∧ a.quantity.mantissa ≠ 0 := by
  rw [a.showsMinus_text]
  exact a.quantity.isNegative_iff

/-! ## Numbers that are zero -/

section

variable {n cs : List Char} {m s t : Nat}

theorem spelledValue_eq_zero_iff (n : List Char) :
    spelledValue n = 0 ↔ ∀ c ∈ n, c.isDigit → c = '0' := by
  have hdigits : ∀ c ∈ n.filter Char.isDigit, c.isDigit := fun c hc => (List.mem_filter.mp hc).2
  have hvalue : (ofDigits (n.filter Char.isDigit) : ℚ) =
      fraction (n.filter Char.isDigit) * 10 ^ (n.filter Char.isDigit).length := by
    rw [ofDigits_eq_ofDigitChars, ofDigitChars_fraction, Nat.cast_zero, zero_add]
  have hpow : ∀ k : Nat, (10 : ℚ) ^ k ≠ 0 := fun k => by positivity
  rw [spelledValue, hvalue, div_eq_zero_iff, or_iff_left (hpow _), mul_eq_zero,
    or_iff_left (hpow _), fraction_eq_zero_iff hdigits]
  simp only [List.mem_filter, and_imp]

/-- What is read as zero has zeros only, as far as there is room for them. -/
theorem Decimal.readDigits_eq_zero (hcs : ∀ c ∈ cs, c.isDigit)
    (h : readDigits m s true true cs = some (0, t)) : m = 0 ∧ ∀ c ∈ cs.take (28 - s), c = '0' := by
  induction cs generalizing m s with
  | nil =>
    rw [readDigits, if_pos rfl] at h
    cases h
    exact ⟨rfl, by simp⟩
  | cons c cs ih =>
    obtain ⟨hc, hmore⟩ := List.forall_mem_cons.mp hcs
    rw [readDigits, if_pos hc] at h
    simp only [Bool.not_true, Bool.false_or, Bool.and_eq_true, decide_eq_true_eq, if_true] at h
    split at h
    · next hfits =>
      obtain ⟨hnext, hzeros⟩ := ih hmore h
      have hroom : 28 - s = 28 - (s + 1) + 1 := by omega
      have hdigit : digitValue c = 0 := by omega
      refine ⟨by omega, ?_⟩
      rw [hroom, List.take_succ_cons, List.forall_mem_cons]
      exact ⟨(digitValue_eq_zero_iff hc).mp hdigit, hzeros⟩
    · next hfull =>
      -- one digit more is rounded, and only a mantissa that is zero already stays zero
      obtain rfl : m = 0 := by
        simp only [roundAt] at h
        split at h
        · cases h
        · split at h
          · exact congrArg Prod.fst (Option.some.inj h)
          · split at h
            · cases h
            · split at h
              · cases h
              · have hzero := congrArg Prod.fst (Option.some.inj h)
                have hbound : mantissaBound = 0x1000000000000000000000000 := rfl
                simp only at hzero
                omega
      have hdigit := digitValue_le hc
      have hbound : mantissaBound = 0x1000000000000000000000000 := rfl
      have hnone : 28 - s = 0 := by omega
      exact ⟨rfl, by rw [hnone]; simp⟩

/-- A number with zeros only as far as there is room for them is zero, or smaller than the last
place that there is. -/
theorem spelledValue_of_zeros (hwhole : ofDigits (wholeDigits n) = 0)
    (hzeros : ∀ c ∈ (placeDigits n).take 28, c = '0') :
    spelledValue n = 0 ∨ spelledValue n < 1 / 10 ^ 28 := by
  have hplaces : ∀ c ∈ placeDigits n, c.isDigit := fun _ => isDigit_of_mem_placeDigits
  have hfront : fraction ((placeDigits n).take 28) = 0 :=
    (fraction_eq_zero_iff fun c hc => hplaces c (List.mem_of_mem_take hc)).mpr hzeros
  have hvalue : spelledValue n =
      fraction ((placeDigits n).drop 28) / 10 ^ ((placeDigits n).take 28).length := by
    rw [spelledValue_eq, hwhole, Nat.cast_zero, zero_add,
      ← List.take_append_drop 28 (placeDigits n), fraction_append, hfront, zero_add,
      List.take_append_drop]
  rw [hvalue]
  rcases Nat.lt_or_ge 28 (placeDigits n).length with hlong | hshort
  · have hlength : ((placeDigits n).take 28).length = 28 := by
      rw [List.length_take]
      omega
    have hdropped : ∀ c ∈ (placeDigits n).drop 28, c.isDigit := fun c hc =>
      hplaces c (List.mem_of_mem_drop hc)
    rw [hlength]
    exact .inr (div_lt_div_of_pos_right (fraction_bounds hdropped).2 (by positivity))
  · rw [List.drop_eq_nil_of_le hshort, fraction, zero_div]
    exact .inl rfl

section

variable {number : String} {d : Decimal} (hnumber : IsNumeral number.toList)
  (hd : Decimal.ofChars? (spelledNumber number) = some d)

include hnumber hd

/-- What is read as a number is what is read of its places. -/
theorem readDigits_of_ofChars? :
    Decimal.readDigits (ofDigits (wholeDigits number.toList)) 0 true true
      (placeDigits number.toList) = some (d.mantissa, d.scale) := by
  obtain ⟨hrefused, hread⟩ := ofChars?_spelledNumber hnumber
  have hsome : ∃ c ∈ number.toList, c ≠ ',' := by
    by_contra hnone
    have hall : ∀ c ∈ number.toList, c = ',' := by simpa using hnone
    exact absurd (hd.symm.trans (hrefused (.inl hall))) nofun
  have hfits : ofDigits (wholeDigits number.toList) < Decimal.mantissaBound := by
    by_contra hover
    exact absurd (hd.symm.trans (hrefused (.inr (Nat.not_lt.mp hover)))) nofun
  obtain ⟨⟨m, s⟩, hdigits, hparts⟩ :=
    Option.bind_eq_some_iff.mp ((hread hsome hfits).symm.trans hd)
  have hheld : Decimal.ofParts? false m s = some d := hparts
  unfold Decimal.ofParts? at hheld
  split at hheld
  · rw [hdigits, ← Option.some.inj hheld]
  · cases hheld

/-- **A number is zero exactly if all its digits are**, as long as it is none of those so small that
they are rounded to the last place that there is. -/
theorem mantissa_eq_zero_iff
    (hsize : spelledValue number.toList = 0 ∨ 1 / 10 ^ 28 ≤ spelledValue number.toList) :
    d.mantissa = 0 ↔ spelledValue number.toList = 0 := by
  constructor
  · intro hzero
    have hread := readDigits_of_ofChars? hnumber hd
    rw [hzero] at hread
    obtain ⟨hwhole, hzeros⟩ :=
      Decimal.readDigits_eq_zero (fun _ => isDigit_of_mem_placeDigits) hread
    rcases spelledValue_of_zeros hwhole hzeros with hvalue | hlt
    · exact hvalue
    · exact hsize.resolve_right (not_le.mpr hlt)
  · intro hvalue
    rcases ofChars?_outcome hnumber with ⟨hnone, -⟩ | ⟨e, he, -, -, hrounded⟩
    · exact absurd (hd.symm.trans hnone) nofun
    · obtain rfl := Option.some.inj (hd.symm.trans he)
      have hpow : (0 : ℚ) < 10 ^ d.scale := by positivity
      have hnear := hrounded.near
      rw [hvalue, sub_zero, abs_of_nonneg (by positivity), div_le_div_iff_of_pos_right hpow] at hnear
      have hlt : (d.mantissa : ℚ) < 1 := by linarith
      exact Nat.lt_one_iff.mp (by exact_mod_cast hlt)

end

end

/-! ## What is written -/

/-- What is shown, stored and tested of the sign of an amount, told by what is written. -/
structure SignedAs (w : Written.Amount) (a : Amount) : Prop where
  /-- The amount is what is written. -/
  meant : Amount.ofWritten w = .ok a
  /-- It is shown with a minus exactly if it is written with one. -/
  shown : ShowsMinus a.text ↔ w.sign = .negative
  /-- So is its stored quantity. -/
  stored : ∃ s, (encode a).get "quantity" = .string s ∧ (ShowsMinus s ↔ w.sign = .negative)
  /-- It is below zero exactly if it is shown with a minus and is not zero. -/
  counts : a.isNegative ↔ ShowsMinus a.text ∧ a.quantity.mantissa ≠ 0
  /-- A number that is not too small for the places of a decimal is below zero exactly if it is
  written with a minus and has a digit other than zero. -/
  tested : spelledValue w.number.toList = 0 ∨ 1 / 10 ^ 28 ≤ spelledValue w.number.toList →
    (a.isNegative ↔ w.sign = .negative ∧ ∃ c ∈ w.number.toList, c.isDigit ∧ c ≠ '0')

/-- An amount has the digits of its number and its sign. -/
theorem exists_ofWritten {w : Written.Amount} {a : Amount} (h : Amount.ofWritten w = .ok a) :
    ∃ d, Decimal.ofChars? (spelledNumber w.number) = some d ∧
      a.quantity = if w.sign = .negative then d.negate else d := by
  obtain ⟨q, hq, ha⟩ := bind_eq_ok.mp h
  obtain rfl := Except.ok.inj ha
  unfold Decimal.ofWritten at hq
  split at hq
  · cases hq
  · next d hd => exact ⟨d, hd, (Except.ok.inj hq).symm⟩

/-- **An amount has the sign that is written**, and it counts unless the amount is zero. -/
theorem signedAs_of_ofWritten {w : Written.Amount} {a : Amount} (hw : IsNumeral w.number.toList)
    (h : Amount.ofWritten w = .ok a) : SignedAs w a := by
  obtain ⟨d, hd, hquantity⟩ := exists_ofWritten h
  have hplain : d.negative = false := by
    rcases ofChars?_outcome hw with ⟨hnone, -⟩ | ⟨e, he, hsign, -⟩
    · exact absurd (hd.symm.trans hnone) nofun
    · rwa [Option.some.inj (hd.symm.trans he)]
  have hnegative : a.quantity.negative ↔ w.sign = .negative := by
    rw [hquantity]
    split
    · next hsign => simpa [Decimal.negate, hplain] using hsign
    · next hsign => simpa [hplain] using hsign
  have hmantissa : a.quantity.mantissa = d.mantissa := by
    rw [hquantity]
    split <;> rfl
  constructor
  · exact h
  · exact a.showsMinus_text.trans hnegative
  · exact ⟨_, a.get_quantity, a.quantity.showsMinus_text.trans hnegative⟩
  · exact a.isNegative_iff
  · intro hsize
    rw [a.isNegative_iff, a.showsMinus_text, hnegative, hmantissa, ne_eq,
      mantissa_eq_zero_iff hw hd hsize, spelledValue_eq_zero_iff]
    simp

/-! ## What is stored -/

/-- Different values of the type have different stored forms. -/
class JsonForm.Apart (α : Type) [JsonForm α] : Prop where
  /-- Values with one stored form are the same. -/
  encode_injective : Function.Injective (encode : α → Json)

@[simp]
theorem encode_inj {α : Type} [JsonForm α] [Apart α] {a b : α} : encode a = encode b ↔ a = b :=
  Apart.encode_injective.eq_iff

/-- What is read back as it was is told from its stored form. -/
instance {α : Type} [JsonForm α] [ReadsAs α id] : Apart α where
  encode_injective a b h := by simpa using congrArg (decode : Json → Option α) h

instance {α : Type} {f : α → α} [JsonForm α] [ReadsAs α f] [Apart α] : Apart (Option α) where
  encode_injective
    | none, none, _ => rfl
    | none, some b, h => absurd h.symm (ReadsAs.encode_ne_null b)
    | some a, none, h => absurd h (ReadsAs.encode_ne_null a)
    | some _, some _, h => congrArg some (Apart.encode_injective h)

instance {α : Type} [JsonForm α] [Apart α] : Apart (List α) where
  encode_injective _ _ h := List.map_injective_iff.mpr Apart.encode_injective (Json.array.inj h)

/-- The sign of a zero is shown, though it is not read back. -/
instance : Apart Decimal where
  encode_injective d e h := by
    have htext : d.text = e.text := Json.string.inj h
    have hread : d.dropZeroSign = e.dropZeroSign := by
      rw [← Option.some_inj, ← d.ofText?_text, ← e.ofText?_text, htext]
    have hsign : d.negative = e.negative := by
      rw [Bool.eq_iff_iff, ← d.showsMinus_text, ← e.showsMinus_text, htext]
    cases d
    cases e
    simp_all [Decimal.dropZeroSign]

instance : Apart Amount where
  encode_injective a b h := by
    unfold instJsonFormAmount at h
    cases a
    cases b
    simpa using h

section

variable {α : Type} {f : α → α} [JsonForm α] [ReadsAs α f] [Apart α]

instance : Apart (LotPrice α) where
  encode_injective l m h := by
    unfold instJsonFormLotPrice at h
    obtain ⟨isTotal, isVirtual, amount⟩ := l
    obtain ⟨isTotal', isVirtual', amount'⟩ := m
    cases isTotal <;> cases isTotal' <;> simp_all

instance : Apart (Assertion α) where
  encode_injective a b h := by
    unfold instJsonFormAssertion at h
    obtain ⟨isStrong, withSubaccounts, amount⟩ := a
    obtain ⟨isStrong', withSubaccounts', amount'⟩ := b
    cases isStrong <;> cases isStrong' <;> simp_all

end

instance : Apart Posting where
  encode_injective p q h := by
    unfold instJsonFormPosting at h
    cases p
    cases q
    simpa using h

instance : Apart Transaction where
  encode_injective t u h := by
    unfold instJsonFormTransaction at h
    cases t
    cases u
    simpa using h

instance : Apart Price where
  encode_injective p q h := by
    unfold instJsonFormPrice at h
    cases p
    cases q
    simpa using h

instance : Apart CommodityEntry where
  encode_injective c d h := by
    unfold instJsonFormCommodityEntry at h
    cases c
    cases d
    simpa using h

instance : Apart Journal where
  encode_injective j k h := by
    unfold instJsonFormJournal at h
    cases j
    cases k
    simpa using h

/-! ## What is stored again -/

section

variable {f : Amount → Amount}

theorem map_eq_self {α : Type} {g : α → α} {as : List α} (h : ∀ a ∈ as, g a = a) :
    as.map g = as := (List.map_congr_left h).trans (List.map_id as)

theorem Posting.mapAmounts_eq_self {p : Posting} (h : ∀ a ∈ p.amounts, f a = a) :
    p.mapAmounts f = p := by
  obtain ⟨status, account, amount, lotPrice, assertion, tags⟩ := p
  unfold amounts at h
  cases amount <;> cases lotPrice <;> cases assertion <;>
    simp_all [mapAmounts, LotPrice.mapAmount, Assertion.mapAmount]

theorem Transaction.mapAmounts_eq_self {t : Transaction}
    (h : ∀ a ∈ t.postings.flatMap Posting.amounts, f a = a) : t.mapAmounts f = t := by
  have hpostings : t.postings.map (.mapAmounts f) = t.postings := map_eq_self fun p hp =>
    Posting.mapAmounts_eq_self fun a ha => h a (List.mem_flatMap_of_mem hp ha)
  rw [mapAmounts, hpostings]

theorem CommodityEntry.mapFormat_eq_self {c : CommodityEntry}
    (h : ∀ a ∈ c.format.toList, f a = a) : c.mapFormat f = c := by
  obtain ⟨commodity, format, tags⟩ := c
  cases format <;> simp_all [mapFormat]

/-- **A journal is kept exactly if each of its amounts is.** -/
theorem Journal.mapAmounts_eq_self_iff {j : Journal} :
    j.mapAmounts f = j ↔ ∀ a ∈ j.amounts, f a = a := by
  constructor
  · intro h
    have hamounts : j.amounts.map f = j.amounts.map id := by
      rw [← j.amounts_mapAmounts, h, List.map_id]
    exact List.map_inj_left.mp hamounts
  · intro h
    simp only [amounts, List.forall_mem_append] at h
    obtain ⟨⟨⟨htransactions, hprices⟩, hcommodities⟩, hdefault⟩ := h
    have hdefaultCommodity : j.defaultCommodity.map f = j.defaultCommodity := by
      cases hamount : j.defaultCommodity with
      | none => rfl
      | some a => exact congrArg some (hdefault a (by simp [hamount]))
    have hkept : ∀ p ∈ j.prices, p.mapAmount f = p := fun p hp => by
      rw [Price.mapAmount, hprices p.amount (List.mem_map_of_mem hp)]
    rw [mapAmounts, hdefaultCommodity, map_eq_self hkept, map_eq_self fun t ht =>
        Transaction.mapAmounts_eq_self fun a ha =>
          htransactions a (List.mem_flatMap_of_mem ht ha),
      map_eq_self fun c hc => CommodityEntry.mapFormat_eq_self fun a ha =>
        hcommodities a (List.mem_flatMap_of_mem hc ha)]

end

theorem Decimal.dropZeroSign_eq_self_iff (d : Decimal) :
    d.dropZeroSign = d ↔ (d.negative → d.isNegative) := by
  obtain ⟨negative, mantissa, scale, _, _⟩ := d
  cases negative <;> simp [dropZeroSign, isNegative]

/-- The sign of an amount stays exactly if the one that is shown counts. -/
theorem Amount.dropZeroSign_eq_self_iff (a : Amount) :
    a.dropZeroSign = a ↔ (ShowsMinus a.text ↔ a.isNegative) := by
  have hquantity : a.dropZeroSign = a ↔ a.quantity.dropZeroSign = a.quantity := by
    cases a
    simp [dropZeroSign]
  rw [hquantity, a.quantity.dropZeroSign_eq_self_iff, a.isNegative_iff, a.showsMinus_text,
    a.quantity.isNegative_iff]
  tauto

/-- **What is read back is stored as before exactly if every sign that is shown counts.** -/
theorem encode_dropZeroSign_eq_iff (j : Journal) :
    encode (j.mapAmounts .dropZeroSign) = encode j ↔
      ∀ a ∈ j.amounts, (ShowsMinus a.text ↔ a.isNegative) := by
  rw [encode_inj, Journal.mapAmounts_eq_self_iff]
  simp only [Amount.dropZeroSign_eq_self_iff]

end Daybook
