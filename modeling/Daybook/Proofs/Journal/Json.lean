import Daybook.Journal.Json
import Daybook.Proofs.Journal.Date
import Daybook.Proofs.Json.Form
import Mathlib.Data.List.Forall2

/-!
# Journals are read back

A journal is stored with every date and with every place of every quantity. What is read back is the
same journal but for the signs of zeros, so it has the same value, and each of its quantities has as
many places as before. About the stored form of the cooked journal ([SPEC 12.4]).

* `Journal.amounts j`: all amounts of a journal, in order.
* `Journal.mapAmounts f j`: the journal with other amounts in the same places.

Results:
* `amounts_mapAmounts`, `reduced_mapAmounts`: what becomes of the amounts and of the value.
* an instance of `ReadsAs` for each part of a journal.
* `decode_encode_journal`: **what is read back has the value of what was stored, with all places.**
-/

namespace Daybook

open JsonForm

/-! ## The amounts of a journal -/

/-- The amounts of a posting, in order. -/
def Posting.amounts (p : Posting) : List Amount :=
  p.amount.toList ++ (p.lotPrice.map (·.amount)).toList ++ (p.assertion.map (·.amount)).toList

/-- The posting with other amounts. -/
def Posting.mapAmounts (f : Amount → Amount) (p : Posting) : Posting :=
  { p with
    amount := p.amount.map f
    lotPrice := p.lotPrice.map (.mapAmount f)
    assertion := p.assertion.map (.mapAmount f) }

/-- The transaction with other amounts. -/
def Transaction.mapAmounts (f : Amount → Amount) (t : Transaction) : Transaction :=
  { t with postings := t.postings.map (.mapAmounts f) }

/-- The price with another amount. -/
def Price.mapAmount (f : Amount → Amount) (p : Price) : Price := { p with amount := f p.amount }

/-- The commodity with another format. -/
def CommodityEntry.mapFormat (f : Amount → Amount) (c : CommodityEntry) : CommodityEntry :=
  { c with format := c.format.map f }

namespace Journal

/-- The amounts of a journal: those of its postings, prices and commodities in order, and then the
default commodity. -/
def amounts (j : Journal) : List Amount :=
  j.transactions.flatMap (·.postings.flatMap Posting.amounts) ++ j.prices.map (·.amount) ++
    j.commodities.flatMap (·.format.toList) ++ j.defaultCommodity.toList

/-- The journal with other amounts. -/
def mapAmounts (f : Amount → Amount) (j : Journal) : Journal where
  transactions := j.transactions.map (.mapAmounts f)
  accounts := j.accounts
  prices := j.prices.map (.mapAmount f)
  commodities := j.commodities.map (.mapFormat f)
  defaultCommodity := j.defaultCommodity.map f

end Journal

section

variable {f : Amount → Amount}

theorem Posting.amounts_mapAmounts (p : Posting) : (p.mapAmounts f).amounts = p.amounts.map f := by
  unfold amounts mapAmounts
  cases p.amount <;> cases p.lotPrice <;> cases p.assertion <;> rfl

/-- **The amounts change in their places.** -/
theorem Journal.amounts_mapAmounts (j : Journal) : (j.mapAmounts f).amounts = j.amounts.map f := by
  have hformats : ∀ c : CommodityEntry,
      (c.mapFormat f).format.toList = c.format.toList.map f := by
    intro c
    unfold CommodityEntry.mapFormat
    cases c.format <;> rfl
  have hdefault : (j.defaultCommodity.map f).toList = j.defaultCommodity.toList.map f := by
    cases j.defaultCommodity <;> rfl
  simp [amounts, mapAmounts, List.flatMap_map, List.map_flatMap, Transaction.mapAmounts,
    Posting.amounts_mapAmounts, Price.mapAmount, hformats, hdefault]

theorem Posting.reduced_mapAmounts (h : ∀ a, (f a).reduced = a.reduced) (p : Posting) :
    (p.mapAmounts f).reduced = p.reduced := by
  unfold reduced mapAmounts
  cases p.amount <;> cases p.lotPrice <;> cases p.assertion <;> simp [LotPrice.mapAmount,
    Assertion.mapAmount, h]

/-- **What keeps the value of each amount keeps the value of the journal.** -/
theorem Journal.reduced_mapAmounts (h : ∀ a, (f a).reduced = a.reduced) (j : Journal) :
    (j.mapAmounts f).reduced = j.reduced := by
  simp [reduced, mapAmounts, Transaction.reduced, Transaction.mapAmounts, Function.comp_def,
    Posting.reduced_mapAmounts h, Price.mapAmount, CommodityEntry.mapFormat, h]

end

/-! ## What is read back -/

/-- The amount, without a sign if it is zero. -/
def Amount.dropZeroSign (a : Amount) : Amount := { a with quantity := a.quantity.dropZeroSign }

theorem Amount.reduced_dropZeroSign (a : Amount) : a.dropZeroSign.reduced = a.reduced :=
  congrArg (Amount.mk · a.commodity)
    (Decimal.reduced_eq_iff.mpr a.quantity.sameValue_dropZeroSign)

instance : ReadsAs Date id where
  encode_ne_null _ := Json.string_ne_null _
  decode_encode d := d.ofText?_text

instance : ReadsAs Decimal .dropZeroSign where
  encode_ne_null _ := Json.string_ne_null _
  decode_encode d := d.ofText?_text

instance : ReadsAs Amount .dropZeroSign where
  encode_ne_null _ := Json.object_ne_null _
  decode_encode a := by
    unfold instJsonFormAmount
    simp [Json.read, Amount.dropZeroSign]

theorem decode_encode_account (a : Account) :
    accountForm.decode (accountForm.encode a) = some a := by
  obtain ⟨kind, path⟩ := a
  unfold accountForm
  cases kind <;> simp

instance : @ReadsAs Account accountForm id :=
  @ReadsAs.mk _ accountForm _ nofun decode_encode_account

instance : ReadsAs Posting (.mapAmounts .dropZeroSign) where
  encode_ne_null _ := Json.object_ne_null _
  decode_encode p := by
    unfold instJsonFormPosting
    simp [Json.read, Posting.mapAmounts]

instance : ReadsAs Transaction (.mapAmounts .dropZeroSign) where
  encode_ne_null _ := Json.object_ne_null _
  decode_encode t := by
    unfold instJsonFormTransaction
    simp [Json.read, Transaction.mapAmounts]

instance : ReadsAs AccountEntry id where
  encode_ne_null _ := Json.object_ne_null _
  decode_encode a := by
    unfold instJsonFormAccountEntry
    simp [Json.read]

instance : ReadsAs Price (.mapAmount .dropZeroSign) where
  encode_ne_null _ := Json.object_ne_null _
  decode_encode p := by
    unfold instJsonFormPrice
    simp [Json.read, Price.mapAmount]

instance : ReadsAs CommodityEntry (.mapFormat .dropZeroSign) where
  encode_ne_null _ := Json.object_ne_null _
  decode_encode c := by
    unfold instJsonFormCommodityEntry
    simp [Json.read, CommodityEntry.mapFormat]

instance : ReadsAs Journal (.mapAmounts .dropZeroSign) where
  encode_ne_null _ := Json.object_ne_null _
  decode_encode j := by
    unfold instJsonFormJournal
    simp [Json.read, Journal.mapAmounts]

/-- **What is read back has the value of what was stored**, and each quantity has the value and the
places that it had. -/
theorem decode_encode_journal (j : Journal) :
    ∃ k : Journal, decode (encode j) = some k ∧ k.sameValue j ∧
      List.Forall₂ (fun a b => a.quantity.sameValue b.quantity ∧ a.scale = b.scale)
        k.amounts j.amounts := by
  refine ⟨j.mapAmounts .dropZeroSign, ReadsAs.decode_encode j, ?_, ?_⟩
  · rw [Journal.sameValue, decide_eq_true_eq]
    exact j.reduced_mapAmounts Amount.reduced_dropZeroSign
  · rw [j.amounts_mapAmounts, List.forall₂_map_left_iff, List.forall₂_same]
    exact fun a _ => ⟨a.quantity.sameValue_dropZeroSign, rfl⟩

end Daybook
