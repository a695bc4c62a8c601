import Daybook.Proofs.Journal.Signs
import Daybook.Proofs.Reading.AmountText
import Daybook.Proofs.Reading.Formats

/-!
# The signs of a journal

The amounts of a journal are those that are written in its source, each in its place: those of the
postings, of the prices and of the formats, and that of the last default commodity. Each has the
sign with which it is written. About `parse_to_cooked_with` and the `Display` of amounts.

* `Written.Journal.counted w`: the written amounts in the order in which the journal has them.
* `MeansAmounts ws as`: the amounts are what is written, one by one.

Results:
* `meansAmounts_counted`: **the amounts of a journal are the written ones that count.**
* `isNumeral_of_mem_amounts`: the numbers of a source are numerals.
* `readJournal_signs`: **what is shown, stored and tested of the signs in a source.**
-/

namespace Daybook

open JsonForm Lexeme

/-- The amounts of a written journal in the order in which its journal has them: those of
transactions, of prices and of commodities, and that of the last default commodity. -/
def Written.Journal.counted (w : Journal) : List Amount :=
  (w.openedBy .date).flatMap (·.value.amounts) ++
    (w.openedBy .priceKeyword).flatMap (·.value.amounts) ++
    (w.openedBy .commodityKeyword).flatMap (·.value.amounts) ++
    (w.openedBy .defaultKeyword).getLast?.toList.flatMap (·.value.amounts)

/-- The amounts are what is written, one by one. -/
def MeansAmounts (ws : List Written.Amount) (as : List Amount) : Prop :=
  List.Forall₂ (fun w a => Amount.ofWritten w = .ok a) ws as

variable {year : Int} {source : String}

/-! ## The amounts of an item -/

/-- An amount inside something that may be missing. -/
theorem meansAmounts_optionally {α β : Type} {f : α → Except JournalFault β} {o : Option α}
    {o' : Option β} {g : α → Written.Amount} {g' : β → Amount} (h : optionally f o = .ok o')
    (hf : ∀ a b, f a = .ok b → Amount.ofWritten (g a) = .ok (g' b)) :
    MeansAmounts (o.toList.map g) (o'.map g').toList := by
  cases o with
  | none =>
    cases h
    exact .nil
  | some a =>
    obtain ⟨b, hb, rfl⟩ := map_eq_ok.mp h
    exact .cons (hf a b hb) .nil

theorem meansAmounts_posting {w : Written.Posting} {p : Posting} (h : Posting.ofWritten w = .ok p) :
    MeansAmounts w.amounts p.amounts := by
  obtain ⟨amount, hamount, h⟩ := bind_eq_ok.mp h
  obtain ⟨lotPrice, hlotPrice, h⟩ := bind_eq_ok.mp h
  obtain ⟨assertion, hassertion, h⟩ := bind_eq_ok.mp h
  obtain rfl := Except.ok.inj h
  have hplain : MeansAmounts w.amount.toList amount.toList := by
    have hmeans : MeansAmounts (w.amount.toList.map id) (amount.map id).toList :=
      meansAmounts_optionally hamount fun _ _ ha => ha
    simpa using hmeans
  have hlot : MeansAmounts (w.lotPrice.toList.map (·.amount)) (lotPrice.map (·.amount)).toList :=
    meansAmounts_optionally hlotPrice fun l m hl => by
      obtain ⟨a, ha, hm⟩ := bind_eq_ok.mp hl
      obtain rfl := Except.ok.inj hm
      exact ha
  have hasserted : MeansAmounts (w.assertion.toList.map (·.amount))
      (assertion.map (·.amount)).toList :=
    meansAmounts_optionally hassertion fun l m hl => by
      obtain ⟨a, ha, hm⟩ := bind_eq_ok.mp hl
      obtain rfl := Except.ok.inj hm
      exact ha
  exact List.rel_append (List.rel_append hplain hlot) hasserted

theorem amounts_eq_postings (lines : List Written.Content) :
    lines.flatMap Written.Content.amounts =
      (lines.filterMap Written.Content.posting?).flatMap Written.Posting.amounts := by
  induction lines with
  | nil => rfl
  | cons line lines ih =>
    cases line with
    | comment c => exact ih
    | posting p => exact congrArg (p.amounts ++ ·) ih

theorem meansAmounts_transaction {w : Written.Transaction} {t : Transaction}
    (h : Transaction.ofWritten year w = .ok t) :
    MeansAmounts (Written.Item.transaction w).amounts (t.postings.flatMap Posting.amounts) := by
  obtain ⟨_, _, -, -, hlines⟩ := Transaction.ofWritten_eq_ok.mp h
  have hpostings := Transaction.forall₂_of_foldlM_addLine rfl hlines
  show MeansAmounts (w.lines.flatMap Written.Content.amounts) _
  rw [amounts_eq_postings]
  refine List.rel_flatMap hpostings ?_
  rintro p q ⟨u, hu, huntagged⟩
  -- tags are no amounts
  have hamounts : q.untagged.amounts = u.untagged.amounts := congrArg Posting.amounts huntagged
  have hmeans : MeansAmounts p.amounts u.amounts := meansAmounts_posting hu
  show MeansAmounts p.amounts q.untagged.amounts
  rw [hamounts]
  exact hmeans

theorem meansAmounts_price {w : Written.PriceDirective} {p : Price}
    (h : Price.ofWritten year w = .ok p) :
    MeansAmounts (Written.Item.price w).amounts [p.amount] := by
  obtain ⟨date, -, h⟩ := bind_eq_ok.mp h
  obtain ⟨a, ha, h⟩ := bind_eq_ok.mp h
  obtain rfl := Except.ok.inj h
  exact .cons ha .nil

theorem amounts_eq_present (c : Written.CommodityDirective) :
    c.amounts = c.present.map Written.NamedAmount.toAmount := by
  have hdeclared : c.declaration.amounts =
      c.declaration.inline?.toList.map Written.NamedAmount.toAmount := by
    cases c.declaration <;> rfl
  have hlines : c.lines.flatMap Written.CommodityContent.amounts =
      c.formats.map Written.NamedAmount.toAmount := by
    unfold Written.CommodityDirective.formats
    induction c.lines with
    | nil => rfl
    | cons line lines ih =>
      cases line with
      | format shown => exact congrArg (shown.toAmount :: ·) ih
      | comment c => exact ih
  rw [Written.CommodityDirective.amounts, Written.CommodityDirective.present, List.map_append,
    hdeclared, hlines]

/-- A commodity has the amount that shows its format, if there is one. -/
theorem meansAmounts_commodity {c : Written.CommodityDirective} {e : CommodityEntry}
    (h : CommodityEntry.ofWritten c = .ok e) :
    MeansAmounts (Written.Item.commodity c).amounts e.format.toList := by
  show MeansAmounts c.amounts e.format.toList
  rw [amounts_eq_present]
  cases ofWritten_eq_iff.mp h with
  | @shown f q hshows hnumber =>
    have hamount : Amount.ofWritten f.toAmount = .ok ⟨q, some c.declaration.commodity⟩ := by
      rw [Amount.ofWritten, hnumber, ← hshows.2]
      rfl
    rw [hshows.1]
    exact .cons hamount .nil
  | bare hnone =>
    rw [hnone]
    exact .nil

/-! ## The amounts of a journal -/

section

variable {w : Written.Journal} {parts : List Journal}
  (h : List.Forall₂ (fun v part => Journal.ofItem year v.value = .ok part) w.items parts)

include h

/-- The amounts of one list of a journal, if each entry has those of its item. -/
theorem meansAmounts_openedBy {α : Type} {kind : Kind} {entries : Journal → List α}
    {r : Written.Item → α → Prop} {amounts : α → List Amount} (hlists : Lists year kind entries r)
    (hempty : entries .empty = []) (happend : ∀ j k, entries (j ++ k) = entries j ++ entries k)
    (hmean : ∀ v a, r v a → MeansAmounts v.amounts (amounts a)) :
    MeansAmounts ((w.openedBy kind).flatMap (·.value.amounts))
      ((entries (Journal.concat parts)).flatMap amounts) :=
  List.rel_flatMap (forall₂_concat hlists hempty happend h) fun v a hv => hmean v.value a hv

/-- **The amounts of a journal are the written ones that count**, each in its place. -/
theorem meansAmounts_counted : MeansAmounts w.counted (Journal.concat parts).amounts := by
  have htransactions : MeansAmounts ((w.openedBy .date).flatMap (·.value.amounts))
      ((Journal.concat parts).transactions.flatMap (·.postings.flatMap Posting.amounts)) :=
    meansAmounts_openedBy h lists_transactions rfl (fun _ _ => rfl)
      fun _ _ ⟨_, hv, ht⟩ => hv ▸ meansAmounts_transaction ht
  have hprices : MeansAmounts ((w.openedBy .priceKeyword).flatMap (·.value.amounts))
      ((Journal.concat parts).prices.map (·.amount)) := by
    rw [List.map_eq_flatMap]
    exact meansAmounts_openedBy h lists_prices rfl (fun _ _ => rfl)
      fun _ _ ⟨_, hv, hp⟩ => hv ▸ meansAmounts_price hp
  have hcommodities : MeansAmounts ((w.openedBy .commodityKeyword).flatMap (·.value.amounts))
      ((Journal.concat parts).commodities.flatMap (·.format.toList)) :=
    meansAmounts_openedBy h lists_commodities rfl (fun _ _ => rfl)
      fun _ _ ⟨_, hv, hc⟩ => hv ▸ meansAmounts_commodity hc
  have hdefault : MeansAmounts
      ((w.openedBy .defaultKeyword).getLast?.toList.flatMap (·.value.amounts))
      (Journal.concat parts).defaultCommodity.toList := by
    have hlast := rel_defaultCommodity h
    change Option.Rel _ (w.openedBy .defaultKeyword).getLast? _ at hlast
    generalize (w.openedBy .defaultKeyword).getLast? = last at hlast ⊢
    generalize (Journal.concat parts).defaultCommodity = amount at hlast ⊢
    cases hlast with
    | none => exact .nil
    | @some v a hmeans =>
      obtain ⟨u, hv, ha⟩ := hmeans
      rw [Option.toList_some, List.flatMap_singleton, hv]
      exact .cons ha .nil
  exact List.rel_append (List.rel_append (List.rel_append htransactions hprices) hcommodities)
    hdefault

end

theorem mem_amounts_of_mem_counted {w : Written.Journal} {a : Written.Amount}
    (h : a ∈ w.counted) : a ∈ w.amounts := by
  have hopened : ∀ {kind : Kind} {v : Located Written.Item}, v ∈ w.openedBy kind →
      a ∈ v.value.amounts → a ∈ w.amounts := fun hv ha =>
    List.mem_flatMap_of_mem (List.mem_of_mem_filter hv) ha
  simp only [Written.Journal.counted, List.mem_append, List.mem_flatMap, Option.mem_toList] at h
  rcases h with ((⟨v, hv, ha⟩ | ⟨v, hv, ha⟩) | ⟨v, hv, ha⟩) | ⟨v, hv, ha⟩
  · exact hopened hv ha
  · exact hopened hv ha
  · exact hopened hv ha
  · exact hopened (List.mem_of_getLast? hv) ha

/-! ## The amounts of a source -/

/-- **The numbers of a source are numerals.** -/
theorem isNumeral_of_mem_amounts {r : Reading Written.Journal} (h : readWritten source = .ok r)
    {a : Written.Amount} (ha : a ∈ r.result.amounts) : IsNumeral a.number.toList := by
  obtain ⟨us, hsub, tree, hus, rfl⟩ := told_of_readWritten (fun _ _ => tells_item) h ha
  obtain ⟨hmem, hkind⟩ : tree.number ∈ us ∧ tree.number.kind = .number := by
    cases Tree.Amount.mem_spellings_iff.mp hus <;> exact ⟨by simp, by assumption⟩
  obtain ⟨minus, digits, hdigits, -, hchunk⟩ := exists_number (hsub.subset hmem) hkind
  have himage : tree.number.image = String.ofList (signText minus ++ digits) := by
    rw [← String.toList_inj, String.toList_ofList]
    exact congrArg Chunk.text (hchunk [])
  obtain ⟨hnumeral, -, hminus⟩ := isNumeral_of_mem_numberText hdigits
  rw [Written.Amount.ofTree, himage, signText, splitMinus_number hminus, String.toList_ofList]
  exact hnumeral

/-- **Every amount of a journal has the sign with which it is written**, and the sign counts unless
the amount is zero. What is read back of the journal has no signs on zeros, and it is stored as
before exactly if no amount is shown with a minus that does not count. -/
theorem readJournal_signs (year : Int) {source : String} {r : Reading Journal}
    (h : readJournal year source = .ok r) :
    ∃ w, readWritten source = .ok (r.withResult w) ∧
      List.Forall₂ SignedAs w.counted r.result.amounts ∧
      decode (encode r.result) = some (r.result.mapAmounts .dropZeroSign) ∧
      (encode (r.result.mapAmounts .dropZeroSign) = encode r.result ↔
        ∀ a ∈ r.result.amounts, (ShowsMinus a.text ↔ a.isNegative)) := by
  obtain ⟨reading, hreading, hr⟩ := bind_eq_ok.mp h
  obtain ⟨j, hj, rfl⟩ := map_eq_ok.mp hr
  obtain ⟨parts, hparts, rfl⟩ := ofWritten_eq_ok_iff.mp hj
  have hnumerals : ∀ a ∈ reading.result.counted, IsNumeral a.number.toList := fun a ha =>
    isNumeral_of_mem_amounts hreading (mem_amounts_of_mem_counted ha)
  refine ⟨reading.result, hreading, ?_, ReadsAs.decode_encode _, encode_dropZeroSign_eq_iff _⟩
  exact ((List.forall₂_and_left _ _).mpr ⟨hnumerals, meansAmounts_counted hparts⟩).imp
    fun _ _ hw => signedAs_of_ofWritten hw.1 hw.2

/-! ## A zero with a minus -/

/-- A zero with a minus in front of its commodity, a lot price, and an assertion below zero. -/
def minusZero : String := "2020/01/01 x\n  A  -$0.00 @ 2.5 = -.5\n"

/-- The zero. -/
def minusZeroAmount : Amount :=
  ⟨{ Decimal.zero.negate with scale := 2, scale_le := by decide }, some "$"⟩

/-- The posting of it. -/
def minusZeroPosting : Posting where
  status := .unmarked
  account := ⟨.real, ["A"]⟩
  amount := some minusZeroAmount
  lotPrice := some ⟨false, false, ⟨⟨false, 25, 1, by decide, by decide⟩, none⟩⟩
  assertion := some ⟨false, false, ⟨⟨true, 5, 1, by decide, by decide⟩, none⟩⟩
  tags := []

/-- The journal of it, with the evaluation that reads it. -/
def minusZeroJournal : { j : Journal // readJournal 2024 minusZero = .ok ⟨j, [], []⟩ } :=
  ⟨.ofTransaction ((Transaction.blank ⟨2020, 1, 1, by decide⟩ (.plain "x")).addPosting
    minusZeroPosting), by decide +kernel⟩

theorem mem_amounts_minusZero : minusZeroAmount ∈ minusZeroJournal.1.amounts :=
  List.mem_cons_self

theorem showsMinus_minusZero : ShowsMinus minusZeroAmount.text ∧ ¬ minusZeroAmount.isNegative := by
  rw [Amount.showsMinus_text]
  decide

/-- Each of its amounts has its sign, and the journal is not stored as before. -/
theorem readJournal_signs_minusZero :
    readJournal 2024 minusZero = .ok ⟨minusZeroJournal.1, [], []⟩ ∧
      ∃ w, readWritten minusZero = .ok ⟨w, [], []⟩ ∧
        List.Forall₂ SignedAs w.counted minusZeroJournal.1.amounts ∧
        decode (encode minusZeroJournal.1) = some (minusZeroJournal.1.mapAmounts .dropZeroSign) ∧
        (encode (minusZeroJournal.1.mapAmounts .dropZeroSign) = encode minusZeroJournal.1 ↔
          ∀ a ∈ minusZeroJournal.1.amounts, (ShowsMinus a.text ↔ a.isNegative)) :=
  ⟨minusZeroJournal.2, readJournal_signs 2024 minusZeroJournal.2⟩

/-- A zero is shown with its minus and is not below zero, and its journal is stored in another way
once it has been read back. -/
theorem minus_zero_not_negative :
    ∃ r, readJournal 2024 minusZero = .ok r ∧
      (∃ a ∈ r.result.amounts, ShowsMinus a.text ∧ ¬ a.isNegative) ∧
      ∃ k : Journal, decode (encode r.result) = some k ∧ encode k ≠ encode r.result := by
  refine ⟨_, minusZeroJournal.2, ⟨_, mem_amounts_minusZero, showsMinus_minusZero⟩, _,
    ReadsAs.decode_encode _, ?_⟩
  rw [ne_eq, encode_dropZeroSign_eq_iff]
  exact fun hall => showsMinus_minusZero.2
    ((hall minusZeroAmount mem_amounts_minusZero).mp showsMinus_minusZero.1)

end Daybook
