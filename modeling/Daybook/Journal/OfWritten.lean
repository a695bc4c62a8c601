import Daybook.Journal.Basic
import Daybook.Journal.Fault
import Daybook.Written.Basic

/-!
# What a written journal means

Model of the second lowering (`lower_journal`, `cook_transaction`, `cook_posting`, `cook_price`,
`cook_account`, `cook_commodity`, `cook_amount`, `cook_quantity`; [SPEC 4.4], [SPEC 13]). The
journal grows item by item, and the first fault in the order of the source refuses the whole.

* `Transaction.ofWritten` is the loop of `cook_transaction` over a transaction that grows line by
  line (`addLine`): a posting is put behind the others, and a comment hands its tags to the last
  posting, or to the transaction if there is none.
* `Journal.ofWritten` is the loop of `lower_journal` (`addItem`): each item adds one entry, or takes
  the place of the default commodity.
* A commodity has its format from its declaration or from one line under it, not from both; a line
  under it has to name the same commodity.

Out of scope: log events ([SPEC 12.1]). The default year is an argument, so nothing asks for the
current one ([SPEC 12.3]).
-/

namespace Daybook

/-- The digits of a number as a decimal spells them: without commas, and with a digit in front of
the point. -/
def spelledNumber (number : String) : List Char :=
  match number.toList.filter (· ≠ ',') with
  | '.' :: fraction => '0' :: '.' :: fraction
  | digits => digits

/-- The quantity of an amount. -/
def Decimal.ofWritten (a : Written.Amount) : Except JournalFault Decimal :=
  match Decimal.ofChars? (spelledNumber a.number) with
  | none => .error (.invalidNumber a.value)
  | some quantity => .ok (if a.sign = .negative then quantity.negate else quantity)

/-- The meaning of an amount. -/
def Amount.ofWritten (a : Written.Amount) : Except JournalFault Amount := do
  return ⟨← Decimal.ofWritten a, a.commodity⟩

/-- The meaning of something that may be missing. -/
def optionally {α β : Type} (f : α → Except JournalFault β) :
    Option α → Except JournalFault (Option β)
  | none => .ok none
  | some a => some <$> f a

/-- The meaning of a lot price. -/
def LotPrice.ofWritten (l : LotPrice Written.Amount) : Except JournalFault (LotPrice Amount) := do
  return ⟨l.isTotal, l.isVirtual, ← Amount.ofWritten l.amount⟩

/-- The meaning of an assertion. -/
def Assertion.ofWritten (a : Assertion Written.Amount) :
    Except JournalFault (Assertion Amount) := do
  return ⟨a.isStrong, a.withSubaccounts, ← Amount.ofWritten a.amount⟩

/-- The tags of a comment that may be missing. -/
def tagsOf (comment : Option Written.Comment) : List Tag :=
  match comment with
  | none => []
  | some c => c.tags

/-- The meaning of a posting, with the tags of its own line. -/
def Posting.ofWritten (p : Written.Posting) : Except JournalFault Posting := do
  let amount ← optionally Amount.ofWritten p.amount
  let lotPrice ← optionally LotPrice.ofWritten p.lotPrice
  let assertion ← optionally Assertion.ofWritten p.assertion
  return ⟨p.status, p.account, amount, lotPrice, assertion, tagsOf p.comment⟩

/-- The day that a text names. -/
def dateOfWritten (year : Int) (text : String) : Except JournalFault Date :=
  match Date.resolve text year with
  | .ok date => .ok date
  | .error fault => .error (.invalidDate text fault)

namespace Transaction

/-- The meaning of the first line of a transaction, where a missing year is this one. -/
def ofHeader (year : Int) (w : Written.Transaction) : Except JournalFault Transaction := do
  let date ← dateOfWritten year w.date
  let secondDate ← optionally (dateOfWritten year) w.secondDate
  return { blank date (w.description.getD .empty) with
    secondDate
    status := w.status
    chequeNumber := w.chequeNumber
    tags := tagsOf w.comment }

/-- The transaction with more tags on what stands last in it: on its last posting, or on itself as
long as it has none. -/
def tagLast (t : Transaction) (tags : List Tag) : Transaction :=
  match t.postings.getLast? with
  | none => { t with tags := t.tags ++ tags }
  | some p => { t with postings := t.postings.dropLast ++ [{ p with tags := p.tags ++ tags }] }

/-- The transaction with one more line under it. -/
def addLine (t : Transaction) : Written.Content → Except JournalFault Transaction
  | .posting p => t.addPosting <$> Posting.ofWritten p
  | .comment c => .ok (t.tagLast c.tags)

/-- The meaning of a transaction, where a missing year is this one. -/
def ofWritten (year : Int) (w : Written.Transaction) : Except JournalFault Transaction := do
  w.lines.foldlM addLine (← ofHeader year w)

end Transaction

/-- The meaning of a price, where a missing year is this one. -/
def Price.ofWritten (year : Int) (p : Written.PriceDirective) : Except JournalFault Price := do
  let date ← dateOfWritten year p.date
  return ⟨date, p.commodity, ← Amount.ofWritten p.amount⟩

/-- The meaning of an account declaration. -/
def AccountEntry.ofWritten (a : Written.AccountDirective) : AccountEntry :=
  ⟨a.path, tagsOf a.comment ++ a.lines.flatMap Written.Comment.tags⟩

/-- The amount that shows the format of a commodity, from its declaration and the formats under
it. -/
def formatOf (declaration : Written.Declaration) :
    List Written.NamedAmount → Except JournalFault (Option Written.NamedAmount)
  | [] =>
    match declaration with
    | .name _ => .ok none
    | .amount shown => .ok (some shown)
  | [format] =>
    match declaration with
    | .name declared =>
      if format.commodity = declared then .ok (some format)
      else .error (.otherCommodity declared format.commodity)
    | .amount shown => .error (.conflictingFormat shown.commodity)
  | formats => .error (.manyFormats declaration.commodity formats.length)

/-- The meaning of a commodity declaration. -/
def CommodityEntry.ofWritten (c : Written.CommodityDirective) :
    Except JournalFault CommodityEntry := do
  let shown ← formatOf c.declaration (c.lines.filterMap Written.CommodityContent.format?)
  let format ← optionally (fun a => Amount.ofWritten a.toAmount) shown
  return ⟨c.declaration.commodity, format,
    tagsOf c.comment ++ c.lines.flatMap Written.CommodityContent.tags⟩

namespace Journal

/-- The journal with one more item in it, where a missing year is this one. A default commodity
takes the place of the one before it. -/
def addItem (year : Int) (j : Journal) : Written.Item → Except JournalFault Journal
  | .transaction t => do
    return { j with transactions := j.transactions ++ [← Transaction.ofWritten year t] }
  | .lineComment _ => .ok j
  | .price p => do return { j with prices := j.prices ++ [← Price.ofWritten year p] }
  | .account a => .ok { j with accounts := j.accounts ++ [AccountEntry.ofWritten a] }
  | .commodity c => do
    return { j with commodities := j.commodities ++ [← CommodityEntry.ofWritten c] }
  | .defaultCommodity d => do
    return { j with defaultCommodity := some (← Amount.ofWritten d.amount.toAmount) }

/-- The journal that a written journal means, where a missing year is this one. -/
def ofWritten (year : Int) (w : Written.Journal) : Except JournalFault Journal :=
  w.items.foldlM (fun j x => j.addItem year x.value) empty

end Journal

end Daybook
