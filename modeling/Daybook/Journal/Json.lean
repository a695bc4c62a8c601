import Daybook.Journal.Basic
import Daybook.Journal.TermsJson

/-!
# Journals as JSON

The stored form of a cooked journal ([SPEC 12.4]). A date is stored in standard form and a quantity
as text with all its places.

Out of scope: quantities that are stored as JSON numbers.
-/

namespace Daybook

instance : JsonForm Date where
  encode d := .string d.text
  decode
    | .string text => Date.ofText? text
    | _ => none

instance : JsonForm Decimal where
  encode d := .string d.text
  decode
    | .string text => Decimal.ofText? text
    | _ => none

instance : JsonForm Amount where
  encode a := .object [("quantity", encode a.quantity), ("commodity", encode a.commodity)]
  decode j := return ⟨← j.read "quantity", ← j.read "commodity"⟩

/-- An account: the names along its path, in a member named for its kind. -/
@[reducible] def accountForm : JsonForm Account where
  encode a :=
    let kind := match a.kind with
      | .real => "Real"
      | .virtual => "Virtual"
      | .balanced => "VirtualBalanced"
    .object [(kind, encode a.path)]
  decode
    | .object [("Real", path)] => (decode path).map (⟨.real, ·⟩)
    | .object [("Virtual", path)] => (decode path).map (⟨.virtual, ·⟩)
    | .object [("VirtualBalanced", path)] => (decode path).map (⟨.balanced, ·⟩)
    | _ => none

instance : JsonForm Posting where
  encode p := .object
    [("status", encode p.status), ("account", accountForm.encode p.account),
     ("amount", encode p.amount), ("lot_price", encode p.lotPrice),
     ("assertion", encode p.assertion), ("tags", encode p.tags)]
  decode j := return {
    status := ← j.read "status"
    account := ← accountForm.decode (j.get "account")
    amount := ← j.read "amount"
    lotPrice := ← j.read "lot_price"
    assertion := ← j.read "assertion"
    tags := ← j.read "tags" }

instance : JsonForm Transaction where
  encode t := .object
    [("date", encode t.date), ("posting_date", encode t.secondDate), ("status", encode t.status),
     ("code", encode t.chequeNumber), ("description", encode t.description),
     ("postings", encode t.postings), ("tags", encode t.tags)]
  decode j := return {
    date := ← j.read "date"
    secondDate := ← j.read "posting_date"
    status := ← j.read "status"
    chequeNumber := ← j.read "code"
    description := ← j.read "description"
    postings := ← j.read "postings"
    tags := ← j.read "tags" }

instance : JsonForm AccountEntry where
  encode a := .object [("path", encode a.path), ("tags", encode a.tags)]
  decode j := return ⟨← j.read "path", ← j.read "tags"⟩

instance : JsonForm Price where
  encode p := .object
    [("date", encode p.date), ("commodity", encode p.commodity), ("amount", encode p.amount)]
  decode j := return ⟨← j.read "date", ← j.read "commodity", ← j.read "amount"⟩

instance : JsonForm CommodityEntry where
  encode c := .object
    [("commodity", encode c.commodity), ("format", encode c.format), ("tags", encode c.tags)]
  decode j := return ⟨← j.read "commodity", ← j.read "format", ← j.read "tags"⟩

instance : JsonForm Journal where
  encode j := .object
    [("transactions", encode j.transactions), ("accounts", encode j.accounts),
     ("prices", encode j.prices), ("commodities", encode j.commodities),
     ("default_commodity", encode j.defaultCommodity)]
  decode j := return {
    transactions := ← j.read "transactions"
    accounts := ← j.read "accounts"
    prices := ← j.read "prices"
    commodities := ← j.read "commodities"
    defaultCommodity := ← j.read "default_commodity" }

end Daybook
