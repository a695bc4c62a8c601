import Daybook.Journal.TermsJson
import Daybook.Written.Basic

/-!
# Written journals as JSON

The stored form of a raw journal ([SPEC 12.4]). Where a value can be one of several things its
object has a member `type`; the value's own members stand beside it, or in one member if it is no
object.

Out of scope: structures that are stored as arrays, and variants that are stored as numbers.
-/

namespace Daybook.Written

instance : JsonForm Sign where
  encode
    | .positive => .string "Positive"
    | .negative => .string "Negative"
  decode j :=
    match j.name? with
    | some "Positive" => some .positive
    | some "Negative" => some .negative
    | _ => none

instance : JsonForm Amount where
  encode a := .object
    [("sign", encode a.sign), ("number", encode a.number), ("commodity", encode a.commodity),
     ("text", encode a.text)]
  decode j :=
    return ⟨← j.read "sign", ← j.read "number", ← j.read "commodity", ← j.read "text"⟩

instance : JsonForm NamedAmount where
  encode a := .object
    [("sign", encode a.sign), ("number", encode a.number), ("commodity", encode a.commodity),
     ("text", encode a.text)]
  decode j :=
    return ⟨← j.read "sign", ← j.read "number", ← j.read "commodity", ← j.read "text"⟩

instance : JsonForm CommentPart where
  encode
    | .text text => .object [("type", .string "text"), ("value", encode text)]
    | .tag tag => .object [("type", .string "tag"), ("value", encode tag)]
  decode j :=
    match (j.get "type").name? with
    | some "text" => return .text (← j.read "value")
    | some "tag" => return .tag (← j.read "value")
    | _ => none

instance : JsonForm Comment where
  encode c := .object [("items", encode c.parts)]
  decode j := return ⟨← j.read "items"⟩

/-- An account of a written journal: its kind, and the names along its path. -/
@[reducible] def writtenAccountForm : JsonForm Account where
  encode a :=
    let kind := match a.kind with
      | .real => "real"
      | .virtual => "virtual"
      | .balanced => "virtualBalanced"
    .object [("type", .string kind), ("segments", encode a.path)]
  decode j := do
    let kind ← match (j.get "type").name? with
      | some "real" => some AccountKind.real
      | some "virtual" => some .virtual
      | some "virtualBalanced" => some .balanced
      | _ => none
    return ⟨kind, ← j.read "segments"⟩

instance : JsonForm Posting where
  encode p := .object
    [("status", encode p.status), ("account", writtenAccountForm.encode p.account),
     ("amount", encode p.amount), ("lot_price", encode p.lotPrice),
     ("assertion", encode p.assertion), ("comment", encode p.comment)]
  decode j := return {
    status := ← j.read "status"
    account := ← writtenAccountForm.decode (j.get "account")
    amount := ← j.read "amount"
    lotPrice := ← j.read "lot_price"
    assertion := ← j.read "assertion"
    comment := ← j.read "comment" }

/-- A line's tag may be given by its place among the two, counted from 0. -/
instance : JsonForm Content where
  encode
    | .posting posting => (encode posting).tagged "posting"
    | .comment comment => (encode comment).tagged "comment"
  decode j :=
    match j.get "type" with
    | .string "posting" | .number 0 0 => (decode j).map .posting
    | .string "comment" | .number 1 0 => (decode j).map .comment
    | _ => none

instance : JsonForm Transaction where
  encode t := .object
    [("date", encode t.date), ("posting_date", encode t.secondDate), ("status", encode t.status),
     ("cheque_number", encode t.chequeNumber), ("description", encode t.description),
     ("comment", encode t.comment), ("content_lines", encode t.lines)]
  decode j := return {
    date := ← j.read "date"
    secondDate := ← j.read "posting_date"
    status := ← j.read "status"
    chequeNumber := ← j.read "cheque_number"
    description := ← j.read "description"
    comment := ← j.read "comment"
    lines := ← j.read "content_lines" }

instance : JsonForm LineComment where
  encode c := .object [("marker", encode c.marker), ("text", encode c.text)]
  decode j := return ⟨← j.read "marker", ← j.read "text"⟩

instance : JsonForm PriceDirective where
  encode p := .object
    [("date", encode p.date), ("commodity", encode p.commodity), ("amount", encode p.amount),
     ("comment", encode p.comment)]
  decode j :=
    return ⟨← j.read "date", ← j.read "commodity", ← j.read "amount", ← j.read "comment"⟩

instance : JsonForm AccountDirective where
  encode a := .object
    [("account", encode a.path), ("comment", encode a.comment), ("content_lines", encode a.lines)]
  decode j := return ⟨← j.read "account", ← j.read "comment", ← j.read "content_lines"⟩

instance : JsonForm Declaration where
  encode
    | .name commodity => .object [("type", .string "text"), ("value", encode commodity)]
    | .amount amount => .object [("type", .string "amount"), ("value", encode amount)]
  decode j :=
    match (j.get "type").name? with
    | some "text" => return .name (← j.read "value")
    | some "amount" => return .amount (← j.read "value")
    | _ => none

instance : JsonForm CommodityContent where
  encode
    | .format amount => .object [("type", .string "format"), ("value", encode amount)]
    | .comment comment => .object [("type", .string "comment"), ("value", encode comment)]
  decode j :=
    match (j.get "type").name? with
    | some "format" => return .format (← j.read "value")
    | some "comment" => return .comment (← j.read "value")
    | _ => none

instance : JsonForm CommodityDirective where
  encode c := .object
    [("commodity", encode c.declaration), ("comment", encode c.comment),
     ("content_lines", encode c.lines)]
  decode j := return ⟨← j.read "commodity", ← j.read "comment", ← j.read "content_lines"⟩

instance : JsonForm DefaultDirective where
  encode d := .object
    [("amount", encode d.amount), ("comment", encode d.comment), ("content_lines", encode d.lines)]
  decode j := return ⟨← j.read "amount", ← j.read "comment", ← j.read "content_lines"⟩

instance : JsonForm Item where
  encode
    | .transaction t => (encode t).tagged "transaction"
    | .lineComment c => (encode c).tagged "lineComment"
    | .price p => (encode p).tagged "priceDirective"
    | .account a => (encode a).tagged "accountDirective"
    | .commodity c => (encode c).tagged "commodityDirective"
    | .defaultCommodity d => (encode d).tagged "defaultCommodityDirective"
  decode j :=
    match j.tag? with
    | some "transaction" => (decode j).map .transaction
    | some "lineComment" => (decode j).map .lineComment
    | some "priceDirective" => (decode j).map .price
    | some "accountDirective" => (decode j).map .account
    | some "commodityDirective" => (decode j).map .commodity
    | some "defaultCommodityDirective" => (decode j).map .defaultCommodity
    | _ => none

instance : JsonForm Journal where
  encode journal := .object [("items", encode journal.items)]
  decode j := return ⟨← j.read "items"⟩

end Daybook.Written
