import Daybook.Journal.Fault
import Daybook.Tree.Segment
import Daybook.Written.Basic

/-!
# What a tree says

Model of the first lowering, from `lower_journal` down to `lower_amount`, `surface_text` and
`lower_commodity_amount` ([SPEC 4.3]): one function for each node. A tree is read off word by word.
The only thing that can be wrong is an amount that declares a commodity and names none.
-/

namespace Daybook.Written

/-- The sign of a number: a dash before the commodity and a minus before the number undo each
other. -/
def signOf (dash minus : Bool) : Sign := if dash = minus then .positive else .negative

/-- Whether a number has a minus, and the number without it. -/
def splitMinus (image : String) : Bool × String :=
  match image.toList with
  | '-' :: digits => (true, String.ofList digits)
  | _ => (false, image)

/-- Token texts in order, with one space where something lies between two of them. -/
def joinImages : List Token → String
  | [] => ""
  | [t] => t.image
  | t :: u :: ts => t.image ++ (if t.stop < u.offset then " " else "") ++ joinImages (u :: ts)

/-- The text of an amount: its tokens in the order of the source. -/
def amountText (a : Tree.Amount) : String :=
  joinImages ((a.dash.toList ++ a.commodity.toList ++ [a.number]).mergeSort fun t u =>
    t.offset ≤ u.offset)

/-- The amount that a tree says. -/
def Amount.ofTree (a : Tree.Amount) : Amount :=
  let (minus, number) := splitMinus a.number.image
  ⟨signOf a.dash.isSome minus, number, a.commodity.map (·.text), amountText a⟩

/-- The amount that a tree says, which has to name a commodity. -/
def NamedAmount.ofTree (a : Tree.Amount) : Except JournalFault NamedAmount :=
  match (Amount.ofTree a).named? with
  | some amount => .ok amount
  | none => .error .missingCommodity

/-- The comment that a tree says. -/
def Comment.ofTree (c : Tree.Comment) : Comment :=
  ⟨c.parts.map fun
    | .text token => .text token.image
    | .tag tag => .tag ⟨tag.name.image, tag.value.map (·.image)⟩⟩

/-- The comments on content lines. -/
def commentsOfTree (lines : List (Tree.Line Tree.Comment)) : List Comment :=
  lines.map fun line => .ofTree line.body

/-- The status that a sign says. -/
def statusOfTree : Option Token → Status
  | none => .unmarked
  | some t =>
    match t.kind with
    | .exclamation => .pending
    | .asterisk => .cleared
    | _ => .unmarked

/-- The account that a token says. -/
def accountOfTree (t : Token) : Account :=
  match t.kind with
  | .virtualAccount => ⟨.virtual, t.segments⟩
  | .balancedAccount => ⟨.balanced, t.segments⟩
  | _ => ⟨.real, t.segments⟩

/-- The description that a tree says. Only the first bar divides it. -/
def descriptionOfTree (d : Tree.Description) : Description :=
  match d.memo with
  | none => .plain d.text.image
  | some memo => .payeeMemo d.text.image ((memo.text.map (·.image)).getD "")

/-- The lot price that a tree says. -/
def lotPriceOfTree (l : Tree.LotPrice) : LotPrice Amount :=
  ⟨l.second.isSome, l.parens.isSome, .ofTree l.amount⟩

/-- The assertion that a tree says. -/
def assertionOfTree (a : Tree.Assertion) : Assertion Amount :=
  ⟨a.second.isSome, a.asterisk.isSome, .ofTree a.amount⟩

/-- The posting that a tree says. -/
def Posting.ofTree (p : Tree.Posting) : Posting where
  status := statusOfTree p.status
  account := accountOfTree p.account
  amount := p.amount.map .ofTree
  lotPrice := p.lotPrice.map lotPriceOfTree
  assertion := p.assertion.map assertionOfTree
  comment := p.comment.map .ofTree

/-- The content line that a tree says. -/
def Content.ofTree : Tree.Content → Content
  | .posting p => .posting (.ofTree p)
  | .comment c => .comment (.ofTree c)

/-- The transaction that a tree says. -/
def Transaction.ofTree (t : Tree.Transaction) : Transaction where
  date := t.date.image
  secondDate := t.secondDate.map (·.date.image)
  status := statusOfTree t.status
  chequeNumber := t.chequeNumber.map (·.text)
  description := t.description.map descriptionOfTree
  comment := t.comment.map .ofTree
  lines := t.lines.map fun line => .ofTree line.body

/-- The comment line that a tree says. -/
def LineComment.ofTree (c : Tree.LineComment) : LineComment where
  marker := c.marker.image.toList.head?.getD ';'
  text := (c.text.map (·.image)).getD ""

/-- The price that a tree says. -/
def PriceDirective.ofTree (p : Tree.PriceDirective) : PriceDirective where
  date := p.date.image
  commodity := p.commodity.text
  amount := .ofTree p.amount
  comment := p.comment.map .ofTree

/-- The account declaration that a tree says. -/
def AccountDirective.ofTree (a : Tree.AccountDirective) : AccountDirective where
  path := a.account.segments
  comment := a.comment.map .ofTree
  lines := commentsOfTree a.lines

/-- The declaration that a tree says. -/
def Declaration.ofTree : Tree.Declaration → Except JournalFault Declaration
  | .amount a => .amount <$> NamedAmount.ofTree a
  | .name token => .ok (.name token.text)

/-- The line under a commodity that a tree says. -/
def CommodityContent.ofTree : Tree.CommodityContent → Except JournalFault CommodityContent
  | .format f => .format <$> NamedAmount.ofTree f.amount
  | .comment c => .ok (.comment (.ofTree c))

/-- The commodity declaration that a tree says. -/
def CommodityDirective.ofTree (c : Tree.CommodityDirective) :
    Except JournalFault CommodityDirective := do
  let declaration ← Declaration.ofTree c.declaration
  let lines ← c.lines.mapM fun line => CommodityContent.ofTree line.body
  return ⟨declaration, c.comment.map .ofTree, lines⟩

/-- The default commodity that a tree says. -/
def DefaultDirective.ofTree (d : Tree.DefaultDirective) : Except JournalFault DefaultDirective := do
  let amount ← NamedAmount.ofTree d.amount
  return ⟨amount, d.comment.map .ofTree, commentsOfTree d.lines⟩

/-- The item that a tree says. -/
def Item.ofTree : Tree.Item → Except JournalFault Item
  | .transaction t => .ok (.transaction (.ofTree t))
  | .lineComment c => .ok (.lineComment (.ofTree c))
  | .price p => .ok (.price (.ofTree p))
  | .account a => .ok (.account (.ofTree a))
  | .commodity c => .commodity <$> CommodityDirective.ofTree c
  | .defaultCommodity d => .defaultCommodity <$> DefaultDirective.ofTree d

/-- The journal that the items of a tree say, each in its place. -/
def Journal.ofTree (items : List (Located Tree.Item)) : Except JournalFault Journal := do
  let items ← items.mapM fun x => do
    let item ← Item.ofTree x.value
    return (⟨item, x.span⟩ : Located Item)
  return ⟨items⟩

end Daybook.Written
