import Daybook.Journal.Terms
import Daybook.Span

/-!
# Journals as they are written

Model of the raw journal (`value`, `to_amount`, `tags`, `commodity`; [SPEC 3]). A written journal
says what a source says, in the source's own words: dates and numbers are still texts, and tags
stand in the comments in which they were written.
-/

namespace Daybook.Written

/-- Whether an amount is written with a minus sign. -/
inductive Sign
  /-- Without. -/
  | positive
  /-- With. -/
  | negative
deriving DecidableEq, Repr

/-- The sign in front of a number. -/
def Sign.text : Sign → String
  | positive => ""
  | negative => "-"

/-- An amount. -/
structure Amount where
  /-- Its sign. -/
  sign : Sign
  /-- Its number without the sign. -/
  number : String
  /-- Its commodity without quotes. -/
  commodity : Option String
  /-- The whole amount as it was written. -/
  text : String
deriving DecidableEq, Repr

/-- The number with its sign. -/
def Amount.value (a : Amount) : String := a.sign.text ++ a.number

/-- An amount that has a commodity. -/
structure NamedAmount where
  /-- Its sign. -/
  sign : Sign
  /-- Its number without the sign. -/
  number : String
  /-- Its commodity without quotes. -/
  commodity : String
  /-- The whole amount as it was written. -/
  text : String
deriving DecidableEq, Repr

/-- The amount, whose commodity happens to be there. -/
def NamedAmount.toAmount (a : NamedAmount) : Amount := ⟨a.sign, a.number, some a.commodity, a.text⟩

/-- The amount, if it has a commodity. -/
def Amount.named? (a : Amount) : Option NamedAmount :=
  a.commodity.map fun commodity => ⟨a.sign, a.number, commodity, a.text⟩

theorem Amount.named?_toAmount {a : Amount} {n : NamedAmount} (h : a.named? = some n) :
    n.toAmount = a := by
  obtain ⟨commodity, hc, rfl⟩ := Option.map_eq_some_iff.mp h
  cases a
  simp_all [NamedAmount.toAmount]

/-- A part of a comment. -/
inductive CommentPart
  /-- Free text. -/
  | text (text : String)
  /-- A tag. -/
  | tag (tag : Tag)
deriving DecidableEq, Repr

/-- A comment. -/
structure Comment where
  /-- What it holds, in order. -/
  parts : List CommentPart
deriving DecidableEq, Repr

/-- The tag in a part of a comment. -/
def CommentPart.tag? : CommentPart → Option Tag
  | text _ => none
  | tag t => some t

/-- The tags of a comment, in order. -/
def Comment.tags (c : Comment) : List Tag := c.parts.filterMap CommentPart.tag?

/-- A posting. -/
structure Posting where
  /-- Its status. -/
  status : Status
  /-- Its account. -/
  account : Account
  /-- Its amount. -/
  amount : Option Amount
  /-- Its lot price. -/
  lotPrice : Option (LotPrice Amount)
  /-- The balance asserted after it. -/
  assertion : Option (Assertion Amount)
  /-- The comment after it. -/
  comment : Option Comment
deriving DecidableEq, Repr

/-- What stands on a line under a transaction. -/
inductive Content
  /-- A posting. -/
  | posting (posting : Posting)
  /-- A comment. -/
  | comment (comment : Comment)
deriving DecidableEq, Repr

/-- A transaction. -/
structure Transaction where
  /-- Its date. -/
  date : String
  /-- Its second date. -/
  secondDate : Option String
  /-- Its status. -/
  status : Status
  /-- The cheque number. -/
  chequeNumber : Option String
  /-- What it is for. -/
  description : Option Description
  /-- The comment in its first line. -/
  comment : Option Comment
  /-- The lines under it. -/
  lines : List Content
deriving DecidableEq, Repr

/-- A line that is a comment. -/
structure LineComment where
  /-- The sign that opens it. -/
  marker : Char
  /-- Its text. -/
  text : String
deriving DecidableEq, Repr

/-- The price of a commodity on a day. -/
structure PriceDirective where
  /-- The day. -/
  date : String
  /-- The commodity. -/
  commodity : String
  /-- Its price. -/
  amount : Amount
  /-- The comment after it. -/
  comment : Option Comment
deriving DecidableEq, Repr

/-- The declaration of an account. -/
structure AccountDirective where
  /-- The names along its path. -/
  path : List String
  /-- The comment after it. -/
  comment : Option Comment
  /-- The comments under it. -/
  lines : List Comment
deriving DecidableEq, Repr

/-- How a commodity is declared. -/
inductive Declaration
  /-- By its name. -/
  | name (commodity : String)
  /-- By an amount that shows its format. -/
  | amount (amount : NamedAmount)
deriving DecidableEq, Repr

/-- The commodity declared. -/
def Declaration.commodity : Declaration → String
  | name commodity => commodity
  | amount shown => shown.commodity

/-- What stands on a line under a commodity. -/
inductive CommodityContent
  /-- A format. -/
  | format (amount : NamedAmount)
  /-- A comment. -/
  | comment (comment : Comment)
deriving DecidableEq, Repr

/-- The format on a line. -/
def CommodityContent.format? : CommodityContent → Option NamedAmount
  | format shown => some shown
  | comment _ => none

/-- The tags on a line. -/
def CommodityContent.tags : CommodityContent → List Tag
  | format _ => []
  | comment c => c.tags

/-- The declaration of a commodity. -/
structure CommodityDirective where
  /-- What is declared. -/
  declaration : Declaration
  /-- The comment after it. -/
  comment : Option Comment
  /-- The lines under it. -/
  lines : List CommodityContent
deriving DecidableEq, Repr

/-- The default commodity. -/
structure DefaultDirective where
  /-- The amount that shows its format. -/
  amount : NamedAmount
  /-- The comment after it. -/
  comment : Option Comment
  /-- The comments under it. -/
  lines : List Comment
deriving DecidableEq, Repr

/-- An item of a journal. -/
inductive Item
  /-- A transaction. -/
  | transaction (transaction : Transaction)
  /-- A line that is a comment. -/
  | lineComment (comment : LineComment)
  /-- A price. -/
  | price (directive : PriceDirective)
  /-- The declaration of an account. -/
  | account (directive : AccountDirective)
  /-- The declaration of a commodity. -/
  | commodity (directive : CommodityDirective)
  /-- The default commodity. -/
  | defaultCommodity (directive : DefaultDirective)
deriving DecidableEq, Repr

/-- A journal as it is written. -/
structure Journal where
  /-- Its items, in order, each with the place where it stands. -/
  items : List (Located Item)
deriving DecidableEq, Repr

end Daybook.Written
