import Daybook.Token.Basic

/-!
# Parse trees

Model of the concrete syntax tree ([SPEC 3], [SPEC 4.2]). A parse tree keeps every token that it was
read from, line breaks and signs included. There is one type for each rule of the grammar; tokens
that come only together are kept together.
-/

namespace Daybook.Tree

/-- A tag: `name:`, then perhaps a value, then perhaps a comma. -/
structure Tag where
  /-- Its name. -/
  name : Token
  /-- The colon after the name. -/
  colon : Token
  /-- Its value. -/
  value : Option Token
  /-- The comma after it. -/
  comma : Option Token
deriving DecidableEq

/-- A part of an inline comment. -/
inductive CommentPart
  /-- Free text. -/
  | text (token : Token)
  /-- A tag. -/
  | tag (tag : Tag)
deriving DecidableEq

/-- An inline comment. -/
structure Comment where
  /-- The sign that opens it. -/
  semicolon : Token
  /-- What it holds, in order. -/
  parts : List CommentPart
deriving DecidableEq

/-- An amount: a number with a commodity before or after it, or without one. A dash stands only
before a commodity. -/
structure Amount where
  /-- The sign in front of the commodity. -/
  dash : Option Token
  /-- The commodity. -/
  commodity : Option Token
  /-- The number. -/
  number : Token
deriving DecidableEq

/-- The smallest span that covers the amount. -/
def Amount.span (a : Amount) : Span :=
  (a.dash.toList ++ a.commodity.toList).foldl (fun s t => s.merge t.span) a.number.span

/-- A lot price: `@` or `@@`, perhaps in parentheses, and an amount. -/
structure LotPrice where
  /-- The parentheses. -/
  parens : Option (Token × Token)
  /-- The sign. -/
  sign : Token
  /-- The sign that doubles it. -/
  second : Option Token
  /-- The price. -/
  amount : Amount
deriving DecidableEq

/-- A balance assertion: `=` or `==`, perhaps `*`, and an amount. -/
structure Assertion where
  /-- The sign. -/
  sign : Token
  /-- The sign that doubles it. -/
  second : Option Token
  /-- The sign that takes in the accounts below. -/
  asterisk : Option Token
  /-- The balance. -/
  amount : Amount
deriving DecidableEq

/-- A posting, without its indentation and its line break. -/
structure Posting where
  /-- Its status sign. -/
  status : Option Token
  /-- The account. -/
  account : Token
  /-- The amount. -/
  amount : Option Amount
  /-- The lot price. -/
  lotPrice : Option LotPrice
  /-- The balance asserted after it. -/
  assertion : Option Assertion
  /-- The comment after it. -/
  comment : Option Comment
deriving DecidableEq

/-- A content line: indentation, something on it, and the line break. -/
structure Line (α : Type) where
  /-- The indentation. -/
  indent : Token
  /-- What stands on the line. -/
  body : α
  /-- The line break. -/
  newline : Token
deriving DecidableEq

/-- What stands on a content line of a transaction. -/
inductive Content
  /-- A posting. -/
  | posting (posting : Posting)
  /-- A comment. -/
  | comment (comment : Comment)
deriving DecidableEq

/-- The second date of a transaction, with the sign before it. -/
structure SecondDate where
  /-- The sign. -/
  equals : Token
  /-- The date. -/
  date : Token
deriving DecidableEq

/-- The memo of a description, with the bar before it. -/
structure Memo where
  /-- The bar. -/
  pipe : Token
  /-- The text. -/
  text : Option Token
deriving DecidableEq

/-- The description of a transaction. -/
structure Description where
  /-- The text in front of the bar. -/
  text : Token
  /-- The memo. -/
  memo : Option Memo
deriving DecidableEq

/-- A transaction. -/
structure Transaction where
  /-- Its date. -/
  date : Token
  /-- Its second date. -/
  secondDate : Option SecondDate
  /-- Its status sign. -/
  status : Option Token
  /-- The cheque number. -/
  chequeNumber : Option Token
  /-- The description. -/
  description : Option Description
  /-- The comment in its first line. -/
  comment : Option Comment
  /-- The break of the first line. -/
  newline : Token
  /-- The lines under it. -/
  lines : List (Line Content)
deriving DecidableEq

/-- A line that is a comment. -/
structure LineComment where
  /-- The sign that opens it. -/
  marker : Token
  /-- Its text. -/
  text : Option Token
  /-- The line break. -/
  newline : Token
deriving DecidableEq

/-- The price of a commodity on a day. -/
structure PriceDirective where
  /-- `P` -/
  keyword : Token
  /-- The day. -/
  date : Token
  /-- The commodity. -/
  commodity : Token
  /-- Its price. -/
  amount : Amount
  /-- The comment after it. -/
  comment : Option Comment
  /-- The line break. -/
  newline : Token
deriving DecidableEq

/-- The declaration of an account. -/
structure AccountDirective where
  /-- `account` -/
  keyword : Token
  /-- The account. -/
  account : Token
  /-- The comment after it. -/
  comment : Option Comment
  /-- The break of the first line. -/
  newline : Token
  /-- The comments under it. -/
  lines : List (Line Comment)
deriving DecidableEq

/-- How a commodity is declared: by an amount that shows its format, or by its name. -/
inductive Declaration
  /-- By an amount. -/
  | amount (amount : Amount)
  /-- By its name. -/
  | name (token : Token)
deriving DecidableEq

/-- A format, under a commodity. -/
structure Format where
  /-- `format` -/
  keyword : Token
  /-- The amount that shows it. -/
  amount : Amount
deriving DecidableEq

/-- What stands on a content line of a commodity. -/
inductive CommodityContent
  /-- A format. -/
  | format (format : Format)
  /-- A comment. -/
  | comment (comment : Comment)
deriving DecidableEq

/-- The declaration of a commodity. Its first line may lack the break. -/
structure CommodityDirective where
  /-- `commodity` -/
  keyword : Token
  /-- What is declared. -/
  declaration : Declaration
  /-- The comment after it. -/
  comment : Option Comment
  /-- The break of the first line. -/
  newline : Option Token
  /-- The lines under it. -/
  lines : List (Line CommodityContent)
deriving DecidableEq

/-- The default commodity. -/
structure DefaultDirective where
  /-- `D` -/
  keyword : Token
  /-- The amount that shows its format. -/
  amount : Amount
  /-- The comment after it. -/
  comment : Option Comment
  /-- The break of the first line. -/
  newline : Token
  /-- The comments under it. -/
  lines : List (Line Comment)
deriving DecidableEq

/-- An item of a journal. -/
inductive Item
  /-- A transaction. -/
  | transaction (transaction : Transaction)
  /-- A line that is a comment. -/
  | lineComment (comment : LineComment)
  /-- A price. -/
  | price (directive : PriceDirective)
  /-- The declaration of an account. -/
  | account (directive : AccountDirective)
  /-- The declaration of a commodity. -/
  | commodity (directive : CommodityDirective)
  /-- The default commodity. -/
  | defaultCommodity (directive : DefaultDirective)
deriving DecidableEq

end Daybook.Tree
