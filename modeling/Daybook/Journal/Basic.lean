import Daybook.Date
import Daybook.Decimal
import Daybook.Journal.Terms

/-!
# Journals

Model of the cooked journal with its constructors and builders ([SPEC 3], [SPEC 13.3]). A journal as
it is understood: dates are days, numbers are decimals, and every tag belongs to a transaction, a
posting, an account or a commodity. Journals are put together by appending.

Results:
* `append_assoc`, `empty_append`, `append_empty`: appending is associative, and the empty journal is
  neutral.
* `append_ofTransaction` and its like: what a journal of one entry adds.
-/

namespace Daybook

/-- A quantity of a commodity. -/
structure Amount where
  /-- How much. -/
  quantity : Decimal
  /-- Of what, if it is said. -/
  commodity : Option String
deriving DecidableEq, Repr

namespace Amount

/-- The amount as it is shown. -/
def text (a : Amount) : String :=
  match a.commodity with
  | none => a.quantity.text
  | some commodity => a.quantity.text ++ " " ++ commodity

/-- Whether the amount is below zero. -/
def isNegative (a : Amount) : Bool := a.quantity.isNegative

/-- The places after the point. -/
def scale (a : Amount) : Nat := a.quantity.scale

end Amount

/-- A lot price as it is shown. -/
def LotPrice.text (l : LotPrice Amount) : String := l.sign ++ " " ++ l.amount.text

/-- An assertion as it is shown. -/
def Assertion.text (a : Assertion Amount) : String := a.sign ++ " " ++ a.amount.text

/-- A posting. -/
structure Posting where
  /-- Its status. -/
  status : Status
  /-- Its account. -/
  account : Account
  /-- Its amount. -/
  amount : Option Amount
  /-- Its lot price. -/
  lotPrice : Option (LotPrice Amount)
  /-- The balance asserted after it. -/
  assertion : Option (Assertion Amount)
  /-- Its tags. -/
  tags : List Tag
deriving DecidableEq, Repr

/-- A transaction. -/
structure Transaction where
  /-- Its day. -/
  date : Date
  /-- The day of its postings, if it is another one. -/
  secondDate : Option Date
  /-- Its status. -/
  status : Status
  /-- The cheque number. -/
  chequeNumber : Option String
  /-- What it is for. -/
  description : Description
  /-- Its postings. -/
  postings : List Posting
  /-- Its tags. -/
  tags : List Tag
deriving DecidableEq

namespace Transaction

/-- A transaction of this day with nothing in it yet. -/
def blank (date : Date) (description : Description) : Transaction :=
  ⟨date, none, .unmarked, none, description, [], []⟩

/-- The first tag of this name. -/
def tag? (t : Transaction) (name : String) : Option Tag := t.tags.find? (·.name = name)

/-- The transaction with one more posting. -/
def addPosting (t : Transaction) (p : Posting) : Transaction :=
  { t with postings := t.postings ++ [p] }

/-- The transaction with one more tag. -/
def addTag (t : Transaction) (tag : Tag) : Transaction := { t with tags := t.tags ++ [tag] }

end Transaction

/-- An account that was declared. -/
structure AccountEntry where
  /-- The names along its path. -/
  path : List String
  /-- Its tags. -/
  tags : List Tag
deriving DecidableEq, Repr

/-- The price of a commodity on a day. -/
structure Price where
  /-- The day. -/
  date : Date
  /-- The commodity. -/
  commodity : String
  /-- Its price. -/
  amount : Amount
deriving DecidableEq

/-- A commodity that was declared. -/
structure CommodityEntry where
  /-- Its name. -/
  commodity : String
  /-- An amount that shows its format. -/
  format : Option Amount
  /-- Its tags. -/
  tags : List Tag
deriving DecidableEq, Repr

/-- A journal. -/
structure Journal where
  /-- Its transactions, in order. -/
  transactions : List Transaction
  /-- The accounts declared, in order. -/
  accounts : List AccountEntry
  /-- The prices, in order. -/
  prices : List Price
  /-- The commodities declared, in order. -/
  commodities : List CommodityEntry
  /-- The default commodity. -/
  defaultCommodity : Option Amount
deriving DecidableEq

namespace Journal

/-- The journal with nothing in it. -/
def empty : Journal := ⟨[], [], [], [], none⟩

/-- Whether nothing is in the journal. -/
def isEmpty (j : Journal) : Bool :=
  j.transactions.isEmpty && j.accounts.isEmpty && j.prices.isEmpty && j.commodities.isEmpty &&
    j.defaultCommodity.isNone

/-- One journal after another. The later default commodity counts. -/
def append (j k : Journal) : Journal where
  transactions := j.transactions ++ k.transactions
  accounts := j.accounts ++ k.accounts
  prices := j.prices ++ k.prices
  commodities := j.commodities ++ k.commodities
  defaultCommodity := k.defaultCommodity.or j.defaultCommodity

instance : Append Journal := ⟨append⟩

theorem append_def (j k : Journal) : j ++ k = j.append k := rfl

theorem append_assoc (j k l : Journal) : j ++ k ++ l = j ++ (k ++ l) := by
  simp [append_def, append, List.append_assoc, Option.or_assoc]

theorem empty_append (j : Journal) : empty ++ j = j := by simp [append_def, append, empty]

theorem append_empty (j : Journal) : j ++ empty = j := by simp [append_def, append, empty]

/-- The journal of one transaction. -/
def ofTransaction (t : Transaction) : Journal := { empty with transactions := [t] }

/-- The journal of one declared account. -/
def ofAccount (a : AccountEntry) : Journal := { empty with accounts := [a] }

/-- The journal of one price. -/
def ofPrice (p : Price) : Journal := { empty with prices := [p] }

/-- The journal of one declared commodity. -/
def ofCommodity (c : CommodityEntry) : Journal := { empty with commodities := [c] }

/-- The journal of a default commodity. -/
def ofDefault (a : Amount) : Journal := { empty with defaultCommodity := some a }

/-- The last transaction. -/
def last? (j : Journal) : Option Transaction := j.transactions.getLast?

/-- The journal with its last transaction changed, if it has one. -/
def changeLast (f : Transaction → Transaction) (j : Journal) : Journal :=
  match j.last? with
  | none => j
  | some t => { j with transactions := j.transactions.dropLast ++ [f t] }

theorem append_ofTransaction (j : Journal) (t : Transaction) :
    j ++ ofTransaction t = { j with transactions := j.transactions ++ [t] } := by
  simp [append_def, append, ofTransaction, empty]

theorem append_ofAccount (j : Journal) (a : AccountEntry) :
    j ++ ofAccount a = { j with accounts := j.accounts ++ [a] } := by
  simp [append_def, append, ofAccount, empty]

theorem append_ofPrice (j : Journal) (p : Price) :
    j ++ ofPrice p = { j with prices := j.prices ++ [p] } := by
  simp [append_def, append, ofPrice, empty]

theorem append_ofCommodity (j : Journal) (c : CommodityEntry) :
    j ++ ofCommodity c = { j with commodities := j.commodities ++ [c] } := by
  simp [append_def, append, ofCommodity, empty]

theorem append_ofDefault (j : Journal) (a : Amount) :
    j ++ ofDefault a = { j with defaultCommodity := some a } := by
  simp [append_def, append, ofDefault, empty]

end Journal

end Daybook
