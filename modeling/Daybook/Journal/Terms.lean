/-!
# Terms of a journal

What a journal speaks of in the same words before and after its numbers and dates are understood:
tags, statuses, descriptions, accounts, and the parts of a posting that carry an amount (`Tag`,
`Status`, `Description`, `PostingAccount`, `LotPrice`, `Assertion`; [SPEC 3], [SPEC 4.3]).
-/

namespace Daybook

/-- A tag of a comment. -/
structure Tag where
  /-- Its name. -/
  name : String
  /-- Its value, if it has one. -/
  value : Option String
deriving DecidableEq, Repr

/-- The tag as it is shown. -/
def Tag.text (t : Tag) : String :=
  match t.value with
  | none => t.name ++ ":"
  | some value => t.name ++ ": " ++ value

/-- How far a transaction or a posting has come. -/
inductive Status
  /-- Nothing is said. -/
  | unmarked
  /-- It is under way. -/
  | pending
  /-- It is done. -/
  | cleared
deriving DecidableEq, Repr

/-- The sign of a status. -/
def Status.mark : Status → Option Char
  | unmarked => none
  | pending => some '!'
  | cleared => some '*'

/-- What a transaction is for. -/
inductive Description
  /-- A text. -/
  | plain (text : String)
  /-- Whom it was paid to, and a memo. -/
  | payeeMemo (payee memo : String)
deriving DecidableEq, Repr

/-- The description of a transaction that has none. -/
def Description.empty : Description := plain ""

/-- The description as it is shown. -/
def Description.text : Description → String
  | plain text => text
  | payeeMemo payee memo => payee ++ " | " ++ memo

/-- The kind of an account in a posting. -/
inductive AccountKind
  /-- Its postings balance. -/
  | real
  /-- Its postings need not balance. -/
  | virtual
  /-- Its postings balance among themselves. -/
  | balanced
deriving DecidableEq, Repr

/-- The path of an account as it is shown. -/
def pathText (path : List String) : String := ":".intercalate path

/-- An account in a posting. -/
structure Account where
  /-- Its kind. -/
  kind : AccountKind
  /-- The names along its path, the outermost first. -/
  path : List String
deriving DecidableEq, Repr

/-- The account as it is shown. -/
def Account.text (a : Account) : String :=
  match a.kind with
  | .real => pathText a.path
  | .virtual => "(" ++ pathText a.path ++ ")"
  | .balanced => "[" ++ pathText a.path ++ "]"

/-- The price at which a lot was bought. -/
structure LotPrice (α : Type) where
  /-- Whether it is the price of the whole posting rather than of one unit. -/
  isTotal : Bool
  /-- Whether its sign is in parentheses. -/
  isVirtual : Bool
  /-- The price. -/
  amount : α
deriving DecidableEq, Repr

/-- The sign of a lot price. -/
def LotPrice.sign {α : Type} (l : LotPrice α) : String :=
  let sign := if l.isTotal then "@@" else "@"
  if l.isVirtual then "(" ++ sign ++ ")" else sign

/-- The balance that an account should have after a posting. -/
structure Assertion (α : Type) where
  /-- Whether the account should hold no other commodity. -/
  isStrong : Bool
  /-- Whether the accounts below are taken in. -/
  withSubaccounts : Bool
  /-- The balance. -/
  amount : α
deriving DecidableEq, Repr

/-- The sign of an assertion. -/
def Assertion.sign {α : Type} (a : Assertion α) : String :=
  (if a.isStrong then "==" else "=") ++ (if a.withSubaccounts then "*" else "")

end Daybook
