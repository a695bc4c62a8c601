import Daybook.Date

/-!
# Faults of a journal

Model of `LowerError` with its messages ([SPEC 12.2]): what keeps a journal that was read from being
understood. One such fault is enough to refuse the whole journal.
-/

namespace Daybook

/-- Why a journal is refused. -/
inductive JournalFault
  /-- An amount that declares a commodity names none. -/
  | missingCommodity
  /-- A text is no date. -/
  | invalidDate (date : String) (fault : DateFault)
  /-- A number cannot be held as a decimal. -/
  | invalidNumber (number : String)
  /-- A commodity is declared by an amount and has a format under it too. -/
  | conflictingFormat (commodity : String)
  /-- The format under a commodity names another one. -/
  | otherCommodity (declared format : String)
  /-- A commodity has more than one format under it. -/
  | manyFormats (commodity : String) (count : Nat)
deriving DecidableEq, Repr

/-- The fault in words. -/
def JournalFault.message : JournalFault → String
  | missingCommodity => "Commodity text must have a value"
  | invalidDate date fault => "invalid date '" ++ date ++ "': " ++ fault.message
  | invalidNumber number => "invalid number '" ++ number ++ "'"
  | conflictingFormat commodity =>
    "commodity '" ++ commodity ++ "' has both an inline format and a format subdirective"
  | otherCommodity declared format =>
    "commodity directive '" ++ declared ++ "' does not match its format commodity '" ++ format ++
      "'"
  | manyFormats commodity count =>
    "commodity '" ++ commodity ++ "' has " ++ toString count ++
      " format subdirectives, at most one is allowed"

end Daybook
