import Daybook.Span
import Daybook.Token.Mode

/-!
# Faults of the tokenizer

Model of `LexError` ([SPEC 11.5]) with the messages that `recover` gives it. Text that no rule reads
is passed over and reported: a whole line where its start is not recognised, else character by
character, with neighbours in one report.
-/

namespace Daybook

/-- Why text was passed over. -/
inductive ScanCause
  /-- No item of a journal starts with this line. -/
  | unknownLine (text : String)
  /-- Nothing that may stand here starts like this. -/
  | unexpected (mode : Mode)
  /-- A reason found by another reader, in its own words. -/
  | other (message : String)
deriving DecidableEq, Repr

/-- The cause in words. -/
def ScanCause.message : ScanCause → String
  | unknownLine text => "unrecognised line start '" ++ text ++ "'"
  | unexpected mode => "unexpected input in " ++ mode.describe
  | other message => message

/-- Text that was passed over. -/
structure ScanFault where
  /-- Where it starts. -/
  place : Text.Place
  /-- Its bytes. -/
  length : Nat
  /-- Why it was passed over. -/
  cause : ScanCause
deriving DecidableEq, Repr

namespace ScanFault

/-- Bytes up to the end of the text. -/
def stop (f : ScanFault) : Nat := f.place.offset + f.length

/-- The stretch of source that was passed over. -/
def span (f : ScanFault) : Span := ⟨f.place.offset, f.stop⟩

/-- The fault in words, without its place. -/
def message (f : ScanFault) : String := f.cause.message

/-- The fault in words, after its line and column. -/
def describe (f : ScanFault) : String :=
  toString f.place.line ++ ":" ++ toString f.place.column ++ ": " ++ f.message

end ScanFault

end Daybook
