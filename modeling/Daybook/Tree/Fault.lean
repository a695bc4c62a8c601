import Daybook.Tree.Parser

/-!
# Faults of the grammar

Model of `ParseError`, `ParseErrorKind` and `to_parse_error` ([SPEC 12.2]). Tokens that fit no item
are reported with the place where reading stopped. The cause is told by the token there: one that
the rule refuses, one of a kind that cannot stand there, or none at all.
-/

namespace Daybook

/-- Why an item could not be read. -/
inductive ParseCause
  /-- This token cannot stand here. -/
  | unexpectedToken (found : String)
  /-- The input ends in the middle of an item. -/
  | unexpectedEnd
  /-- The last line lacks its break. -/
  | missingNewline
  /-- An account in brackets was declared. -/
  | virtualAccount (name : String)
  /-- A format stands where none is allowed. -/
  | formatNotAllowed
deriving DecidableEq, Repr

namespace ParseCause

/-- The number of the cause. -/
def code : ParseCause → Nat
  | unexpectedToken _ => 1
  | unexpectedEnd => 2
  | missingNewline => 3
  | virtualAccount _ => 4
  | formatNotAllowed => 5

/-- The cause in words. -/
def message : ParseCause → String
  | unexpectedToken found => "syntax error: unexpected " ++ found
  | unexpectedEnd => "unexpected end of file"
  | missingNewline => "syntax error: missing line break"
  | virtualAccount name => "cannot declare virtual account '" ++ name ++ "'"
  | formatNotAllowed => "format is only allowed under 'commodity'"

/-- The cause in a few words, for a mark under the source. -/
def label : ParseCause → String
  | unexpectedToken _ => "unexpected token"
  | unexpectedEnd => "unexpected end of file"
  | missingNewline => "expected line break"
  | virtualAccount _ => "virtual account declared"
  | formatNotAllowed => "format not allowed here"

end ParseCause

/-- Tokens that could not be read as an item. -/
structure ParseFault where
  /-- Why. -/
  cause : ParseCause
  /-- Where reading stopped. -/
  span : Span
  /-- What was being read. -/
  context : Option String := none
  /-- How to mend it. -/
  hint : Option String := none
deriving DecidableEq, Repr

namespace ParseFault

/-- The fault in words. -/
def message (f : ParseFault) : String := f.cause.message

/-- The fault in words, with what was being read. -/
def describe (f : ParseFault) : String :=
  match f.context with
  | none => f.message
  | some context => f.message ++ " (" ++ context ++ ")"

end ParseFault

namespace Tree

/-- The fault at the end of the input, after this token. Only a line break ends an item. -/
def faultAtEnd : Option Token → ParseFault
  | none => ⟨.unexpectedEnd, ⟨0, 0⟩, none, none⟩
  | some last =>
    if last.kind = .newline then ⟨.unexpectedEnd, ⟨last.stop, last.stop⟩, none, none⟩
    else ⟨.missingNewline, ⟨last.stop, last.stop⟩, none, some "end the last line with a line break"⟩

/-- The fault that a failed test is reported as, where `last` is the last token of the input. A test
fails at the end of a block only where the block lacks its last line break, and so at the end of the
input. -/
def Failure.fault (last : Option Token) (f : Failure) : ParseFault :=
  match f.rest with
  | [] => faultAtEnd last
  | t :: _ =>
    match f.refusal with
    | none => ⟨.unexpectedToken t.describe, t.span, none, none⟩
    | some .virtualAccount =>
      ⟨.virtualAccount t.image, t.span, some "account directive",
        some "only real accounts can be declared"⟩
    | some .formatLine =>
      ⟨.formatNotAllowed, t.span, some "default commodity directive",
        some "move the format line under a 'commodity' directive"⟩

end Tree

end Daybook
