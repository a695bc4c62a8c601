import Daybook.Token.Fault
import Daybook.Tree.Fault

/-!
# Diagnostics

Model of what `report_lex_errors` and `report_parse_errors` make of a fault ([SPEC 13.7]). A
diagnostic is a fault as it is shown to the writer of a journal: with a code, a mark under the
source, and perhaps a word of help.
-/

namespace Daybook

/-- A fault to be shown. -/
structure Diagnostic where
  /-- Its code. -/
  code : String
  /-- What is wrong. -/
  message : String
  /-- Where. -/
  span : Span
  /-- What the mark under the source says. -/
  label : String
  /-- How to mend it. -/
  help : Option String
  /-- What else there is to say. -/
  note : Option String
deriving DecidableEq, Repr

namespace Diagnostic

/-- A fault of the tokenizer as it is shown. -/
def ofScanFault (f : ScanFault) : Diagnostic :=
  ⟨"L0001", f.message, f.span, "not recognised here", none, none⟩

/-- A fault of the grammar as it is shown. -/
def ofParseFault (f : ParseFault) : Diagnostic :=
  ⟨"P000" ++ toString f.cause.code, f.message, f.span, f.cause.label, f.hint,
    f.context.map ("while parsing " ++ ·)⟩

end Diagnostic

end Daybook
