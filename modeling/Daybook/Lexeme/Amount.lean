import Daybook.Text.Letter
import Daybook.Text.Blank

/-!
# Numbers, commodities and the signs between them

Model of the lexicon of `Atom` as `lex_atom` uses it ([SPEC 4.1]). A number is digits with commas
among them, then perhaps a point and digits. Commas are allowed only in front of a point: without a
fraction, digits with a comma after them are no number at all, not even in part. A commodity is a
run of letters and currency signs, or anything between quotes.

The pattern of a number would allow commas without a fraction; the automaton that is made of the
patterns does not find them, and this is what is modelled. `longest_atom_taken` says where the two
part.

Out of scope: how the automaton is made of the patterns.
-/

namespace Daybook.Lexeme

open Text

/-- The digits at the front. -/
def digitRun (cs : List Char) : List Char := cs.takeWhile Char.isDigit

/-- Characters in the point and the digits at the front; a point without digits counts for
nothing. -/
def fractionLength : List Char → Nat
  | '.' :: cs => if (digitRun cs).isEmpty then 0 else (digitRun cs).length + 1
  | _ => 0

/-- The digits and commas at the front. -/
def groupedRun (cs : List Char) : List Char := cs.takeWhile fun c => c.isDigit || c = ','

/-- Characters in the number at the front, which has no sign; none if there is no number. -/
def numberLength (cs : List Char) : Nat :=
  if (digitRun cs).isEmpty then fractionLength cs
  else
    let whole := (groupedRun cs).length
    let fraction := fractionLength (cs.drop whole)
    if whole = (digitRun cs).length || 0 < fraction then whole + fraction else 0

/-- A commodity may be written without quotes if it holds only such characters. -/
def isCommodityChar (c : Char) : Bool := isLetter c || isCurrencySign c

/-- What a commodity in quotes may hold. -/
def isQuotedChar (c : Char) : Bool := !(c = '"' || c = ';' || endsLine c)

/-- What stands between quotes at the front, if it is not empty and the closing quote is there. -/
def quotedCommodity? : List Char → Option (List Char)
  | '"' :: cs =>
    let inner := cs.takeWhile isQuotedChar
    match cs.drop inner.length with
    | '"' :: _ => if inner.isEmpty then none else some inner
    | _ => none
  | _ => none

example : numberLength "1,000.50 x".toList = 8 := by decide
example : numberLength "1,000".toList = 0 := by decide
example : numberLength "1.".toList = 1 := by decide
example : numberLength "1,.5".toList = 4 := by decide
example : numberLength ".5".toList = 2 := by decide

end Daybook.Lexeme
