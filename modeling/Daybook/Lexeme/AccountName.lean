import Daybook.Text.Blank
import Daybook.Text.Fields

/-!
# Account names

Model of `at_name_terminator`, `real_account_len`, `delimited_account_len` and `segments` ([SPEC
11.4]). An account name may hold single spaces, so it ends only at what cannot be in it: a tab, two
spaces, `;`, a space before `;`, or the end of the line, with or without a space before it. A
virtual account stands in parentheses and a balanced one in brackets; then what follows the closing
bracket has to end the name.

A space before a tab ends no name, so such a name keeps its space.

Results:
* `nameEnds_nil`: every name ends with the source.
* `nameLength_le`: a name is taken from the front.
* `pathNames_ne_nil`: an account path is never empty.
-/

namespace Daybook.Lexeme

open Text

/-- Whether an account name ends in front of this text. -/
def nameEnds : List Char → Bool
  | [] => true
  | ' ' :: rest =>
    match rest with
    | [] => true
    | c :: _ => c = ' ' || c = ';' || endsLine c
  | c :: _ => c = '\t' || c = ';' || endsLine c

/-- Characters in front of the first place where an account name ends. -/
def nameLength : List Char → Nat
  | [] => 0
  | c :: cs => if nameEnds (c :: cs) then 0 else nameLength cs + 1

/-- What stands between brackets at the front, if it is not empty, holds neither `;` nor the end of
the line, and the name ends after the closing bracket. -/
def enclosedName? (opening closing : Char) : List Char → Option (List Char)
  | [] => none
  | c :: cs =>
    if c = opening then
      let inner := cs.takeWhile fun d => !(d = closing || d = ';' || endsLine d)
      match cs.drop inner.length with
      | d :: after => if d = closing && !inner.isEmpty && nameEnds after then some inner else none
      | [] => none
    else none

/-- The names along an account path, the outermost first. -/
def pathNames (name : List Char) : List String := (fields (· = ':') name).map String.ofList

theorem nameEnds_nil : nameEnds [] = true := rfl

theorem nameLength_le : ∀ cs : List Char, nameLength cs ≤ cs.length
  | [] => Nat.le_refl _
  | c :: cs => by
    unfold nameLength
    split
    · exact Nat.zero_le _
    · exact Nat.succ_le_succ (nameLength_le cs)

theorem pathNames_ne_nil (name : List Char) : pathNames name ≠ [] := by
  simp [pathNames, fields_ne_nil]

example : nameLength "Assets:My Bank  $1".toList = 14 := by decide
example : nameLength "Assets:Bank ;x".toList = 11 := by decide
example : enclosedName? '(' ')' "(A:B) \n".toList = some "A:B".toList := by decide
example : enclosedName? '(' ')' "(A:B)x".toList = none := by decide

end Daybook.Lexeme
