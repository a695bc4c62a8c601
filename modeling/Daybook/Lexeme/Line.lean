import Daybook.Text.Blank

/-!
# Lines

Model of `newline_len`, `leading_whitespace`, `blank_line_len`, `keyword_len` and `trimmed_run`: the
pieces of a line that are the same in every mode, namely its break, the layout between tokens, and
runs of free text up to some stop.

Results:
* `newlineLength_pos_iff`: a line feed, with or without a carriage return before it, breaks a line;
  a carriage return alone does not.
* `freeRun_isPrefix`: free text is taken from the front.
* `freeRun_no_break`: free text stays on its line.
-/

namespace Daybook.Lexeme

open Text

/-- Characters in the line break at the front, if there is one: `\r\n` or `\n`. -/
def newlineLength : List Char → Nat
  | '\r' :: '\n' :: _ => 2
  | '\n' :: _ => 1
  | _ => 0

/-- Spaces and tabs at the front. -/
def layoutLength (cs : List Char) : Nat := (cs.takeWhile isLayout).length

/-- Spaces and tabs at the front if they are all that is left of the line. -/
def emptyLineLength (cs : List Char) : Nat :=
  match cs.drop (layoutLength cs) with
  | [] => layoutLength cs
  | after => if 0 < newlineLength after then layoutLength cs else 0

/-- The characters in front of the end of the line. -/
def lineRest (cs : List Char) : List Char := cs.takeWhile fun c => !endsLine c

/-- The text in front of a stop or the end of the line, without the blank characters at its end. -/
def freeRun (isStop : Char → Bool) (cs : List Char) : List Char :=
  trimEnd (cs.takeWhile fun c => !(endsLine c || isStop c))

/-- The length of a word at the front that has a space or a tab after it; zero if it is not
there. -/
def keywordLength (word cs : List Char) : Nat :=
  if word.isPrefixOf cs && (cs.drop word.length).head?.any isLayout then word.length else 0

theorem newlineLength_pos_iff {cs : List Char} :
    0 < newlineLength cs ↔ (∃ rest, cs = '\n' :: rest) ∨ ∃ rest, cs = '\r' :: '\n' :: rest := by
  unfold newlineLength
  split <;> simp_all

theorem freeRun_isPrefix (isStop : Char → Bool) (cs : List Char) : freeRun isStop cs <+: cs :=
  (trimEnd_isPrefix _).trans (List.takeWhile_prefix _)

/-- **Free text stays on its line** and in front of its stop. -/
theorem freeRun_no_break {isStop : Char → Bool} {cs : List Char} {c : Char}
    (h : c ∈ freeRun isStop cs) : endsLine c = false ∧ isStop c = false := by
  have hmem := (trimEnd_isPrefix _).subset h
  simpa using List.all_eq_true.mp List.all_takeWhile c hmem

end Daybook.Lexeme
