import Daybook.Text.Place

/-!
# Lines of a source for display

Model of the lines that a diagnostic is shown with (`render_diagnostics`, [SPEC 13.7]). For display
a source is cut after every character that Unicode takes for a line break: line feed, carriage
return, both together, vertical tab, form feed, next line, line and paragraph separator. So the
lines of a diagnostic are not those that the tokenizer counts. A source that is empty has one empty
line.

Results:
* `flatten_splitLines`: **nothing is lost**: the lines in order are the text.
-/

namespace Daybook.Text

/-- The characters that break lines on display. -/
def breaksDisplay (c : Char) : Bool :=
  (0x0A ≤ c.toNat && c.toNat ≤ 0x0D) || c.toNat = 0x85 || c.toNat = 0x2028 || c.toNat = 0x2029

/-- The lines of a text, each with its break. A carriage return and a line feed are one break. -/
def splitLines : List Char → List (List Char)
  | [] => []
  | c :: cs =>
    if breaksDisplay c && !(c = '\r' && cs.head? = some '\n') then [c] :: splitLines cs
    else
      match splitLines cs with
      | [] => [[c]]
      | line :: lines => (c :: line) :: lines

/-- **Nothing is lost.** -/
theorem flatten_splitLines : ∀ cs : List Char, (splitLines cs).flatten = cs
  | [] => rfl
  | c :: cs => by
    have ih := flatten_splitLines cs
    unfold splitLines
    split
    · rw [List.flatten_cons, ih]
      rfl
    · split
      · next h =>
        rw [h] at ih
        rw [← ih]
        rfl
      · next line lines h =>
        rw [h] at ih
        rw [← ih]
        rfl

/-- The lines of a source. -/
def sourceLines (cs : List Char) : List (List Char) :=
  match splitLines cs with
  | [] => [[]]
  | lines => lines

/-- A line of a source, for display. -/
structure SourceLine where
  /-- Its number, from 1. -/
  number : Nat
  /-- The bytes before it. -/
  offset : Nat
  /-- Its characters, with the break. -/
  chars : List Char
deriving DecidableEq, Repr

/-- The last of the lines that starts at or before an offset, where the first line is this one. -/
def lineFrom (first : SourceLine) (offset : Nat) : List (List Char) → SourceLine
  | [] => first
  | next :: lines =>
    let start := first.offset + byteLength first.chars
    if offset < start then first else lineFrom ⟨first.number + 1, start, next⟩ offset lines

/-- The line of a source in which an offset falls. -/
def lineAt (source : List Char) (offset : Nat) : SourceLine :=
  match sourceLines source with
  | [] => ⟨1, 0, []⟩
  | line :: lines => lineFrom ⟨1, 0, line⟩ offset lines

/-- How many of the characters start in the first so many bytes. -/
def charsWithin : Nat → List Char → Nat
  | 0, _ => 0
  | _, [] => 0
  | bytes + 1, c :: cs => charsWithin (bytes + 1 - c.utf8Size) cs + 1

/-- How many characters of the line start before an offset. -/
def SourceLine.columnOf (line : SourceLine) (offset : Nat) : Nat :=
  charsWithin (offset - line.offset) line.chars

example : (lineAt "a\r\nbc".toList 3).number = 2 := by decide
example : (lineAt "a\n".toList 2).columnOf 2 = 2 := by decide

end Daybook.Text
