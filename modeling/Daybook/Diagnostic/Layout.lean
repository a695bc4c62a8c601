import Daybook.Diagnostic.Basic
import Daybook.Diagnostic.Paint
import Daybook.Text.Blank
import Daybook.Text.SourceLines
import Daybook.Text.Width

/-!
# How a diagnostic is laid out

Model of what `render_diagnostics` writes ([SPEC 13.7]). A diagnostic is shown with the line of the
source that it is about: the line, a row of marks under it, a row with an arrow from the middle mark
to the label, and then help and a note. The rows under the line keep to its cells: a tab reaches to
the next column that is a multiple of four, and a wide character fills two cells.

Out of scope: marks over several lines, and several marks at once. No fault has them.

Results:
* `length_under`, `length_arrow`: a cell of a row is as wide as the column above it.
* `length_row`: the two rows under a line are equally long.
-/

namespace Daybook

open Text

/-! ## Columns -/

/-- Cells that a character fills in a column of a line. -/
def cellsOf (column : Nat) (c : Char) : Nat :=
  if c = '\t' then (column / 4 + 1) * 4 - column else if isBlank c then 1 else cellWidth c

/-- A character as it is shown in a column: a blank one as spaces. -/
def shownAs (column : Nat) (c : Char) : List Char :=
  if isBlank c then List.replicate (cellsOf column c) ' ' else [c]

/-- The columns of a line that are marked. -/
structure Marks where
  /-- The first one. -/
  first : Nat
  /-- The one after the last. -/
  last : Nat
deriving DecidableEq, Repr

namespace Marks

/-- The column with the arrow. -/
def middle (m : Marks) : Nat := (m.first + m.last) / 2

/-- Whether a column is marked. -/
def covers (m : Marks) (column : Nat) : Bool := m.first ≤ column && column < m.last

/-- What stands under a column that fills so many cells. -/
def under (m : Marks) (column cells : Nat) : List Char :=
  let row := List.replicate cells (if m.covers column then '─' else ' ')
  if column = m.middle then row.modifyHead fun _ => if m.covers column then '┬' else '│' else row

/-- The arrow under a column that fills so many cells: it comes down from the middle column and
goes on to the right. -/
def arrow (m : Marks) (column cells : Nat) : List Char :=
  if column < m.middle then List.replicate cells ' '
  else if column = m.middle then (List.replicate cells '─').modifyHead fun _ => '╰'
  else List.replicate cells '─'

theorem length_under (m : Marks) (column cells : Nat) : (m.under column cells).length = cells := by
  simp only [under]
  split <;> simp

theorem length_arrow (m : Marks) (column cells : Nat) : (m.arrow column cells).length = cells := by
  unfold arrow
  split
  · simp
  · split <;> simp

/-- A row under a line. It ends two columns after the last mark, past the end of the line if need
be. -/
def row (m : Marks) (text : List Char) (cell : Nat → Nat → List Char) : List Char :=
  (List.range (m.last + 2)).flatMap fun column =>
    cell column ((text[column]?.map (cellsOf column)).getD 1)

/-- **The two rows under a line are equally long.** -/
theorem length_row (m : Marks) (text : List Char) :
    (m.row text m.under).length = (m.row text m.arrow).length := by
  simp only [row, List.length_flatMap, length_under, length_arrow]

end Marks

/-! ## Parts of a diagnostic -/

/-- So many copies of a character. -/
def copies (n : Nat) (c : Char) : String := String.ofList (List.replicate n c)

/-- The end of a line. -/
def newline : Piece := .plain "\n"

/-- A character on its own. -/
def single (paint : Paint) (c : Char) : Piece := .painted paint (String.singleton c)

/-- A line of the source, painted character by character. -/
def paintLine (colour : Nat) (m : Marks) (text : List Char) : List Piece :=
  text.zipIdx.flatMap fun (c, column) =>
    (shownAs column c).map (single (if m.covers column then .mark colour else .source))

/-- A row under a line, painted cell by cell. Spaces are left as they are. -/
def paintRow (colour : Nat) (row : List Char) : List Piece :=
  row.map fun c => if c = ' ' then .plain " " else single (.mark colour) c

/-- The lines of a remark. A line feed ends a line, with a carriage return just before it. -/
def remarkLines : List Char → List (List Char)
  | [] => []
  | '\n' :: cs => [] :: remarkLines cs
  | '\r' :: '\n' :: cs => [] :: remarkLines cs
  | c :: cs =>
    match remarkLines cs with
    | [] => [[c]]
    | line :: lines => (c :: line) :: lines

example : remarkLines "a\r\n\nb\r".toList = [['a'], [], ['b', '\r']] := by decide

/-- What a diagnostic shows of the source. -/
structure Excerpt where
  /-- The line it is about. -/
  line : SourceLine
  /-- The columns of that line that are marked. -/
  marks : Marks
deriving DecidableEq, Repr

namespace Excerpt

/-- The excerpt for a span. A span that leaves the source has none. -/
def at? (source : List Char) (span : Span) : Option Excerpt :=
  let size := byteLength source
  if size < span.start || (!span.isEmpty && size < span.stop - 1) then none
  else
    let line := lineAt source span.start
    let first := line.columnOf span.start
    some ⟨line, first, if span.isEmpty then first else line.columnOf span.stop⟩

/-- The line as it is shown: without the blank characters at its end. -/
def text (e : Excerpt) : List Char := trimEnd e.line.chars

/-- The number of the line, in digits. -/
def number (e : Excerpt) : String := toString e.line.number

/-- The width of the margin: that of the number and a space on either side. -/
def marginWidth (e : Excerpt) : Nat := e.number.length + 2

/-- The start of a row without a line number. -/
def margin (e : Excerpt) : List Piece :=
  [.plain " ", .painted .margin (copies (e.marginWidth - 1) ' ' ++ "│"), .plain " "]

/-- The rows above the line: the place, and the top of the frame. -/
def opening (e : Excerpt) (name : String) : List Piece :=
  let blank := Piece.plain (copies e.marginWidth ' ')
  let column := toString (e.marks.first + 1)
  [blank, single .frame '╭', single .frame '─', single .frame '[',
    .plain (" " ++ name ++ ":" ++ e.number ++ ":" ++ column ++ " "), single .frame ']', newline,
    blank, single .frame '│', newline]

/-- The line and the two rows under it. -/
def quotation (e : Excerpt) (colour : Nat) (label : String) : List Piece :=
  [.plain " ", .painted .frame (e.number ++ " │"), .plain " "] ++
    paintLine colour e.marks e.text ++ [newline] ++
  e.margin ++ paintRow colour (e.marks.row e.text e.marks.under) ++ [newline] ++
  e.margin ++ paintRow colour (e.marks.row e.text e.marks.arrow) ++
    [.plain (" " ++ label), newline]

/-- A remark after the line: an empty row, and then its lines under one another. -/
def remark (e : Excerpt) (word text : String) : List Piece :=
  e.margin ++ [newline] ++
  (remarkLines text.toList).zipIdx.flatMap fun (line, index) =>
    e.margin ++
    (if index = 0 then [.painted .word word, .plain ": "] else [.plain (copies 6 ' ')]) ++
    [.plain (String.ofList line), newline]

/-- The bottom of the frame. -/
def closing (e : Excerpt) : List Piece :=
  [.painted .frame (copies e.marginWidth '─' ++ "╯"), newline]

end Excerpt

namespace Diagnostic

/-- What is shown of a diagnostic about a source of this name. Without an excerpt there is no place
for help and note. -/
def pieces (d : Diagnostic) (name : String) (source : List Char) (colour : Nat) : List Piece :=
  [.painted .heading ("[" ++ d.code ++ "] Error:"), .plain (" " ++ d.message), newline] ++
  match Excerpt.at? source d.span with
  | none => []
  | some e =>
    e.opening name ++ e.quotation colour d.label ++
    (d.help.map (e.remark "Help")).getD [] ++ (d.note.map (e.remark "Note")).getD [] ++
    e.closing

end Diagnostic

/-- All that is shown of several diagnostics about a source, each with a colour of its own. -/
def showDiagnostics (coloured : Bool) (name source : String) (ds : List Diagnostic) : String :=
  renderPieces coloured <|
    ds.zipIdx.flatMap fun (d, index) => d.pieces name source.toList (palette index)

end Daybook
