/-!
# Painted text

What is shown is made of pieces of text, each with a paint or without one (`render_diagnostics` with
and without colour). On a terminal without colours only the texts remain.

Results:
* `render_plain`: without colours a piece is its text.
-/

namespace Daybook

/-- A paint: what a piece of text is for. -/
inductive Paint
  /-- The heading of an error. -/
  | heading
  /-- The frame around the source. -/
  | frame
  /-- The margin beside marks. -/
  | margin
  /-- Source that is not marked. -/
  | source
  /-- A word in front of help or a note. -/
  | word
  /-- A mark, in a colour of the palette. -/
  | mark (colour : Nat)
deriving DecidableEq, Repr

namespace Paint

/-- The number of a colour among 256 as a terminal takes it. -/
def indexed (colour : Nat) : String := "38;5;" ++ toString colour

/-- The paint as a terminal takes it. -/
def code : Paint → String
  | heading => "31"
  | frame => indexed 246
  | margin => indexed 240
  | source => indexed 249
  | word => indexed 115
  | mark colour => indexed colour

end Paint

/-- A piece of text. -/
structure Piece where
  /-- Its paint. -/
  paint : Option Paint
  /-- Its text. -/
  text : String
deriving DecidableEq, Repr

namespace Piece

/-- A piece without paint. -/
def plain (text : String) : Piece := ⟨none, text⟩

/-- A piece with a paint. -/
def painted (paint : Paint) (text : String) : Piece := ⟨some paint, text⟩

/-- The piece as it is sent to a terminal with or without colours. -/
def render (coloured : Bool) (p : Piece) : String :=
  match p.paint with
  | some paint =>
    if coloured then "\x1b[" ++ paint.code ++ "m" ++ p.text ++ "\x1b[0m" else p.text
  | none => p.text

theorem render_plain (p : Piece) : p.render false = p.text := by
  unfold render
  split <;> rfl

end Piece

/-- The pieces as they are sent to a terminal. -/
def renderPieces (coloured : Bool) (pieces : List Piece) : String :=
  String.join (pieces.map (Piece.render coloured))

/-- The colour of the mark of the `n`-th fault, counted from 0. Three counters go round 16 bits at
steps of their own, so that neighbours differ; each colour lies in the brighter half of the
range. -/
def palette (n : Nat) : Nat :=
  let bright (start step : Nat) : Nat := (start + (n + 1) * step) % 0x10000 + 0xFFFF
  let red := bright 30000 (40503 * 1130)
  let green := bright 15000 (40503 * 1134)
  let blue := bright 35000 (40503 * 1138)
  16 + (180 * red + 30 * green + 5 * blue) / (2 * 0xFFFF)

example : (List.range 4).map palette = [201, 155, 187, 218] := by decide

end Daybook
