/-!
# Places in a source

A place is where a character stands: how many bytes of UTF-8 lie before it, on which line it is, and
the how-manyth character of that line it is ([SPEC 13.6]). All three are carried forward one
character at a time. `LexSession` keeps the offset and the line, and where the line starts instead
of the column; `Counted.column?` shows that they tell the same place.

Results:
* `advance_append`: passing over two texts in turn is passing over their concatenation.
* `offset_advance`: the offset grows by the bytes passed over.
-/

namespace Daybook.Text

/-- Bytes of UTF-8 that a text takes. -/
def byteLength : List Char → Nat
  | [] => 0
  | c :: cs => c.utf8Size + byteLength cs

theorem byteLength_nil : byteLength [] = 0 := rfl

theorem byteLength_cons (c : Char) (cs : List Char) :
    byteLength (c :: cs) = c.utf8Size + byteLength cs := rfl

theorem byteLength_append (as bs : List Char) :
    byteLength (as ++ bs) = byteLength as + byteLength bs := by
  induction as with
  | nil => exact (Nat.zero_add _).symm
  | cons c as ih => rw [List.cons_append, byteLength_cons, byteLength_cons, ih, Nat.add_assoc]

/-- Characters of one byte each. -/
theorem byteLength_eq_length {cs : List Char} (h : ∀ c ∈ cs, c.utf8Size = 1) :
    byteLength cs = cs.length := by
  induction cs with
  | nil => rfl
  | cons c cs ih =>
    obtain ⟨hc, hcs⟩ := List.forall_mem_cons.mp h
    rw [byteLength_cons, hc, ih hcs, List.length_cons, Nat.add_comm]

/-- A position between characters of the source. -/
structure Place where
  /-- Bytes before it. -/
  offset : Nat
  /-- Line number, from 1. -/
  line : Nat
  /-- Character number in the line, from 1. -/
  column : Nat
deriving DecidableEq, Repr

namespace Place

/-- Where every source starts. -/
def start : Place := ⟨0, 1, 1⟩

/-- The place after one more character. A line feed starts a new line. -/
def next (p : Place) (c : Char) : Place :=
  if c = '\n' then ⟨p.offset + c.utf8Size, p.line + 1, 1⟩
  else ⟨p.offset + c.utf8Size, p.line, p.column + 1⟩

/-- The place after a text. -/
def advance (p : Place) (cs : List Char) : Place := cs.foldl next p

theorem advance_nil (p : Place) : p.advance [] = p := rfl

theorem advance_cons (p : Place) (c : Char) (cs : List Char) :
    p.advance (c :: cs) = (p.next c).advance cs := rfl

theorem advance_append (p : Place) (as bs : List Char) :
    p.advance (as ++ bs) = (p.advance as).advance bs := List.foldl_append

theorem offset_next (p : Place) (c : Char) : (p.next c).offset = p.offset + c.utf8Size := by
  unfold next
  split <;> rfl

theorem offset_advance (p : Place) (cs : List Char) :
    (p.advance cs).offset = p.offset + byteLength cs := by
  induction cs generalizing p with
  | nil => rfl
  | cons c cs ih => rw [advance_cons, ih, offset_next, byteLength_cons, Nat.add_assoc]

end Place

end Daybook.Text
