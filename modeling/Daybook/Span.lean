import Daybook.Text.Place

/-!
# Spans of a source

Model of `Span` and `Spanned` (`merge`, `text`, `map`; [SPEC 13.6]). A span is a stretch of the
source, given by the bytes before it and the bytes up to its end. Text can be cut out at a span only
where both ends fall between two characters; elsewhere `slice?` has no answer.

Results:
* `splitAtByte?_byteLength`: every prefix of a text can be split off at its byte length.
* `append_inj_of_byteLength`: a text has one prefix of so many bytes.
* `slice?_append`: the middle of a text is the slice at its span.
-/

namespace Daybook

open Text

namespace Text

/-- The text before and after the first `n` bytes, if a character ends there. -/
def splitAtByte? : Nat → List Char → Option (List Char × List Char)
  | 0, cs => some ([], cs)
  | _ + 1, [] => none
  | n + 1, c :: cs =>
    if c.utf8Size ≤ n + 1 then
      (splitAtByte? (n + 1 - c.utf8Size) cs).map fun parts => (c :: parts.1, parts.2)
    else none

/-- **Every prefix of a text can be split off at its byte length.** -/
theorem splitAtByte?_byteLength : ∀ before after : List Char,
    splitAtByte? (byteLength before) (before ++ after) = some (before, after)
  | [], after => by cases after <;> rfl
  | c :: cs, after => by
    have hpos : 0 < c.utf8Size := c.utf8Size_pos
    obtain ⟨n, hn⟩ : ∃ n, byteLength (c :: cs) = n + 1 :=
      ⟨byteLength (c :: cs) - 1, by rw [byteLength_cons]; omega⟩
    have hrest : n + 1 - c.utf8Size = byteLength cs := by
      rw [← hn, byteLength_cons]
      omega
    rw [hn, List.cons_append, splitAtByte?, hrest, splitAtByte?_byteLength cs after]
    rw [byteLength_cons] at hn
    rw [if_pos (by omega)]
    rfl

/-- **A text has one front of so many bytes.** -/
theorem append_inj_of_byteLength {as bs cs ds : List Char} (h : as ++ bs = cs ++ ds)
    (hlength : byteLength as = byteLength cs) : as = cs ∧ bs = ds := by
  have hsplit := splitAtByte?_byteLength as bs
  rw [h, hlength, splitAtByte?_byteLength] at hsplit
  obtain ⟨rfl, rfl⟩ := Prod.mk.inj (Option.some.inj hsplit)
  exact ⟨rfl, rfl⟩

end Text

/-- A stretch of the source in bytes: from `start`, up to and without `stop`. -/
structure Span where
  /-- Bytes before the stretch. -/
  start : Nat
  /-- Bytes up to its end. -/
  stop : Nat
deriving DecidableEq, Repr

namespace Span

/-- Bytes in the span. -/
def length (s : Span) : Nat := s.stop - s.start

/-- Whether the span holds no byte. -/
def isEmpty (s : Span) : Bool := s.start = s.stop

/-- The smallest span that covers both. -/
def merge (s t : Span) : Span := ⟨min s.start t.start, max s.stop t.stop⟩

/-- The span in words. -/
def text (s : Span) : String := toString s.start ++ ".." ++ toString s.stop

/-- What the source holds at the span, if it holds the span and both ends fall between two
characters. -/
def slice? (s : Span) (source : String) : Option String := do
  let (_, fromStart) ← splitAtByte? s.start source.toList
  let (inside, _) ← if s.start ≤ s.stop then splitAtByte? s.length fromStart else none
  return String.ofList inside

theorem slice?_append (before inside after : List Char) :
    slice? ⟨byteLength before, byteLength before + byteLength inside⟩
      (String.ofList (before ++ (inside ++ after))) = some (String.ofList inside) := by
  simp [slice?, length, splitAtByte?_byteLength]

end Span

/-- A value with the stretch of source that it was read from. -/
structure Located (α : Type) where
  /-- The value. -/
  value : α
  /-- Where it stands. -/
  span : Span
deriving DecidableEq, Repr

/-- Change the value and keep its place. -/
def Located.map {α β : Type} (f : α → β) (x : Located α) : Located β := ⟨f x.value, x.span⟩

end Daybook
