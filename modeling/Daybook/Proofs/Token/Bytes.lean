import Daybook.Proofs.Token.Dropped
import Daybook.Proofs.Token.Reads

/-!
# Which bytes a step covers

A step covers the front of what it takes with a token, or with a fault, or it covers nothing. What
stands in front of it stays as it is, also when the last fault grows. So what becomes of a byte is
settled by the one step that passes it. About `emit` and `push_error`.

* `Event.noted`, `Event.reported`: the characters of an event that become a token or a fault.

Results:
* `holds_noted_step`, `holds_reported_step`: **what a step adds to the bytes covered.**
* `holds_noted_run`, `holds_reported_run`: later steps change nothing in front of them.
* `Reached.holds_tokenize_iff`: **a byte is in a token or a fault of the source just where the step
  that passes it puts it there.**
-/

namespace Daybook

open Text

namespace Event

/-- Characters that become a token. -/
def noted : Event → Nat
  | newline length _ => length
  | token _ found _ => found.length
  | _ => 0

/-- Characters that are reported. -/
def reported : Event → Nat
  | unknownLine length _ _ => length
  | unexpected _ => 1
  | _ => 0

end Event

namespace Scanner

variable {s : Scanner} {chars rest : List Char} {n : Nat}

/-- The byte stands in the text at the front. -/
def InFront (s : Scanner) (text : List Char) (n : Nat) : Prop :=
  s.place.offset ≤ n ∧ n < s.place.offset + byteLength text

theorem not_inFront_nil (s : Scanner) (n : Nat) : ¬ s.InFront [] n := fun h =>
  absurd (Nat.lt_of_le_of_lt h.1 h.2) (Nat.lt_irrefl _)

/-! ## One step -/

theorem holds_note {kind : Kind} {image : List Char} {payload : Option Payload} :
    (∃ t ∈ (s.note kind image payload).tokens, t.span.Holds n) ↔
      (∃ t ∈ s.tokens, t.span.Holds n) ∨ s.InFront image n := by
  have hspan : (⟨kind, String.ofList image, s.place, payload⟩ : Token).span.Holds n ↔
      s.InFront image n := by
    simp only [Token.span, Token.stop, Token.length, String.toList_ofList, Span.Holds, InFront,
      Token.offset]
  simp only [note, List.exists_mem_cons_iff, hspan, or_comm]

theorem holds_report {text : List Char} {cause : ScanCause} :
    (∃ f ∈ (s.report text cause).faults, f.span.Holds n) ↔
      (∃ f ∈ s.faults, f.span.Holds n) ∨ s.InFront text n := by
  simp only [report, List.exists_mem_cons_iff, ScanFault.span, ScanFault.stop, Span.Holds, InFront,
    or_comm]

/-- A fault that grows holds what it held and the text. -/
theorem holds_reportMore {text : List Char} {mode : Mode} :
    (∃ f ∈ (s.reportMore text mode).faults, f.span.Holds n) ↔
      (∃ f ∈ s.faults, f.span.Holds n) ∨ s.InFront text n := by
  obtain ⟨last, faults, hfaults, ⟨hstop, -⟩, hmore⟩ | hmore := s.reportMore_cases text mode <;>
    rw [hmore]
  · have hgrown : ({ last with length := last.length + byteLength text } : ScanFault).span.Holds n ↔
        last.span.Holds n ∨ s.InFront text n := by
      simp only [ScanFault.span, ScanFault.stop, Span.Holds, InFront] at hstop ⊢
      omega
    simp only [hfaults, List.exists_mem_cons_iff, hgrown, or_right_comm]
  · exact holds_report

/-- **What a step adds to the bytes in tokens.** -/
theorem holds_noted_step : (∃ t ∈ (s.step rest).tokens, t.span.Holds n) ↔
    (∃ t ∈ s.tokens, t.span.Holds n) ∨ s.InFront (rest.take (s.next rest).noted) n := by
  show (∃ t ∈ (s.record rest (s.next rest)).tokens, t.span.Holds n) ↔ _
  cases s.next rest with
  | newline | token => exact holds_note
  | layout | unknownLine =>
    simp only [record, report, Event.noted, List.take_zero, not_inFront_nil, or_false]
  | unexpected mode =>
    simp only [record, (s.tokens_reportMore _ mode).1, Event.noted, List.take_zero, not_inFront_nil,
      or_false]

/-- **What a step adds to the bytes in faults.** -/
theorem holds_reported_step : (∃ f ∈ (s.step rest).faults, f.span.Holds n) ↔
    (∃ f ∈ s.faults, f.span.Holds n) ∨ s.InFront (rest.take (s.next rest).reported) n := by
  show (∃ f ∈ (s.record rest (s.next rest)).faults, f.span.Holds n) ↔ _
  cases s.next rest with
  | unknownLine => exact holds_report
  | unexpected => exact holds_reportMore
  | layout | newline | token =>
    simp only [record, note, Event.reported, List.take_zero, not_inFront_nil, or_false]

/-! ## All steps -/

/-- What is in a token stays in it, and what was passed comes into none. -/
theorem holds_noted_run (hn : n < s.place.offset) :
    (∃ t ∈ (s.run rest).tokens, t.span.Holds n) ↔ ∃ t ∈ s.tokens, t.span.Holds n := by
  refine (run_induction (P := fun s' _ => n < s'.place.offset ∧
    ((∃ t ∈ s'.tokens, t.span.Holds n) ↔ ∃ t ∈ s.tokens, t.span.Holds n)) ?_ ⟨hn, Iff.rfl⟩).2
  rintro s' rest' hne ⟨hlt, ih⟩
  refine ⟨Nat.lt_trans hlt (s'.offset_step hne).1, ?_⟩
  have hfront : ¬ s'.InFront (rest'.take (s'.next rest').noted) n := fun h => Nat.not_lt.mpr h.1 hlt
  rw [holds_noted_step, ih, or_iff_left hfront]

/-- What is in a fault stays in it, and what was passed comes into none. -/
theorem holds_reported_run (hn : n < s.place.offset) :
    (∃ f ∈ (s.run rest).faults, f.span.Holds n) ↔ ∃ f ∈ s.faults, f.span.Holds n := by
  refine (run_induction (P := fun s' _ => n < s'.place.offset ∧
    ((∃ f ∈ s'.faults, f.span.Holds n) ↔ ∃ f ∈ s.faults, f.span.Holds n)) ?_ ⟨hn, Iff.rfl⟩).2
  rintro s' rest' hne ⟨hlt, ih⟩
  refine ⟨Nat.lt_trans hlt (s'.offset_step hne).1, ?_⟩
  have hfront : ¬ s'.InFront (rest'.take (s'.next rest').reported) n :=
    fun h => Nat.not_lt.mpr h.1 hlt
  rw [holds_reported_step, ih, or_iff_left hfront]

/-- A fault does not reach past the place of the tokenizer. -/
theorem Reached.fault_stop_le (h : Reached chars s rest) {f : ScanFault} (hf : f ∈ s.faults) :
    f.stop ≤ s.place.offset := by
  obtain ⟨passed, tiles, -, hlaid⟩ := exists_laid h
  have hmem : f ∈ tiles.filterMap Tile.fault? := by
    rw [hlaid.faults]
    exact List.mem_reverse.mpr hf
  obtain ⟨x, hx, hfault⟩ := List.mem_filterMap.mp hmem
  rw [hlaid.place, ← hlaid.text]
  exact hlaid.tiled.stop_le_offset (List.mem_filterMap.mpr ⟨x, hx, span?_of_fault? hfault⟩)

/-- **A byte is in a token or a fault just where the step that passes it puts it there.** -/
theorem Reached.holds_tokenize_iff {source : String} (h : Reached source.toList s rest)
    (hne : rest ≠ []) (hle : s.place.offset ≤ n) (hlt : n < (s.step rest).place.offset) :
    ((∃ t ∈ (tokenize source).tokens, t.span.Holds n) ↔
        s.InFront (rest.take (s.next rest).noted) n) ∧
      ((∃ f ∈ (tokenize source).faults, f.span.Holds n) ↔
        s.InFront (rest.take (s.next rest).reported) n) := by
  have hrun : Scanner.start.run source.toList =
      (s.step rest).run (rest.drop (s.next rest).taken) :=
    (reached_run .start).unique (reached_run (h.step hne))
  have htokens : ¬ ∃ t ∈ s.tokens, t.span.Holds n := fun ⟨t, ht, hholds⟩ =>
    Nat.not_lt.mpr hle (Nat.lt_of_lt_of_le hholds.2 (h.stop_le ht))
  have hfaults : ¬ ∃ f ∈ s.faults, f.span.Holds n := fun ⟨f, hf, hholds⟩ =>
    Nat.not_lt.mpr hle (Nat.lt_of_lt_of_le hholds.2 (h.fault_stop_le hf))
  simp only [tokenize, List.mem_reverse, hrun]
  rw [holds_noted_run hlt, holds_reported_run hlt, holds_noted_step, holds_reported_step,
    or_iff_right htokens, or_iff_right hfaults]
  exact ⟨Iff.rfl, Iff.rfl⟩

end Scanner

end Daybook
