import Daybook.Tree.Block
import Daybook.Tree.Fault
import Daybook.Tree.Grammar

/-!
# From tokens to a tree

Model of `journal`, `index_to_byte_span` and `parse` ([SPEC 4.2]). Each block of a token list is cut
into segments: items, the breaks of empty lines between them, and broken stretches. A stretch that
starts no item is given up with its line and with the indented lines under it (`skip_item`), and
reported once. In a block the tests that failed are remembered across an item that was read, for the
lines of an item end where one of them failed.

Results:
* `flatMap_tokens_segments`: **no token is lost**: the segments in order hold all tokens in order.
* `tokens_ne_nil_of_mem_segments`: no segment is empty.
* `exists_segment`: an item is that of a segment.
-/

namespace Daybook.Tree

open Daybook.Tree.Parser

/-- A piece of the token list. -/
inductive Segment
  /-- The break of an empty line. -/
  | blank (newline : Token)
  /-- An item and the tokens that it was read from. -/
  | item (item : Item) (taken : List Token)
  /-- Tokens given up, and the failure to report. -/
  | broken (taken : List Token) (failure : Failure)
deriving DecidableEq

/-- The tokens of a segment. -/
def Segment.tokens : Segment → List Token
  | blank newline => [newline]
  | item _ taken => taken
  | broken taken _ => taken

/-- The tokens in front of an end of the list. -/
def inFrontOf (rest ts : List Token) : List Token := ts.take (ts.length - rest.length)

theorem inFrontOf_append {rest ts : List Token} (h : rest <:+ ts) :
    inFrontOf rest ts ++ rest = ts := by
  obtain ⟨front, rfl⟩ := h
  simp [inFrontOf]

theorem inFrontOf_append_left (front rest : List Token) :
    inFrontOf rest (front ++ rest) = front := by simp [inFrontOf]

theorem inFrontOf_ne_nil {rest ts : List Token} (h : rest.length < ts.length) :
    inFrontOf rest ts ≠ [] := by
  intro hnil
  have := congrArg List.length hnil
  simp only [inFrontOf, List.length_take, List.length_nil] at this
  omega

/-- The furthest failure up to tokens that start no empty line: of those in front of them, of the
test for an empty line, and of the tests for an item. -/
def furthestAt (sofar : Option Failure) (ts : List Token) (failures : List Failure) : Failure :=
  failures.foldl Failure.furthest ((sofar.getD ⟨ts, none⟩).furthest ⟨ts, none⟩)

/-- The segments of the rest of a block, where this is the furthest failure in front of it. -/
def segmentsAfter (sofar : Option Failure) : List Token → List Segment
  | [] => []
  | t :: ts =>
    if t.kind = .newline then .blank t :: segmentsAfter sofar ts
    else
      let reply := Grammar.item (t :: ts)
      let failure := furthestAt sofar (t :: ts) reply.failures
      match _ : reply.result with
      | some (item, rest) =>
        .item item (inFrontOf rest (t :: ts)) :: segmentsAfter (some failure) rest
      | none =>
        let rest := Grammar.brokenRest.left ts
        .broken (inFrontOf rest (t :: ts)) failure ::
          segmentsAfter (Failure.furthest? (Grammar.brokenRest ts).failures) rest
termination_by ts => ts.length
decreasing_by
  · exact Nat.lt_succ_self _
  · exact Grammar.item.length_lt ‹_›
  · exact Nat.lt_succ_of_le (Grammar.brokenRest.left_isSuffix ts).length_le

theorem segmentsAfter_nil (sofar : Option Failure) : segmentsAfter sofar [] = [] := by
  rw [segmentsAfter]

variable {sofar : Option Failure} {t : Token} {ts rest : List Token}

theorem segmentsAfter_blank (ht : t.kind = .newline) :
    segmentsAfter sofar (t :: ts) = .blank t :: segmentsAfter sofar ts := by
  rw [segmentsAfter, if_pos ht]

theorem segmentsAfter_item (ht : t.kind ≠ .newline) {item : Item}
    (h : (Grammar.item (t :: ts)).result = some (item, rest)) :
    segmentsAfter sofar (t :: ts) = .item item (inFrontOf rest (t :: ts)) ::
      segmentsAfter (some (furthestAt sofar (t :: ts) (Grammar.item (t :: ts)).failures)) rest := by
  rw [segmentsAfter, if_neg ht]
  simp only
  split
  · next heq =>
    rw [h] at heq
    cases heq
    rfl
  · next heq => simp [h] at heq

theorem segmentsAfter_broken (ht : t.kind ≠ .newline) (h : (Grammar.item (t :: ts)).result = none) :
    segmentsAfter sofar (t :: ts) = .broken (inFrontOf (Grammar.brokenRest.left ts) (t :: ts))
        (furthestAt sofar (t :: ts) (Grammar.item (t :: ts)).failures) ::
      segmentsAfter (Failure.furthest? (Grammar.brokenRest ts).failures)
        (Grammar.brokenRest.left ts) := by
  rw [segmentsAfter, if_neg ht]
  simp only
  split
  · next heq => simp [h] at heq
  · rfl

/-- The segments of a token list. -/
def segments (ts : List Token) : List Segment := (blocks ts).flatMap (segmentsAfter none)

theorem flatMap_tokens_segmentsAfter (sofar : Option Failure) (ts : List Token) :
    (segmentsAfter sofar ts).flatMap Segment.tokens = ts := by
  fun_induction segmentsAfter sofar ts with
  | case1 => rfl
  | case2 sofar t ts _ ih => rw [List.flatMap_cons, ih]; rfl
  | case3 sofar t ts _ reply failure item rest h ih =>
    rw [List.flatMap_cons, ih]
    exact inFrontOf_append (Grammar.item.isSuffix h)
  | case4 sofar t ts _ reply failure h rest ih =>
    rw [List.flatMap_cons, ih]
    exact inFrontOf_append
      ((Grammar.brokenRest.left_isSuffix ts).trans (List.suffix_cons t ts))

/-- **No token is lost.** -/
theorem flatMap_tokens_segments (ts : List Token) :
    (segments ts).flatMap Segment.tokens = ts := by
  simp only [segments, List.flatMap_assoc, flatMap_tokens_segmentsAfter]
  rw [List.flatMap_id', flatten_blocks]

/-- The tokens of a segment stand between those of the segments around it. -/
theorem eq_of_segments {ts : List Token} {as bs : List Segment} {s : Segment}
    (h : segments ts = as ++ s :: bs) :
    ts = as.flatMap Segment.tokens ++ (s.tokens ++ bs.flatMap Segment.tokens) := by
  calc ts = (segments ts).flatMap Segment.tokens := (flatMap_tokens_segments ts).symm
    _ = as.flatMap Segment.tokens ++ (s.tokens ++ bs.flatMap Segment.tokens) := by
      rw [h, List.flatMap_append, List.flatMap_cons]

/-- A segment is a stretch of the tokens. -/
theorem isInfix_of_mem_segments {ts : List Token} {s : Segment} (h : s ∈ segments ts) :
    s.tokens <:+: ts := by
  have hinfix := List.infix_of_mem_flatten (List.mem_map_of_mem (f := Segment.tokens) h)
  rwa [← List.flatMap_def, flatMap_tokens_segments] at hinfix

theorem tokens_ne_nil_of_mem_segmentsAfter (sofar : Option Failure) (ts : List Token) :
    ∀ s ∈ segmentsAfter sofar ts, s.tokens ≠ [] := by
  fun_induction segmentsAfter sofar ts with
  | case1 => simp
  | case2 sofar t ts _ ih => exact List.forall_mem_cons.mpr ⟨List.cons_ne_nil _ _, ih⟩
  | case3 sofar t ts _ reply failure item rest h ih =>
    exact List.forall_mem_cons.mpr ⟨inFrontOf_ne_nil (Grammar.item.length_lt h), ih⟩
  | case4 sofar t ts _ reply failure h rest ih =>
    exact List.forall_mem_cons.mpr
      ⟨inFrontOf_ne_nil (Nat.lt_succ_of_le (Grammar.brokenRest.left_isSuffix ts).length_le), ih⟩

/-- **No segment is empty.** -/
theorem tokens_ne_nil_of_mem_segments {ts : List Token} {s : Segment} (h : s ∈ segments ts) :
    s.tokens ≠ [] := by
  obtain ⟨block, -, hs⟩ := List.mem_flatMap.mp h
  exact tokens_ne_nil_of_mem_segmentsAfter none block s hs

/-- The span of an item: from its first token to its last. -/
def spanOf (tokens : List Token) : Span :=
  match tokens.head?, tokens.getLast? with
  | some first, some last => ⟨first.offset, max last.stop first.offset⟩
  | _, _ => ⟨0, 0⟩

/-- The item that a segment holds, and where it stands. -/
def Segment.item? : Segment → Option (Located Item)
  | item x taken => some ⟨x, spanOf taken⟩
  | _ => none

theorem Segment.item?_eq_some_iff {s : Segment} {x : Located Item} :
    s.item? = some x ↔ ∃ taken, s = .item x.value taken ∧ x.span = spanOf taken := by
  constructor
  · intro h
    cases s with
    | item y taken =>
      obtain rfl := Option.some.inj h
      exact ⟨taken, rfl, rfl⟩
    | blank => cases h
    | broken => cases h
  · rintro ⟨taken, rfl, hspan⟩
    rw [item?, ← hspan]

/-- The failure that a segment reports. -/
def Segment.failure? : Segment → Option Failure
  | broken _ failure => some failure
  | _ => none

end Tree

/-- The items of a journal as they were read, and what could not be read. -/
structure Tree where
  /-- The items, in order. -/
  items : List (Located Tree.Item)
  /-- The faults, in order. -/
  faults : List ParseFault
deriving DecidableEq

/-- The tree of a token list. -/
def Tree.ofTokens (ts : List Token) : Tree :=
  let segments := Tree.segments ts
  ⟨segments.filterMap Tree.Segment.item?,
    (segments.filterMap Tree.Segment.failure?).map (Tree.Failure.fault ts.getLast?)⟩

/-- An item is that of a segment. -/
theorem Tree.exists_segment {ts : List Token} {x : Located Tree.Item}
    (hx : x ∈ (Tree.ofTokens ts).items) :
    ∃ taken, .item x.value taken ∈ Tree.segments ts ∧ x.span = Tree.spanOf taken := by
  obtain ⟨s, hs, hitem⟩ := List.mem_filterMap.mp hx
  obtain ⟨taken, rfl, hspan⟩ := Tree.Segment.item?_eq_some_iff.mp hitem
  exact ⟨taken, hs, hspan⟩

end Daybook
