import Daybook.Proofs.Token.Places
import Daybook.Proofs.Tree.Boundary
import Daybook.Proofs.Tree.Partition

/-!
# Faults point at the broken line

The fault of a region that is given up points into the first line of the region: at one of its
tokens, or at its end if its line break is missing. In the latter case the region is the end of the
tokens, so there is one such fault at most, and it is the last. No fault points in front of its
region, although tests that failed there are remembered. About `to_parse_error` and
`index_to_byte_span` ([SPEC 12.2]).

* `PointsIntoLine span region ts`: where the fault of a region is found.

Results:
* `last_of_segments`: a failure at the end is that of the last region.
* `pointsIntoLine_of_segments`: **the fault of a region points into its first line.**
* `faults_point_at_line`: **the faults of a token list, and of a source.**
-/

namespace Daybook.Tree

open Text

variable {ts us taken : List Token} {f : Failure} {t : Token} {as bs : List Segment}

/-! ## Causes -/

/-- A fault at a token does not tell of the end. -/
theorem cause_fault_of_cons (hrest : f.rest = t :: us) (last : Option Token) :
    (f.fault last).cause ≠ .missingNewline ∧ (f.fault last).cause ≠ .unexpectedEnd := by
  obtain ⟨rest, refusal⟩ := f
  obtain rfl : rest = t :: us := hrest
  cases refusal with
  | none => exact ⟨ParseCause.noConfusion, ParseCause.noConfusion⟩
  | some cause => cases cause <;> exact ⟨ParseCause.noConfusion, ParseCause.noConfusion⟩

/-- A failure at the end is that of the last region, and its line lacks its break. -/
theorem last_of_segments (h : segments ts = as ++ .broken taken f :: bs) (hrest : f.rest = []) :
    bs = [] ∧ taken <:+ ts ∧ (∀ t ∈ taken, t.kind ≠ .newline) ∧
      ∃ last ∈ taken.getLast?, ts.getLast? = some last ∧ last.kind ≠ .newline := by
  have hmem : .broken taken f ∈ segments ts := by simp [h]
  have hne : taken ≠ [] := tokens_ne_nil_of_mem_segments hmem
  have hpoints := pointsAt_of_segments h
  rw [Failure.PointsAt, hrest] at hpoints
  obtain ⟨hbehind, hopen⟩ := hpoints
  have hsuffix : taken <:+ ts := by
    refine ⟨as.flatMap Segment.tokens, ?_⟩
    rw [eq_of_segments h, hbehind, List.append_nil]
    rfl
  have hbs : bs = [] := by
    cases bs with
    | nil => rfl
    | cons s bs =>
      have hs : s ∈ segments ts := by simp [h]
      rw [List.flatMap_cons, List.append_eq_nil_iff] at hbehind
      exact absurd hbehind.1 (tokens_ne_nil_of_mem_segments hs)
  have hlast := List.getLast?_eq_some_getLast hne
  refine ⟨hbs, hsuffix, hopen, _, hlast, ?_, hopen _ (List.getLast_mem hne)⟩
  obtain ⟨front, rfl⟩ := hsuffix
  rw [List.getLast?_append, hlast, Option.some_or]

/-- A fault at the end tells that the line break is missing. -/
theorem cause_fault_of_nil (hrest : f.rest = []) {last : Token} (hlast : last.kind ≠ .newline) :
    (f.fault (some last)).cause = .missingNewline := by
  rw [Failure.fault, hrest]
  simp only [faultAtEnd, if_neg hlast]

/-- **No fault tells that the input ends**, and only the last one that its line break is missing. -/
theorem cause_of_segments (h : segments ts = as ++ .broken taken f :: bs) :
    (f.fault ts.getLast?).cause ≠ .unexpectedEnd ∧
      ((f.fault ts.getLast?).cause = .missingNewline → bs = [] ∧ ¬ Closed ts) := by
  cases hrest : f.rest with
  | nil =>
    obtain ⟨hbs, -, -, last, -, hlast, hkind⟩ := last_of_segments h hrest
    rw [hlast, cause_fault_of_nil hrest hkind]
    exact ⟨ParseCause.noConfusion, fun _ => ⟨hbs, fun hclosed => hkind (hclosed last hlast)⟩⟩
  | cons t us =>
    obtain ⟨hmissing, hend⟩ := cause_fault_of_cons hrest ts.getLast?
    exact ⟨hend, fun hcause => absurd hcause hmissing⟩

/-! ## Faults -/

/-- The span is that of a token of the first line of the region, or it is the end of the region
where that is a line without its break and nothing comes behind it. -/
def PointsIntoLine (span : Span) (region ts : List Token) : Prop :=
  (∃ t ∈ firstLine region, span = t.span) ∨
    region <:+ ts ∧ (∀ t ∈ region, t.kind ≠ .newline) ∧
      ∃ t ∈ region.getLast?, span = ⟨t.stop, t.stop⟩

theorem PointsIntoLine.start_le_stop {span : Span} (h : PointsIntoLine span taken ts) :
    span.start ≤ span.stop := by
  rcases h with ⟨t, -, rfl⟩ | ⟨-, -, t, -, rfl⟩
  · exact Nat.le_add_right _ _
  · exact Nat.le_refl _

/-- **The fault of a region points into its first line.** -/
theorem pointsIntoLine_of_segments (h : segments ts = as ++ .broken taken f :: bs) :
    PointsIntoLine (f.fault ts.getLast?).span taken ts := by
  cases hrest : f.rest with
  | nil =>
    obtain ⟨-, hsuffix, hopen, last, hlast, hend, -⟩ := last_of_segments h hrest
    rw [hend]
    exact .inr ⟨hsuffix, hopen, last, hlast, span_fault_of_nil hrest last⟩
  | cons t us =>
    have hpoints := pointsAt_of_segments h
    rw [Failure.PointsAt, hrest] at hpoints
    exact .inl ⟨t, hpoints, span_fault_of_cons hrest _⟩

/-- What is found with more behind it is found of a member with members behind it. -/
theorem mem_dropLast_filterMap {α β : Type} {g : α → Option β} {l : List α} {b : β}
    (h : b ∈ (l.filterMap g).dropLast) :
    ∃ as a bs, l = as ++ a :: bs ∧ g a = some b ∧ bs ≠ [] := by
  induction l with
  | nil => exact absurd h List.not_mem_nil
  | cons a l ih =>
    cases ha : g a with
    | none =>
      rw [List.filterMap_cons_none ha] at h
      obtain ⟨as, a', bs, rfl, hb, hbs⟩ := ih h
      exact ⟨a :: as, a', bs, rfl, hb, hbs⟩
    | some b' =>
      rw [List.filterMap_cons_some ha] at h
      rcases mem_dropLast_cons h with ⟨rfl, hne⟩ | hmore
      · refine ⟨[], a, l, rfl, ha, ?_⟩
        rintro rfl
        exact hne rfl
      · obtain ⟨as, a', bs, rfl, hb, hbs⟩ := ih hmore
        exact ⟨a :: as, a', bs, rfl, hb, hbs⟩

/-- A fault is that of a region. -/
theorem exists_segments_of_mem_faults {fault : ParseFault} (h : fault ∈ (Tree.ofTokens ts).faults) :
    ∃ as taken f bs, segments ts = as ++ .broken taken f :: bs ∧ fault = f.fault ts.getLast? := by
  obtain ⟨f, hf, rfl⟩ := List.mem_map.mp h
  obtain ⟨s, hs, hfailure⟩ := List.mem_filterMap.mp hf
  obtain ⟨taken, rfl⟩ := Segment.failure?_eq_some_iff.mp hfailure
  obtain ⟨as, bs, hsplit⟩ := List.append_of_mem hs
  exact ⟨as, taken, f, bs, hsplit, rfl⟩

/-- What a source holds at a fault: text of one line, or nothing at the end of a token. -/
theorem exists_slice_of_mem_faults {source : String} {fault : ParseFault}
    (h : fault ∈ (Tree.ofTokens (tokenize source).tokens).faults) :
    ∃ text, fault.span.slice? source = some text ∧ '\n' ∉ text.toList.dropLast := by
  obtain ⟨as, taken, f, bs, hsplit, rfl⟩ := exists_segments_of_mem_faults h
  have hmem : .broken taken f ∈ segments (tokenize source).tokens := by simp [hsplit]
  have htaken : taken ⊆ (tokenize source).tokens := (isInfix_of_mem_segments hmem).subset
  have hslice (before inside after : List Char)
      (hsource : source.toList = before ++ (inside ++ after)) (start stop : Nat)
      (hstart : start = byteLength before) (hstop : stop = start + byteLength inside) :
      Span.slice? ⟨start, stop⟩ source = some (String.ofList inside) := by
    rw [hstop, hstart, ← String.ofList_toList (s := source), hsource]
    exact Span.slice?_append before inside after
  rcases pointsIntoLine_of_segments hsplit with ⟨t, ht, hspan⟩ | ⟨-, -, t, ht, hspan⟩
  · have hmem := htaken ((firstLine_isPrefix taken).subset ht)
    obtain ⟨before, after, hsource, hoffset⟩ := exists_split_of_mem_tokenize hmem
    refine ⟨t.image, ?_, not_mem_dropLast_of_mem_tokenize hmem⟩
    rw [hspan, Token.span, hslice before _ after hsource t.offset t.stop hoffset rfl,
      String.ofList_toList]
  · have hmem := htaken (List.mem_of_mem_getLast? ht)
    obtain ⟨before, after, hsource, hoffset⟩ := exists_split_of_mem_tokenize hmem
    refine ⟨"", ?_, List.not_mem_nil⟩
    rw [hspan]
    refine hslice (before ++ t.image.toList) [] after (by simp [hsource]) _ _ ?_ rfl
    rw [byteLength_append, ← hoffset]
    rfl

/-- **Faults point at the broken line.** The span of each fault is that of a token, or it is empty
and lies behind the last token. The faults are those of the regions that are given up, in order, and
each points into the first line of its region. That the last line break is missing is told of the
last region alone, if the tokens do not end in a line break, and that the input ends is told of
none. In a source a fault holds text of one line, at most with its line break. -/
theorem faults_point_at_line (ts : List Token) :
    (∀ fault ∈ (Tree.ofTokens ts).faults, (∃ t ∈ ts, fault.span = t.span) ∨
      ∃ last ∈ ts.getLast?, fault.span = ⟨last.stop, last.stop⟩) ∧
    List.Forall₂ (fun region fault => PointsIntoLine (ParseFault.span fault) region ts)
      ((segments ts).filterMap Segment.region?) (Tree.ofTokens ts).faults ∧
    (Closed ts → ∀ fault ∈ (Tree.ofTokens ts).faults, fault.cause ≠ .missingNewline) ∧
    (∀ fault ∈ (Tree.ofTokens ts).faults.dropLast, fault.cause ≠ .missingNewline) ∧
    (∀ fault ∈ (Tree.ofTokens ts).faults, fault.cause ≠ .unexpectedEnd) ∧
    ∀ source, ∀ fault ∈ (Tree.ofTokens (tokenize source).tokens).faults,
      fault.span.start ≤ fault.span.stop ∧
      ∃ text, fault.span.slice? source = some text ∧ '\n' ∉ text.toList.dropLast := by
  refine ⟨fun fault hfault => ?_, ?_, fun hclosed fault hfault => ?_, fun fault hfault => ?_,
    fun fault hfault => ?_, fun source fault hfault => ⟨?_, exists_slice_of_mem_faults hfault⟩⟩
  · obtain ⟨as, taken, f, bs, hsplit, rfl⟩ := exists_segments_of_mem_faults hfault
    have hmem : .broken taken f ∈ segments ts := by simp [hsplit]
    rcases pointsIntoLine_of_segments hsplit with ⟨t, ht, hspan⟩ | ⟨⟨front, rfl⟩, -, t, ht, hspan⟩
    · have hline := (firstLine_isPrefix taken).subset ht
      exact .inl ⟨t, (isInfix_of_mem_segments hmem).subset hline, hspan⟩
    · refine .inr ⟨t, ?_, hspan⟩
      rw [List.getLast?_append, Option.mem_def.mp ht]
      rfl
  · refine forall₂_faults _ fun taken f hmem => ?_
    obtain ⟨as, bs, hsplit⟩ := List.append_of_mem hmem
    exact pointsIntoLine_of_segments hsplit
  · obtain ⟨as, taken, f, bs, hsplit, rfl⟩ := exists_segments_of_mem_faults hfault
    exact fun hcause => ((cause_of_segments hsplit).2 hcause).2 hclosed
  · have hmem : fault ∈ (((segments ts).filterMap Segment.failure?).dropLast).map
        (Failure.fault ts.getLast?) := by rwa [List.map_dropLast]
    obtain ⟨f, hf, rfl⟩ := List.mem_map.mp hmem
    obtain ⟨as, s, bs, hsplit, hfailure, hne⟩ := mem_dropLast_filterMap hf
    obtain ⟨taken, rfl⟩ := Segment.failure?_eq_some_iff.mp hfailure
    exact fun hcause => hne ((cause_of_segments hsplit).2 hcause).1
  · obtain ⟨as, taken, f, bs, hsplit, rfl⟩ := exists_segments_of_mem_faults hfault
    exact (cause_of_segments hsplit).1
  · obtain ⟨as, taken, f, bs, hsplit, rfl⟩ := exists_segments_of_mem_faults hfault
    exact (pointsIntoLine_of_segments hsplit).start_le_stop

end Daybook.Tree
