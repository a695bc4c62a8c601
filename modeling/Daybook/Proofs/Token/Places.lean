import Daybook.Proofs.Token.Dropped
import Mathlib.Data.List.DropRight

/-!
# Lines and columns

The tokenizer counts its lines and notes where the last one starts, and it starts a line in two
places only: behind a line break that becomes a token, and behind the break of a line that is
dropped. All other steps stay on their line, so the line and the column of a token or a fault are
those that are counted in the text in front of it, and no line feed hides in a token or in a fault.
The counter is that of `start_line`, and the column that of `column` ([SPEC 13.6]).

* `Place.StandsBehind p before`: line and column as they are counted in a text.
* `LineCounter`: the number of a line and where it starts, with `startLine` and `column?`.
* `Event.startsLine e`: the tokenizer starts a line behind `e`.
* `Scanner.Moves s rest`: a step goes along the line, or across its break.
* `Scanner.Counted source s c rest`: a state that is reached, with the counter that is kept.
* `ScanFault.InLine source f`: a fault stands in one line of the source.

Results:
* `standsBehind_advance`: a place that is carried along is the one that is counted.
* `moves_step`: **a step goes along the line, or across a break that is noted or dropped.**
* `Counted.column?`: **the counter tells the line and the column of the place.**
* `Reached.inLine`: a fault stands in one line, also while it grows.
* `tokenize_places`: **lines and columns are right**, and a line feed is in line breaks only.
-/

namespace Daybook

open Text

variable {source rest text : List Char} {f : ScanFault} {t : Token}

/-! ## Counting lines and columns -/

namespace Text.Place

/-- The place right behind a text. The line feeds of the text tell its line, and the characters
behind the last of them its column. -/
structure StandsBehind (p : Place) (before : List Char) : Prop where
  offset : p.offset = byteLength before
  line : p.line = 1 + before.count '\n'
  column : p.column = 1 + (before.rtakeWhile (· ≠ '\n')).length

/-- **A place that is carried along a text is the one that is counted.** -/
theorem standsBehind_advance (before : List Char) :
    (Place.start.advance before).StandsBehind before where
  offset := (Place.start.offset_advance before).trans (Nat.zero_add _)
  line := Place.start.line_advance before
  column := by
    induction before using List.reverseRecOn with
    | nil => rfl
    | append_singleton before c ih =>
      rw [advance_append, advance_cons, advance_nil]
      by_cases hc : c = '\n'
      · subst hc
        rw [List.rtakeWhile_concat_neg _ _ _ (by decide)]
        rfl
      · rw [List.rtakeWhile_concat_pos _ _ _ (by simpa using hc), List.length_append,
          (next_of_ne _ hc).2, ih]
        rfl

end Text.Place

/-! ## How a step moves -/

/-- The number of a line, and the offset at which it starts (`line` and `line_start`). -/
structure LineCounter where
  /-- The number of the line, from 1. -/
  line : Nat
  /-- Bytes before the line. -/
  start : Nat

namespace LineCounter

/-- The first line of a source. -/
def first : LineCounter := ⟨1, 0⟩

/-- The next line, which starts at this offset (`start_line`). -/
def startLine (c : LineCounter) (offset : Nat) : LineCounter := ⟨c.line + 1, offset⟩

/-- The column of an offset on the line: the characters of the source in front of it, from the start
of the line, and one (`column`). -/
def column? (c : LineCounter) (source : String) (offset : Nat) : Option Nat :=
  (Span.slice? ⟨c.start, offset⟩ source).map (·.length + 1)

end LineCounter

/-- Whether the next line is started behind what comes: behind a line break that is noted, and
behind a line that is dropped with its break. -/
def Event.startsLine : Event → Bool
  | newline _ _ => true
  | unknownLine _ breakLength _ => 0 < breakLength
  | layout _ _ | token _ _ _ | unexpected _ => false

namespace Scanner

variable {s : Scanner} {c : LineCounter}

/-- How the next step moves the place. -/
inductive Moves (s : Scanner) (rest : List Char) : Prop
  /-- Along the line, by the characters that it takes. -/
  | along (hstarts : (s.next rest).startsLine = false)
      (hline : (s.step rest).place.line = s.place.line)
      (hcolumn : (s.step rest).place.column = s.place.column + (s.next rest).taken)
  /-- Across the break of the line, which is noted as a token or dropped with its line. -/
  | across (hstarts : (s.next rest).startsLine = true)
      (hline : (s.step rest).place.line = s.place.line + 1)
      (hcolumn : (s.step rest).place.column = 1)
      (hbreak : (∃ t, (s.step rest).tokens = t :: s.tokens ∧ t.kind = .newline ∧
          t.place = s.place) ∨ (s.step rest).dropped = s.place :: s.dropped)

/-- A line feed comes last in what a step takes, and only there a line is started. -/
theorem taken_cases (hne : rest ≠ []) :
    (s.next rest).startsLine = false ∧ '\n' ∉ rest.take (s.next rest).taken ∨
    (s.next rest).startsLine = true ∧ ∃ line, rest.take (s.next rest).taken = line ++ ['\n'] := by
  have hcomes := comes_next (s := s) hne
  generalize s.next rest = e at hcomes
  have hfeed {gap : List Char} (h : IsBreak gap) (line : List Char) :
      ∃ front, line ++ gap = front ++ ['\n'] := by
    rcases h with rfl | rfl
    · exact ⟨line, rfl⟩
    · exact ⟨line ++ ['\r'], by simp⟩
  cases hcomes with
  | layout _ hlayout => exact .inl ⟨rfl, fun hmem => absurd (hlayout _ hmem) (by decide)⟩
  | @newline _ _ gap tail hrest hbreak hlen =>
    refine .inr ⟨rfl, ?_⟩
    rw [hrest, Event.taken, ← hlen, List.take_left]
    exact hfeed hbreak []
  | token _ hfound =>
    refine .inl ⟨rfl, fun hmem => ?_⟩
    exact absurd ((onLine_token? hfound).endsLine_eq_false hmem) (by decide)
  | @unknownLine _ _ _ text gap tail _ _ hrest htext hgap hline hbreak =>
    have htaken : rest.take (text.length + gap.length) = text ++ gap := by
      rw [hrest, ← List.append_assoc, ← List.length_append, List.take_left]
    rw [Event.taken, Event.startsLine, ← htext, ← hgap, htaken]
    rcases hbreak with rfl | hbreak
    · exact .inl ⟨rfl, by rwa [List.append_nil]⟩
    · exact .inr ⟨decide_eq_true (List.length_pos_of_ne_nil hbreak.ne_nil), hfeed hbreak text⟩
  | unexpected _ hrest hbreak =>
    refine .inl ⟨rfl, fun hmem => hbreak ?_⟩
    rw [hrest] at hmem
    exact (List.mem_singleton.mp hmem).symm

/-- **A step goes along the line, or across a break that is noted or dropped.** -/
theorem moves_step (hne : rest ≠ []) : s.Moves rest := by
  have hplace := s.place_step rest
  have hline := s.place.line_advance (rest.take (s.next rest).taken)
  rcases taken_cases (s := s) hne with ⟨hstarts, hstay⟩ | ⟨hstarts, line, hfeed⟩
  · obtain ⟨hsame, hcolumn⟩ := s.place.advance_inLine hstay
    rw [← hplace] at hsame hcolumn
    rw [List.length_take_of_le (taken_next_le hne)] at hcolumn
    exact .along hstarts hsame hcolumn
  · have hcount : 0 < (rest.take (s.next rest).taken).count '\n' :=
      List.count_pos_iff.mpr (by rw [hfeed]; simp)
    rw [← hplace] at hline
    rcases line_step (s := s) hne with hsame | ⟨hnext, hnoted⟩
    · omega
    · refine .across hstarts hnext ?_ hnoted
      rw [hplace, hfeed]
      exact Place.column_advance_break _ line

/-- The states that are reached, each with the counter that is kept on the way. -/
inductive Counted (source : List Char) : Scanner → LineCounter → List Char → Prop
  /-- At the start. -/
  | start : Counted source .start .first source
  /-- After one more step. -/
  | step {s : Scanner} {c : LineCounter} {rest : List Char} (h : Counted source s c rest)
      (hne : rest ≠ []) :
      Counted source (s.step rest)
        (if (s.next rest).startsLine then c.startLine (s.step rest).place.offset else c)
        (rest.drop (s.next rest).taken)

theorem Reached.exists_counted {source : List Char} (h : Reached source s rest) :
    ∃ c, Counted source s c rest := by
  induction h with
  | start => exact ⟨_, .start⟩
  | step _ hne ih => exact ⟨_, ih.choose_spec.step hne⟩

/-- A counter starts its line in front of the place, and its line and the characters of it up to the
place are those of the place. -/
structure CountsTo (source : List Char) (s : Scanner) (c : LineCounter) (rest : List Char) :
    Prop where
  line : c.line = s.place.line
  split : ∃ before front, source = before ++ (front ++ rest) ∧ c.start = byteLength before ∧
    s.place.offset = byteLength before + byteLength front ∧ s.place.column = front.length + 1

/-- **The counter says where the place is**, as each step starts a line where the place does. -/
theorem Counted.countsTo {source : List Char} (h : Counted source s c rest) :
    CountsTo source s c rest := by
  induction h with
  | start => exact ⟨rfl, [], [], rfl, rfl, rfl, rfl⟩
  | @step s c rest _ hne ih =>
    obtain ⟨hsame, before, front, hsource, hstart, hoffset, hcolumn⟩ := ih
    have hsplit := List.take_append_drop (s.next rest).taken rest
    have hlength := List.length_take_of_le (taken_next_le (s := s) hne)
    have hmoved : (s.step rest).place.offset =
        byteLength before + byteLength (front ++ rest.take (s.next rest).taken) := by
      rw [s.place_step, Place.offset_advance, hoffset, byteLength_append, Nat.add_assoc]
    cases moves_step (s := s) hne with
    | along hstarts hline hcount =>
      rw [hstarts]
      refine ⟨hsame.trans hline.symm, before, front ++ rest.take (s.next rest).taken, ?_, hstart,
        hmoved, ?_⟩
      · rw [List.append_assoc, hsplit, hsource]
      · rw [hcount, hcolumn, List.length_append, hlength]
        omega
    | across hstarts hline hcount _ =>
      rw [hstarts]
      refine ⟨(congrArg (· + 1) hsame).trans hline.symm,
        before ++ (front ++ rest.take (s.next rest).taken), [], ?_, ?_, ?_, hcount⟩
      · rw [List.nil_append, List.append_assoc, List.append_assoc, hsplit, hsource]
      · exact hmoved.trans (byteLength_append _ _).symm
      · exact hmoved.trans (byteLength_append _ _).symm

/-- **The counter tells the line and the column of the place.** -/
theorem Counted.column? {source : String} (h : Counted source.toList s c rest) :
    c.line = s.place.line ∧ c.column? source s.place.offset = some s.place.column := by
  obtain ⟨hline, before, front, hsource, hstart, hoffset, hcolumn⟩ := h.countsTo
  refine ⟨hline, ?_⟩
  rw [LineCounter.column?, hstart, hoffset, hcolumn, ← String.ofList_toList (s := source), hsource,
    Span.slice?_append, Option.map_some, String.length_ofList]

end Scanner

/-! ## Faults -/

/-- The fault covers a text of the source in which no line feed is. -/
def ScanFault.InLine (source : List Char) (f : ScanFault) : Prop :=
  ∃ before text after, source = before ++ (text ++ after) ∧
    f.place = Place.start.advance before ∧ f.length = byteLength text ∧ '\n' ∉ text

namespace Scanner

variable {s : Scanner}

/-- A text at the place of the tokenizer. -/
theorem Reached.inLine_of_front (h : Reached source s rest) {n : Nat}
    (hline : '\n' ∉ rest.take n) (cause : ScanCause) :
    ScanFault.InLine source ⟨s.place, byteLength (rest.take n), cause⟩ := by
  obtain ⟨passed, hsource, hplace, -⟩ := exists_passed h
  exact ⟨passed, rest.take n, rest.drop n, by rw [List.take_append_drop, hsource], hplace, rfl,
    hline⟩

/-- A fault that ends right here grows by a text that stays on the line. -/
theorem Reached.inLine_grow (h : Reached source s rest) (hf : f.InLine source)
    (hstop : f.stop = s.place.offset) {n : Nat} (hline : '\n' ∉ rest.take n) :
    ScanFault.InLine source { f with length := f.length + byteLength (rest.take n) } := by
  obtain ⟨passed, hsource, hplace, -⟩ := exists_passed h
  obtain ⟨before, text, after, hsplit, hfp, hlength, htext⟩ := hf
  have hoffset (cs : List Char) := (Place.standsBehind_advance cs).offset
  -- the text of the fault is the end of what has been passed
  obtain ⟨rfl, rfl⟩ : before ++ text = passed ∧ after = rest := by
    refine append_inj_of_byteLength ?_ ?_
    · rw [List.append_assoc, ← hsplit, hsource]
    · rw [ScanFault.stop, hfp, hlength, hoffset, hplace, hoffset] at hstop
      rw [byteLength_append, hstop]
  refine ⟨before, text ++ after.take n, after.drop n, ?_, hfp, ?_, ?_⟩
  · rw [hsplit, List.append_assoc, List.take_append_drop]
  · rw [byteLength_append, ← hlength]
  · exact fun hmem => (List.mem_append.mp hmem).elim htext hline

/-- **A fault stands in one line.** -/
theorem Reached.inLine (h : Reached source s rest) : ∀ f ∈ s.faults, f.InLine source := by
  induction h with
  | start => simp [Scanner.start]
  | @step s rest hreached hne ih =>
    have hcomes := comes_next (s := s) hne
    unfold Scanner.step
    generalize s.next rest = e at hcomes
    show ∀ f ∈ (s.record rest e).faults, f.InLine source
    cases hcomes with
    | layout | newline | token => exact ih
    | @unknownLine n b _ text gap tail _ _ hrest htext _ hline _ =>
      have htake : rest.take n = text := by rw [hrest, ← htext, List.take_left]
      exact List.forall_mem_cons.mpr ⟨hreached.inLine_of_front (htake ▸ hline) _, ih⟩
    | @unexpected c tail _ hrest hbreak =>
      have hline : '\n' ∉ rest.take 1 := by
        rw [hrest]
        exact fun hmem => hbreak (List.mem_singleton.mp hmem).symm
      show ∀ f ∈ (s.reportMore (rest.take 1) s.modes.top).faults, f.InLine source
      rcases s.reportMore_cases (rest.take 1) s.modes.top with
        ⟨last, faults, hfaults, hgrows, hmore⟩ | hmore
      · rw [hmore]
        obtain ⟨hlast, hothers⟩ := List.forall_mem_cons.mp (hfaults ▸ ih)
        exact List.forall_mem_cons.mpr ⟨hreached.inLine_grow hlast hgrows.1 hline, hothers⟩
      · rw [hmore]
        exact List.forall_mem_cons.mpr ⟨hreached.inLine_of_front hline _, ih⟩

end Scanner

/-! ## The places of a source -/

/-- The places of all tokens and of all faults. -/
def TokenStream.places (stream : TokenStream) : List Place :=
  stream.tokens.map (·.place) ++ stream.faults.map (·.place)

/-- Where a token is noted its text stands, without a line feed or with the one of a line break. -/
theorem count_of_mem_tokenize {source : String} (ht : t ∈ (tokenize source).tokens) :
    t.image.toList.count '\n' = if t.kind = .newline then 1 else 0 := by
  obtain ⟨s, rest, -, hne, hnotes⟩ := Scanner.exists_notes_of_mem_tokenize ht
  have hcomes := comes_next (s := s) hne
  rw [hnotes.image]
  split
  · next hkind =>
    rcases hnotes.next with ⟨⟨n, hn, hnext⟩, -⟩ | ⟨found, move, hnext, -⟩
    · rw [hnext] at hcomes ⊢
      cases hcomes with
      | newline hrest hbreak hlen =>
        rw [hrest, Event.taken, ← hlen, List.take_left, hbreak.count_eq]
    · rw [hnext] at hcomes
      cases hcomes with
      | token _ hfound => exact absurd hkind (admits_token? hfound).kind_ne
  · next hkind =>
    obtain ⟨found, move, hnext, -, hfound⟩ := hnotes.exists_found hne hkind
    rw [hnext, List.count_eq_zero]
    exact fun hmem => absurd ((onLine_token? hfound).endsLine_eq_false hmem) (by decide)

/-- A token stands in the source where its place says. -/
theorem exists_split_of_mem_tokenize {source : String} (ht : t ∈ (tokenize source).tokens) :
    ∃ before after, source.toList = before ++ (t.image.toList ++ after) ∧
      t.offset = byteLength before := by
  obtain ⟨s, rest, hreached, -, hnotes⟩ := Scanner.exists_notes_of_mem_tokenize ht
  obtain ⟨passed, hpassed, hplace, -⟩ := Scanner.exists_passed hreached
  refine ⟨passed, rest.drop (s.next rest).taken, ?_, ?_⟩
  · rw [hnotes.image, List.take_append_drop, hpassed]
  · rw [Token.offset, hnotes.place, hplace]
    exact (Place.standsBehind_advance passed).offset

/-- The line feed of a line break is its last character. -/
theorem not_mem_dropLast_of_mem_tokenize {source : String} (ht : t ∈ (tokenize source).tokens) :
    '\n' ∉ t.image.toList.dropLast := by
  have hcount := count_of_mem_tokenize ht
  split at hcount
  · next hkind =>
    obtain ⟨s, rest, -, hne, hnotes⟩ := Scanner.exists_notes_of_mem_tokenize ht
    have hlast := hnotes.getLast?_of_newline hne hkind
    rw [← hnotes.image] at hlast
    obtain ⟨front, hfront⟩ := List.getLast?_eq_some_iff.mp hlast
    rw [hfront, List.count_append, List.count_singleton_self] at hcount
    rw [hfront, List.dropLast_concat]
    exact List.count_eq_zero.mp (Nat.succ.inj hcount)
  · exact fun hmem => List.count_eq_zero.mp hcount ((List.dropLast_prefix _).subset hmem)

/-- The text of a fault in a line. -/
theorem ScanFault.InLine.exists_slice {source : String} (h : f.InLine source.toList) :
    ∃ text, f.span.slice? source = some text ∧ '\n' ∉ text.toList := by
  obtain ⟨before, text, after, hsource, hplace, hlength, hline⟩ := h
  have hoffset := (Place.standsBehind_advance before).offset
  refine ⟨String.ofList text, ?_, by rwa [String.toList_ofList]⟩
  rw [ScanFault.span, ScanFault.stop, hplace, hlength, hoffset,
    ← String.ofList_toList (s := source), hsource]
  exact Span.slice?_append before text after

/-- **Lines and columns are right.** Each step of the tokenizer goes along the line, or across a
break that is noted or dropped, and there the counter starts the next line; so it tells the place of
the tokenizer wherever it is. The line of a token or of a fault is told by the line feeds in front
of it, its column by the characters behind the last of them. A line break holds one line feed, and
other tokens and faults hold none. -/
theorem tokenize_places (source : String) :
    (∀ s rest, Scanner.Reached source.toList s rest → rest ≠ [] → s.Moves rest) ∧
    (∀ s rest, Scanner.Reached source.toList s rest → ∃ c, Scanner.Counted source.toList s c rest ∧
      c.line = s.place.line ∧ c.column? source s.place.offset = some s.place.column) ∧
    (∀ p ∈ (tokenize source).places, ∃ before after, source.toList = before ++ after ∧
      p.StandsBehind before) ∧
    (∀ t ∈ (tokenize source).tokens,
      t.image.toList.count '\n' = if t.kind = .newline then 1 else 0) ∧
    ∀ f ∈ (tokenize source).faults, ∃ text, f.span.slice? source = some text ∧
      '\n' ∉ text.toList := by
  have hfaults : ∀ f ∈ (tokenize source).faults, f.InLine source.toList := fun f hf =>
    (Scanner.reached_run .start).inLine f (List.mem_reverse.mp hf)
  refine ⟨fun s rest _ hne => Scanner.moves_step hne, fun s rest h => ?_, fun p hp => ?_,
    fun t ht => count_of_mem_tokenize ht, fun f hf => (hfaults f hf).exists_slice⟩
  · obtain ⟨c, hc⟩ := h.exists_counted
    exact ⟨c, hc, hc.column?⟩
  rcases List.mem_append.mp hp with htoken | hfault
  · obtain ⟨t, ht, rfl⟩ := List.mem_map.mp htoken
    obtain ⟨s, rest, hreached, -, hnotes⟩ := Scanner.exists_notes_of_mem_tokenize ht
    obtain ⟨passed, hpassed, hplace, -⟩ := Scanner.exists_passed hreached
    refine ⟨passed, rest, hpassed.symm, ?_⟩
    rw [hnotes.place, hplace]
    exact Place.standsBehind_advance passed
  · obtain ⟨f, hf, rfl⟩ := List.mem_map.mp hfault
    obtain ⟨before, text, after, hsource, hplace, -⟩ := hfaults f hf
    refine ⟨before, text ++ after, hsource, ?_⟩
    rw [hplace]
    exact Place.standsBehind_advance before

end Daybook
