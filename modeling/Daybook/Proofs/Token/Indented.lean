import Daybook.Proofs.Lexeme.Language
import Daybook.Proofs.Token.Lines

/-!
# Other indentations

How far a line is indented, and whether with spaces or tabs, is told by its indentation alone. If
another run of spaces and tabs is put there, all other tokens and all faults are the same: those of
the line stand in other columns, those of the line and of all lines below at other offsets. So every
indentation is compared with that of one space. About `scan_indent` and what stands behind it.

* `Place.indented`, `Token.indented`, `ScanFault.indented`: what becomes of what is read if a line
  that a space indents is indented by another text.
* `Scanner.indented`: how far the tokenizer has come.
* `Scanner.Below line s`: the tokenizer is behind the indentation of the line.

Results:
* `next_indented`, `step_indented`: **behind the indentation the sources are read step by step
  alike.**
* `tokenize_indented`: **the tokens and faults are the same**, but for the indentation and for
  places.
-/

namespace Daybook

open Lexeme Text

/-! ## Places, tokens and faults -/

/-- The place if the indentation of a line is longer by so many bytes. -/
def Text.Place.indented (line more : Nat) (p : Place) : Place :=
  if p.line < line then p
  else ⟨p.offset + more, p.line, if p.line = line then p.column + more else p.column⟩

/-- The token if a line has this indentation instead of a space. -/
def Token.indented (line : Nat) (run : List Char) (t : Token) : Token :=
  if t.kind = .indent ∧ t.place.line = line then { t with image := String.ofList run }
  else { t with place := t.place.indented line (run.length - 1) }

/-- The fault if a line has this indentation instead of a space. -/
def ScanFault.indented (line : Nat) (run : List Char) (f : ScanFault) : ScanFault :=
  { f with place := f.place.indented line (run.length - 1) }

/-- How far the tokenizer has come if a line has this indentation instead of a space. -/
def Scanner.indented (line : Nat) (run : List Char) (s : Scanner) : Scanner where
  before := s.before
  place := s.place.indented line (run.length - 1)
  modes := s.modes
  tokens := s.tokens.map (·.indented line run)
  faults := s.faults.map (·.indented line run)

variable {line more : Nat} {run text rest after front : List Char} {p : Place} {t : Token}
  {f : ScanFault} {kind : Kind}

namespace Text.Place

theorem indented_of_lt (h : p.line < line) : p.indented line more = p := if_pos h

theorem line_indented (line more : Nat) (p : Place) : (p.indented line more).line = p.line := by
  unfold indented
  split <;> rfl

theorem offset_indented (h : line ≤ p.line) : (p.indented line more).offset = p.offset + more := by
  rw [indented, if_neg (Nat.not_lt.mpr h)]

theorem next_indented (h : line ≤ p.line) (c : Char) :
    (p.indented line more).next c = (p.next c).indented line more := by
  have hnot : ¬ p.line < line := Nat.not_lt.mpr h
  by_cases hc : c = '\n'
  · have hbelow : ¬ p.line + 1 < line := by omega
    have hline : p.line + 1 ≠ line := by omega
    simp only [indented, next, hc, hnot, hbelow, hline, if_false, if_true, mk.injEq, and_self,
      and_true]
    omega
  · simp only [indented, next, hc, hnot, if_false, mk.injEq, true_and]
    refine ⟨by omega, ?_⟩
    split
    · omega
    · rfl

theorem advance_indented (h : line ≤ p.line) (cs : List Char) :
    (p.indented line more).advance cs = (p.advance cs).indented line more := by
  induction cs generalizing p with
  | nil => rfl
  | cons c cs ih =>
    have hnext : line ≤ (p.next c).line := Nat.le_trans h (p.line_le_advance [c])
    rw [advance_cons, advance_cons, next_indented h, ih hnext]

end Text.Place

namespace Token

theorem kind_indented (line : Nat) (run : List Char) (t : Token) :
    (t.indented line run).kind = t.kind := by
  unfold indented
  split <;> rfl

theorem payload_indented (line : Nat) (run : List Char) (t : Token) :
    (t.indented line run).payload = t.payload := by
  unfold indented
  split <;> rfl

theorem line_indented (line : Nat) (run : List Char) (t : Token) :
    (t.indented line run).place.line = t.place.line := by
  unfold indented
  split
  · rfl
  · exact t.place.line_indented line _

theorem indented_of_not (h : ¬ (t.kind = .indent ∧ t.place.line = line)) :
    t.indented line run = { t with place := t.place.indented line (run.length - 1) } := if_neg h

theorem image_indented (h : ¬ (t.kind = .indent ∧ t.place.line = line)) :
    (t.indented line run).image = t.image := by
  rw [indented_of_not h]

theorem indented_of_lt (h : t.place.line < line) : t.indented line run = t := by
  rw [indented_of_not fun hindent => Nat.ne_of_lt h hindent.2, Place.indented_of_lt h]

end Token

namespace ScanFault

theorem indented_of_lt (h : f.place.line < line) : f.indented line run = f := by
  rw [indented, Place.indented_of_lt h]

theorem stop_indented (h : line ≤ f.place.line) :
    (f.indented line run).stop = f.stop + (run.length - 1) := by
  simp only [stop, indented, Place.offset_indented h]
  omega

end ScanFault

/-! ## Layout -/

/-- Layout takes a byte a character. -/
theorem byteLength_layout (h : ∀ c ∈ text, isLayout c) : byteLength text = text.length := by
  refine byteLength_eq_length fun c hc => ?_
  have hlayout := h c hc
  simp only [isLayout, Bool.or_eq_true, decide_eq_true_eq] at hlayout
  rcases hlayout with rfl | rfl <;> rfl

theorem not_mem_layout (h : ∀ c ∈ text, isLayout c) : '\n' ∉ text := fun hmem =>
  absurd (h _ hmem) (by decide)

theorem space_mem : [' '] ∈ someOf isLayout := ⟨List.cons_ne_nil _ _, by simp [isLayout]⟩

/-- A run of layout ends where something else stands. -/
theorem layoutLength_append (h : ∀ c ∈ run, isLayout c)
    (hafter : ∀ c ∈ after.head?, isLayout c = false) :
    layoutLength (run ++ after) = run.length := by
  rw [layoutLength, takeWhile_stops h hafter]

/-- Where a line starts with layout, the layout indents it. -/
theorem token?_lineStart_layout {v : View} {n : Nat} (hstart : v.atLineStart)
    (hlength : layoutLength v.rest = n) (hpos : 0 < n) :
    Mode.lineStart.token? v = some (.indent, ⟨n, none, hpos⟩, .enter .indented) := by
  subst hlength
  obtain ⟨c, cs, hrest, hc⟩ : ∃ c cs, v.rest = c :: cs ∧ isLayout c := by
    cases hrest : v.rest with
    | nil => rw [hrest] at hpos; exact absurd hpos (by decide)
    | cons c cs =>
      refine ⟨c, cs, rfl, ?_⟩
      by_contra hc
      rw [hrest, layoutLength, List.takeWhile_cons_of_neg hc] at hpos
      exact absurd hpos (by decide)
  -- what stands in front of the rule for indentations finds nothing
  have hdate : v.date = none := by
    have hrun : dateRun (c :: cs) = [] := List.takeWhile_cons_of_neg (by
      simp only [isLayout, Bool.or_eq_true, decide_eq_true_eq] at hc
      rcases hc with rfl | rfl <;> decide)
    rw [View.date, hrest, dateLength?, hrun]
    rfl
  have hkeyword : ∀ d word, isLayout d = false → keywordLength (d :: word) v.rest = 0 := by
    intro d word hd
    have hne : d ≠ c := fun heq => absurd (heq ▸ hc) (by simp [hd])
    simp [keywordLength, hrest, hne]
  have hkeywords : ∀ word ∈ ["P", "account", "commodity", "D"], v.keyword word = none := by
    intro word hword
    simp only [List.mem_cons, List.not_mem_nil, or_false] at hword
    rw [View.keyword]
    rcases hword with rfl | rfl | rfl | rfl <;>
      exact congrArg Match.ofLength (hkeyword _ _ (by decide))
  simp only [Mode.token?, Mode.rules, List.findSome?_cons, Rule.token?, Rule.atLineStart, hstart,
    if_true, hdate, hkeywords "P" (by simp), hkeywords "account" (by simp),
    hkeywords "commodity" (by simp), hkeywords "D" (by simp), Option.map_none, Match.ofLength, hpos,
    dif_pos, Option.map_some]

namespace Scanner

variable {source : List Char} {s base : Scanner}

/-! ## Behind the indentation -/

/-- The tokenizer is behind the indentation of a line, which is a space. -/
structure Below (line : Nat) (s : Scanner) : Prop where
  line_le : line ≤ s.place.line
  column : s.place.line = line → 1 < s.place.column
  /-- The indentation, unless the line is empty but for it. -/
  image : ∀ t ∈ s.tokens, t.kind = .indent → t.place.line = line → t.image = " "

/-- What is noted behind the indentation is no indentation. -/
theorem Below.not_indent (h : s.Below line) (hreached : Reached source s rest) {found : Match}
    {move : Move} (hfound : s.modes.top.token? (s.view rest) = some (kind, found, move)) :
    ¬ (kind = .indent ∧ s.place.line = line) := by
  rintro ⟨rfl, hline⟩
  by_cases htop : s.modes.top = .lineStart
  · rw [htop] at hfound
    obtain ⟨hstart, -⟩ := opens_of_token?_lineStart hfound
    obtain ⟨passed, -, hplace, hbefore⟩ := exists_passed hreached
    have hcolumn : s.place.column = 1 := by
      rw [hplace, Place.column_eq_one_iff, WholeLines, ← hbefore]
      simpa [View.atLineStart, view, Option.all_eq_true] using hstart
    have hpast := h.column hline
    omega
  · exact (kind_of_token?_inner htop hfound).1 rfl

/-- Passing a text behind the indentation. -/
theorem Below.pass (h : s.Below line) (text : List Char) : (s.pass text).Below line where
  line_le := Nat.le_trans h.line_le (s.place.line_le_advance text)
  column hline := by
    have hle := h.line_le
    have hcount := s.place.line_advance text
    simp only [Scanner.pass] at hline ⊢
    have hsame : s.place.line = line := by omega
    have hnot : '\n' ∉ text := List.count_eq_zero.mp (by omega)
    have hcolumn := h.column hsame
    rw [(s.place.advance_inLine hnot).2]
    omega
  image := h.image

/-- A step keeps `Below`. -/
theorem Below.step (h : s.Below line) (hreached : Reached source s rest) (hne : rest ≠ []) :
    (s.step rest).Below line := by
  have hcomes := comes_next (s := s) hne
  unfold Scanner.step
  generalize s.next rest = e at hcomes ⊢
  refine Below.pass ?_ _
  cases hcomes with
  | layout => exact h
  | newline =>
    exact ⟨h.line_le, h.column, List.forall_mem_cons.mpr ⟨nofun, h.image⟩⟩
  | token _ hfound =>
    refine ⟨h.line_le, h.column, List.forall_mem_cons.mpr ⟨fun hkind hline => ?_, h.image⟩⟩
    exact absurd ⟨hkind, hline⟩ (h.not_indent hreached hfound)
  | unknownLine => exact ⟨h.line_le, h.column, h.image⟩
  | unexpected =>
    have hplace := s.place_reportMore (rest.take 1) s.modes.top
    have htokens := (s.tokens_reportMore (rest.take 1) s.modes.top).1
    constructor
    · simpa only [record, hplace] using h.line_le
    · simpa only [record, hplace] using h.column
    · simpa only [record, htokens] using h.image

/-! ## Steps behind the indentation -/

section

variable (hrun : run ∈ someOf isLayout)

include hrun

/-- The tokens of the line in front of the place end as much later as the place is moved. -/
theorem Below.stop_indented (h : s.Below line) (ht : t ∈ s.tokens)
    (hline : t.place.line = s.place.line) :
    (t.indented line run).stop = t.stop + (run.length - 1) := by
  have hle : line ≤ t.place.line := hline ▸ h.line_le
  by_cases hindent : t.kind = .indent ∧ t.place.line = line
  · have hpos := List.length_pos_iff.mpr hrun.1
    have hspace : t.length = 1 := by
      rw [Token.length, h.image t ht hindent.1 hindent.2]
      rfl
    have hlength : (t.indented line run).length = run.length := by
      rw [Token.length, Token.indented, if_pos hindent, String.toList_ofList,
        byteLength_layout hrun.2]
    have hoffset : (t.indented line run).offset = t.offset := by
      rw [Token.offset, Token.indented, if_pos hindent]
      rfl
    rw [Token.stop, Token.stop, hlength, hoffset, hspace]
    omega
  · rw [Token.indented_of_not hindent]
    simp only [Token.stop, Token.offset, Token.length, Place.offset_indented hle]
    omega

/-- What the rules inside a mode look at is the same. -/
theorem Below.alike_indented (h : s.Below line) (hreached : Reached source s rest)
    (hinner : s.modes.inner ≠ []) : ((s.indented line run).view rest).Alike (s.view rest) := by
  obtain ⟨last, hlast, hkind⟩ := hreached.grounded.inside hinner
  obtain ⟨hline, -⟩ := hreached.inRow.last last hlast hkind
  obtain ⟨more, htokens⟩ := List.head?_eq_some_iff.mp hlast
  have hstop := h.stop_indented hrun (List.mem_of_mem_head? hlast) hline
  refine ⟨rfl, rfl, fun kinds => ?_, ?_, ?_, ?_⟩
  · simp [View.follows, view, indented, htokens, Token.kind_indented]
  · simp only [View.touches, view, indented, htokens, List.map_cons, List.head?_cons,
      Option.any_some, hstop, Place.offset_indented h.line_le]
    simp
  · simp only [view, indented, htokens, List.map_cons, List.getElem?_cons_succ]
    cases more with
    | nil => rfl
    | cons u us => simp [Token.kind_indented]
  · simp [View.opener?, view, indented, Function.comp_def, Token.kind_indented]

/-- The mode finds the same token. -/
theorem Below.token?_indented (h : s.Below line) (hreached : Reached source s rest) :
    s.modes.top.token? ((s.indented line run).view rest) = s.modes.top.token? (s.view rest) := by
  by_cases hinner : s.modes.inner = []
  · rw [hreached.grounded.modes.top_eq_lineStart_iff.mpr hinner]
    exact token?_lineStart_congr rfl rfl
  · exact (h.alike_indented hrun hreached hinner).token?_eq fun htop =>
      hinner (hreached.grounded.modes.top_eq_lineStart_iff.mp htop)

/-- **The same comes next.** -/
theorem Below.next_indented (h : s.Below line) (hreached : Reached source s rest) :
    (s.indented line run).next rest = s.next rest := by
  have htoken := h.token?_indented hrun hreached
  have hmodes : (s.indented line run).modes = s.modes := rfl
  simp only [next, hmodes, htoken]

omit hrun

theorem pass_indented (hline : line ≤ s.place.line) (text : List Char) :
    (s.indented line run).pass text = (s.pass text).indented line run := by
  simp only [pass, indented, Place.advance_indented hline]

/-- Faults grow alike. -/
theorem Below.reportMore_indented (h : s.Below line) (text : List Char) (mode : Mode) :
    (s.indented line run).reportMore text mode = (s.reportMore text mode).indented line run := by
  have hgrows : ∀ last ∈ s.faults.head?,
      (s.indented line run).Grows (last.indented line run) ↔ s.Grows last := by
    intro last _
    show (last.indented line run).stop = (s.place.indented line (run.length - 1)).offset ∧
      (last.place.indented line _).line = (s.place.indented line _).line ↔ _
    rw [Place.line_indented, Place.line_indented, Place.offset_indented h.line_le, Grows,
      and_congr_left_iff]
    intro hline
    rw [ScanFault.stop_indented (hline ▸ h.line_le), Nat.add_right_cancel_iff]
  have hfaults := faults_reportMore_moved (s.indented line run) (List.append_nil _).symm rfl hgrows
    (by simp) text mode
  rw [reportMore_eq s, reportMore_eq (s.indented line run), hfaults, List.append_nil]
  rfl

theorem Below.record_indented (h : s.Below line) (hreached : Reached source s rest) {e : Event}
    (he : Comes s rest e) :
    (s.indented line run).record rest e = (s.record rest e).indented line run := by
  cases he with
  | layout => rfl
  | newline => rfl
  | token _ hfound =>
    have hnot := h.not_indent hreached hfound
    simp only [record, indented, note, List.map_cons, Token.indented, if_neg hnot]
  | unknownLine => rfl
  | unexpected => exact h.reportMore_indented _ _

include hrun

/-- **A step does the same.** -/
theorem Below.step_indented (h : s.Below line) (hreached : Reached source s rest)
    (hne : rest ≠ []) : (s.indented line run).step rest = (s.step rest).indented line run := by
  have hline : line ≤ (s.record rest (s.next rest)).place.line := by
    rw [place_record]
    exact h.line_le
  unfold Scanner.step
  rw [h.next_indented hrun hreached, h.record_indented hreached (comes_next hne),
    pass_indented hline]

/-- The same for all steps. -/
theorem Below.run_indented (h : s.Below line) (hreached : Reached source s rest) :
    (s.indented line run).run rest = (s.run rest).indented line run := by
  induction hn : rest.length using Nat.strongRecOn generalizing s rest with
  | ind n ih =>
    cases rest with
    | nil => rw [run_nil, run_nil]
    | cons c cs =>
      have hne : c :: cs ≠ [] := List.cons_ne_nil c cs
      have hpos := (s.next (c :: cs)).taken_pos
      rw [run_cons, run_cons, h.next_indented hrun hreached, h.step_indented hrun hreached hne]
      refine ih _ ?_ (h.step hreached hne) (hreached.step hne) rfl
      rw [List.length_drop, ← hn, List.length_cons]
      omega

end

/-! ## The indentation itself -/

/-- Behind the layout in front of a line: it indents the line unless nothing else stands there. -/
def overLayout (s : Scanner) (run after : List Char) : Scanner :=
  if after = [] ∨ 0 < newlineLength after then s.pass run
  else { s.note .indent run none with modes := s.modes.push .indented }.pass run

section

variable (hfresh : base.Fresh) (hrun : run ∈ someOf isLayout)
  (hafter : ∀ c ∈ after.head?, isLayout c = false)

include hfresh hrun hafter

/-- At the start of a line the layout there is taken, and taken as a whole. -/
theorem step_layout : base.step (run ++ after) = base.overLayout run after ∧
    (base.next (run ++ after)).taken = run.length := by
  have hlength := layoutLength_append hrun.2 hafter
  have hpos := List.length_pos_iff.mpr hrun.1
  have htop : base.modes.top = .lineStart := by rw [hfresh.modes]; rfl
  have htake : (run ++ after).take run.length = run := List.take_left
  have hdrop : (run ++ after).drop run.length = after := List.drop_left
  have hempty : emptyLineLength (run ++ after) =
      if after = [] ∨ 0 < newlineLength after then run.length else 0 := by
    simp only [emptyLineLength, hlength, hdrop]
    cases after <;> simp
  by_cases hblank : after = [] ∨ 0 < newlineLength after
  · have hnext : base.next (run ++ after) = .layout run.length hpos := by
      simp only [next, htop, Mode.layoutLength, hempty, if_pos hblank, hpos, dif_pos]
    simp only [step, hnext, record, Event.taken, htake, overLayout, if_pos hblank, and_self]
  · have hbreak : newlineLength (run ++ after) = 0 := by
      obtain ⟨c, cs, rfl⟩ := List.exists_cons_of_ne_nil hrun.1
      have hc := hrun.2 c List.mem_cons_self
      simp only [isLayout, Bool.or_eq_true, decide_eq_true_eq] at hc
      rcases hc with rfl | rfl <;> rfl
    have hstart : (base.view (run ++ after)).atLineStart := by
      simpa [View.atLineStart, view, Option.all_eq_true] using hfresh.before
    have hfound := token?_lineStart_layout hstart hlength hpos
    have hnext : base.next (run ++ after) =
        .token .indent ⟨run.length, none, hpos⟩ (.enter .indented) := by
      simp only [next, htop, Mode.layoutLength, hempty, if_neg hblank, hbreak, Nat.lt_irrefl,
        dif_neg, not_false_eq_true, hfound]
    simp only [step, hnext, record, Event.taken, htake, overLayout, if_neg hblank, ModeStack.move,
      and_self]

theorem run_layout : base.run (run ++ after) = (base.overLayout run after).run after := by
  obtain ⟨hstep, htaken⟩ := step_layout hfresh hrun hafter
  rw [run_of_ne_nil _ (List.append_ne_nil_of_left_ne_nil hrun.1 _), hstep, htaken, List.drop_left]

end

/-- Which of two characters was passed cannot be seen if both are layout. -/
theorem run_before {c d : Char} (hc : isLayout c) (hd : isLayout d) (hbefore : s.before = some c)
    (hne : rest ≠ []) : { s with before := some d }.run rest = s.run rest := by
  have hopens : opensWord (some d) = opensWord s.before := by
    simp only [hbefore, opensWord, isBlank_of_isLayout hc, isBlank_of_isLayout hd, Bool.true_or]
  have hstart : (some d).all (· = '\n') = s.before.all (· = '\n') := by
    have hbreak : ∀ {b : Char}, isLayout b → b ≠ '\n' := fun hb heq =>
      absurd (heq ▸ hb) (by decide)
    simp [hbefore, hbreak hc, hbreak hd]
  have htoken : s.modes.top.token? ({ s with before := some d }.view rest) =
      s.modes.top.token? (s.view rest) := by
    by_cases htop : s.modes.top = .lineStart
    · rw [htop]
      exact token?_lineStart_congr rfl hstart
    · have halike : ({ s with before := some d }.view rest).Alike (s.view rest) :=
        ⟨rfl, hopens, fun _ => rfl, rfl, rfl, rfl⟩
      exact halike.token?_eq htop
  have hnext : { s with before := some d }.next rest = s.next rest := by
    simp only [next, htoken]
  have hrecord : { s with before := some d }.record rest (s.next rest) =
      { s.record rest (s.next rest) with before := some d } := by
    cases s.next rest with
    | unexpected mode =>
      simp only [record, reportMore]
      split
      · split <;> rfl
      · rfl
    | _ => rfl
  have hpass : ∀ {text : List Char} {s' : Scanner}, text ≠ [] →
      { s' with before := some d }.pass text = s'.pass text := by
    intro text s' htext
    simp only [pass, List.getLast?_eq_some_getLast htext, Option.some_or]
  have hstep : { s with before := some d }.step rest = s.step rest := by
    rw [step, step, hnext, hrecord, hpass (take_ne_nil (s.next rest).taken_pos hne)]
  rw [run_of_ne_nil _ hne, run_of_ne_nil _ hne, hnext, hstep]

/-- What is read of whole lines stands on lines before the place behind them. -/
theorem line_lt_run_start (hfront : WholeLines front) :
    ∀ t ∈ (start.run front).tokens, t.place.line < (start.run front).place.line := by
  have hreached : Reached front (start.run front) [] := reached_run .start
  obtain ⟨hpairwise, hplace⟩ := hreached.line_le
  have hlast := (isBase_run_start hfront).last
  cases htokens : (start.run front).tokens with
  | nil => exact fun t ht => absurd ht List.not_mem_nil
  | cons last ts =>
    rw [htokens] at hpairwise hplace hlast
    have hline := (hplace last List.mem_cons_self).2 (hlast last rfl)
    refine List.forall_mem_cons.mpr ⟨hline, fun t ht => Nat.lt_of_le_of_lt ?_ hline⟩
    exact ((List.pairwise_cons.mp hpairwise).1 t ht).1

/-- **Another run of layout does what the space does**, and all that stands behind it is moved. -/
theorem overLayout_indented (hrun : run ∈ someOf isLayout) (hfresh : base.Fresh)
    (hcolumn : base.place.column = 1)
    (htokens : ∀ t ∈ base.tokens, t.place.line < base.place.line) :
    base.overLayout run after =
      { (base.overLayout [' '] after).indented base.place.line run with
        before := run.getLast? } := by
  have hpos := List.length_pos_iff.mpr hrun.1
  have hlast : run.getLast?.or base.before = run.getLast? := by
    rw [List.getLast?_eq_some_getLast hrun.1, Option.some_or]
  have hkept : base.tokens.map (·.indented base.place.line run) = base.tokens := by
    rw [List.map_congr_left fun t ht => Token.indented_of_lt (htokens t ht), List.map_id']
  have hfaults : base.faults.map (·.indented base.place.line run) = base.faults := by
    rw [List.map_congr_left fun f hf => ScanFault.indented_of_lt (hfresh.line_lt f hf),
      List.map_id']
  have hplace : base.place.advance run =
      (base.place.advance [' ']).indented base.place.line (run.length - 1) := by
    obtain ⟨hline, hcol⟩ := base.place.advance_inLine (not_mem_layout hrun.2)
    have hoffset := base.place.offset_advance run
    rw [byteLength_layout hrun.2] at hoffset
    have hspace : base.place.advance [' '] =
        ⟨base.place.offset + 1, base.place.line, base.place.column + 1⟩ := rfl
    cases hadvance : base.place.advance run with
    | mk offset line column =>
      rw [hadvance] at hline hcol hoffset
      simp only [hspace, Place.indented, Nat.lt_irrefl, if_false, if_true, Place.mk.injEq]
      simp only at hline hcol hoffset
      omega
  by_cases hblank : after = [] ∨ 0 < newlineLength after
  · simp only [overLayout, if_pos hblank, pass, indented, hlast, hkept, hfaults, hplace]
  · have hindent : ∀ image payload, Token.indented base.place.line run
        ⟨.indent, image, base.place, payload⟩ =
          ⟨.indent, String.ofList run, base.place, payload⟩ := fun _ _ => if_pos ⟨rfl, rfl⟩
    simp only [overLayout, if_neg hblank, pass, note, indented, hlast, List.map_cons, hkept,
      hfaults, hplace, hindent]

/-- Behind the space. -/
theorem below_overLayout (hcolumn : base.place.column = 1)
    (htokens : ∀ t ∈ base.tokens, t.place.line < base.place.line) :
    (base.overLayout [' '] after).Below base.place.line := by
  have hplace : (base.overLayout [' '] after).place =
      ⟨base.place.offset + 1, base.place.line, base.place.column + 1⟩ := by
    unfold overLayout
    split <;> rfl
  have hold : ∀ t ∈ base.tokens, t.kind = .indent → t.place.line = base.place.line →
      t.image = " " := fun t ht _ hline => absurd hline (Nat.ne_of_lt (htokens t ht))
  refine ⟨?_, fun _ => ?_, ?_⟩
  · rw [hplace]
  · rw [hplace, hcolumn]
    exact Nat.one_lt_two
  · unfold overLayout
    split
    · exact hold
    · exact List.forall_mem_cons.mpr ⟨fun _ _ => rfl, hold⟩

/-- The tokenizer comes behind the space in front of a line. -/
theorem reached_overLayout (hfront : WholeLines front)
    (hafter : ∀ c ∈ after.head?, isLayout c = false) :
    Reached (front ++ ' ' :: after) ((start.run front).overLayout [' '] after) after := by
  obtain ⟨hstep, htaken⟩ := step_layout (fresh_run_start hfront) space_mem hafter
  have hreached : Reached (front ++ ' ' :: after) .start (front ++ ' ' :: after) := .start
  have hnext := (hreached.run_append hfront).step (List.cons_ne_nil ' ' after)
  rwa [show ' ' :: after = [' '] ++ after from rfl, hstep, htaken, List.drop_left] at hnext

/-- **A source with another indentation is read alike.** -/
theorem run_indented (hfront : WholeLines front) (hrun : run ∈ someOf isLayout)
    (hafter : ∀ c ∈ after.head?, isLayout c = false) :
    let final := (start.run (front ++ ' ' :: after)).indented (start.run front).place.line run
    (start.run (front ++ run ++ after)).tokens = final.tokens ∧
      (start.run (front ++ run ++ after)).faults = final.faults := by
  have hfresh := fresh_run_start hfront
  have htokens := line_lt_run_start hfront
  have hcolumn : (start.run front).place.column = 1 := by
    rw [(isBase_run_start hfront).place]
    rfl
  generalize hspaced : (start.run front).overLayout [' '] after = spaced
  generalize hline : (start.run front).place.line = line
  have hmoved : (spaced.indented line run).run after = (spaced.run after).indented line run := by
    subst hspaced hline
    exact (below_overLayout hcolumn htokens).run_indented hrun (reached_overLayout hfront hafter)
  have hfinal : start.run (front ++ ' ' :: after) = spaced.run after := by
    rw [run_append _ hfront, ← hspaced]
    exact run_layout hfresh space_mem hafter
  have hother : start.run (front ++ run ++ after) =
      { spaced.indented line run with before := run.getLast? }.run after := by
    rw [List.append_assoc, run_append _ hfront, run_layout hfresh hrun hafter,
      overLayout_indented hrun hfresh hcolumn htokens, hspaced, hline]
  rw [hother, hfinal, ← hmoved]
  by_cases hne : after = []
  · subst hne
    rw [run_nil, run_nil]
    exact ⟨rfl, rfl⟩
  · have hbefore : (spaced.indented line run).before = some ' ' := by
      subst hspaced
      unfold overLayout
      split <;> rfl
    have hlast : isLayout (run.getLast hrun.1) := hrun.2 _ (List.getLast_mem hrun.1)
    rw [List.getLast?_eq_some_getLast hrun.1, run_before rfl hlast hbefore hne]
    exact ⟨rfl, rfl⟩

end Scanner

/-- **How a line is indented cannot be seen** but in its indentation and in places. -/
theorem tokenize_indented (hfront : WholeLines front) (hrun : run ∈ someOf isLayout)
    (hafter : ∀ c ∈ after.head?, isLayout c = false) :
    let line := front.count '\n' + 1
    let spaced := tokenize (String.ofList (front ++ ' ' :: after))
    tokenize (String.ofList (front ++ run ++ after)) =
      ⟨spaced.tokens.map (·.indented line run), spaced.faults.map (·.indented line run)⟩ := by
  obtain ⟨htokens, hfaults⟩ := Scanner.run_indented hfront hrun hafter
  have hline : (Scanner.start.run front).place.line = front.count '\n' + 1 := by
    rw [(Scanner.isBase_run_start hfront).place]
    rfl
  simp only [tokenize, String.toList_ofList, htokens, hfaults, hline, Scanner.indented,
    List.map_reverse]

end Daybook
