import Daybook.Proofs.Token.Cut
import Daybook.Proofs.Token.Dropped

/-!
# Lines that nothing starts with

A line whose start no rule accepts is dropped with its break, and one fault tells of its text. But
the text is taken up to a carriage return, also to one that breaks no line. Such a line falls into
pieces with a fault for each, and the break behind the last piece may become a token. About
`recover` at the start of a line; the specification has the line skipped with one error ([SPEC
11.5]).

* `TextLine source`: a line of the source, with what stands around it.
* `TextLine.DroppedIn line stream`: one fault tells of the line, and no token stands on it.
* `Scanner.told s`: where the faults start, and why.

Results:
* `told_run`: a fault keeps its place and its cause.
* `settled_run`: **behind a line its tokens and faults stay as they are.**
* `unknownLine_rest`: without a carriage return a line is taken at once.
* `tokenize_unknown_line`: **a line that nothing starts with is dropped as a whole** just if no
  carriage return is in it, or nothing else and no break.
-/

namespace Daybook

open Lexeme Text

/-! ## Lines of a source -/

/-- A line of a source. -/
structure TextLine (source : List Char) where
  /-- What stands in front of it. -/
  before : List Char
  /-- Its text. -/
  text : List Char
  /-- The break behind the text. -/
  gap : List Char
  /-- What stands behind the break. -/
  after : List Char
  split : source = before ++ (text ++ (gap ++ after))
  whole : WholeLines before
  inLine : '\n' ∉ text
  /-- The last line of a source may have no break. -/
  ends : IsBreak gap ∨ gap = [] ∧ after = []
  /-- A carriage return right in front of a line feed belongs to the break. -/
  full : gap = ['\n'] → text.getLast? ≠ some '\r'

namespace TextLine

variable {source : List Char}

/-- What is still in front of the tokenizer where the line starts. -/
def rest (line : TextLine source) : List Char := line.text ++ (line.gap ++ line.after)

/-- How far the tokenizer has come where the line starts. -/
def scanner (line : TextLine source) : Scanner := Scanner.start.run line.before

/-- Where the line starts. -/
def place (line : TextLine source) : Place := Place.start.behind line.before

/-- Only spaces and tabs are on the line. -/
def IsBlank (line : TextLine source) : Prop := ∀ c ∈ line.text, isLayout c

/-- No rule for the start of a line finds something where the line starts. -/
def StartsNothing (line : TextLine source) : Prop :=
  ∀ rule ∈ Mode.lineStart.rules, rule.find (line.scanner.view line.rest) = none

instance (line : TextLine source) : Decidable line.IsBlank :=
  decidable_of_iff (line.text.all isLayout) (by simp [IsBlank])

instance (line : TextLine source) : Decidable line.StartsNothing :=
  decidable_of_iff (Mode.lineStart.rules.all fun rule =>
    (rule.find (line.scanner.view line.rest)).isNone) (by simp [StartsNothing])

/-- The fault that tells of the line. -/
def fault (line : TextLine source) : ScanFault :=
  ⟨line.place, byteLength line.text, .unknownLine (String.ofList line.text)⟩

/-- One fault tells of the line, over all of its text, and no token stands on it. -/
structure DroppedIn (line : TextLine source) (stream : TokenStream) : Prop where
  faults : stream.faults.filter (·.place.line = line.place.line) = [line.fault]
  tokens : ∀ t ∈ stream.tokens, t.place.line ≠ line.place.line

end TextLine

/-! ## What a step leaves as it is -/

namespace Scanner

variable {source rest gap tail : List Char} {s : Scanner} {n : Nat}

/-- Where the faults start, and why. -/
def told (s : Scanner) : List (Place × ScanCause) := s.faults.map fun f => (f.place, f.cause)

/-- The faults on a line. -/
def faultsOn (s : Scanner) (n : Nat) : List ScanFault := s.faults.filter (·.place.line = n)

/-- The tokens on a line. -/
def tokensOn (s : Scanner) (n : Nat) : List Token := s.tokens.filter (·.place.line = n)

theorem told_reportMore (s : Scanner) (text : List Char) (mode : Mode) :
    s.told <:+ (s.reportMore text mode).told := by
  obtain ⟨last, faults, hfaults, -, hmore⟩ | hmore := s.reportMore_cases text mode <;> rw [hmore]
  · -- the last fault grows at its end
    simp [told, hfaults]
  · exact List.suffix_cons _ _

/-- **A fault keeps its place and its cause.** -/
theorem told_step (s : Scanner) (rest : List Char) : s.told <:+ (s.step rest).told := by
  unfold step
  show s.told <:+ (s.record rest (s.next rest)).told
  cases s.next rest with
  | layout | newline | token => exact List.suffix_refl _
  | unknownLine => exact List.suffix_cons _ _
  | unexpected mode => exact s.told_reportMore _ mode

theorem told_run (s : Scanner) (rest : List Char) : s.told <:+ (s.run rest).told :=
  run_induction (P := fun t _ => s.told <:+ t.told) (fun _ h => h.trans (told_step _ _))
    (List.suffix_refl _)

theorem tokens_run (s : Scanner) (rest : List Char) : s.tokens <:+ (s.run rest).tokens :=
  run_induction (P := fun t _ => s.tokens <:+ t.tokens)
    (fun _ h => h.trans (tokens_isSuffix_step _ _)) (List.suffix_refl _)

/-- What a step notes and tells stays. -/
theorem step_isSuffix_run (s : Scanner) (hne : rest ≠ []) :
    (s.step rest).told <:+ (s.run rest).told ∧ (s.step rest).tokens <:+ (s.run rest).tokens := by
  rw [s.run_of_ne_nil hne]
  exact ⟨told_run _ _, tokens_run _ _⟩

theorem faultsOn_reportMore (h : n < s.place.line) (text : List Char) (mode : Mode) :
    (s.reportMore text mode).faultsOn n = s.faultsOn n := by
  have hne : s.place.line ≠ n := Nat.ne_of_gt h
  obtain ⟨last, faults, hfaults, ⟨-, hlast⟩, hmore⟩ | hmore := s.reportMore_cases text mode <;>
    rw [hmore]
  · -- only a fault on this line grows
    simp [faultsOn, hfaults, hlast, hne]
  · simp [faultsOn, report, hne]

/-- **A step leaves the tokens and faults of earlier lines as they are.** -/
theorem settled_step (h : n < s.place.line) (rest : List Char) :
    (s.step rest).faultsOn n = s.faultsOn n ∧ (s.step rest).tokensOn n = s.tokensOn n := by
  have hne : s.place.line ≠ n := Nat.ne_of_gt h
  unfold step
  show (s.record rest (s.next rest)).faultsOn n = s.faultsOn n ∧
    (s.record rest (s.next rest)).tokensOn n = s.tokensOn n
  cases s.next rest with
  | layout => exact ⟨rfl, rfl⟩
  | newline | token => exact ⟨rfl, by simp [tokensOn, record, note, hne]⟩
  | unknownLine => exact ⟨by simp [faultsOn, record, report, hne], rfl⟩
  | unexpected mode =>
    refine ⟨faultsOn_reportMore h _ mode, ?_⟩
    exact congrArg (List.filter _) (s.tokens_reportMore _ mode).1

/-- **Behind a line its tokens and faults stay as they are.** -/
theorem settled_run (h : n < s.place.line) (rest : List Char) :
    (s.run rest).faultsOn n = s.faultsOn n ∧ (s.run rest).tokensOn n = s.tokensOn n := by
  have hstart : n < s.place.line ∧ s.faultsOn n = s.faultsOn n ∧ s.tokensOn n = s.tokensOn n :=
    ⟨h, rfl, rfl⟩
  refine (run_induction (P := fun t _ => n < t.place.line ∧ t.faultsOn n = s.faultsOn n ∧
    t.tokensOn n = s.tokensOn n) (fun {t rest} _ ht => ?_) hstart).2
  obtain ⟨hline, hfaults, htokens⟩ := ht
  obtain ⟨hfaults', htokens'⟩ := settled_step hline rest
  refine ⟨Nat.lt_of_lt_of_le hline ?_, hfaults'.trans hfaults, htokens'.trans htokens⟩
  rw [t.place_step]
  exact t.place.line_le_advance _

/-- Behind a line break all tokens stand on earlier lines. -/
theorem Reached.line_lt (h : Reached source s rest)
    (hlast : ∀ t ∈ s.tokens.head?, t.kind = .newline) :
    ∀ t ∈ s.tokens, t.place.line < s.place.line := by
  obtain ⟨hpairwise, hle⟩ := h.line_le
  cases htokens : s.tokens with
  | nil => exact List.forall_mem_nil _
  | cons last ts =>
    rw [htokens] at hpairwise hle hlast
    have hlt := (hle last List.mem_cons_self).2 (hlast last rfl)
    have hback := (List.pairwise_cons.mp hpairwise).1
    exact List.forall_mem_cons.mpr ⟨hlt, fun t ht => Nat.lt_of_le_of_lt (hback t ht).1 hlt⟩

/-- At the start of a line that does not start with layout. -/
theorem next_of_lineStart (hmode : s.modes.top = .lineStart) (hlayout : layoutLength rest = 0) :
    s.next rest = if h : 0 < newlineLength rest then .newline _ h
      else match Mode.lineStart.token? (s.view rest) with
        | some (kind, found, move) => .token kind found move
        | none => unknownLine rest := by
  have hempty : emptyLineLength rest = 0 :=
    Nat.eq_zero_of_le_zero (hlayout ▸ emptyLineLength_le rest)
  cases htoken : Mode.lineStart.token? (s.view rest) with
  | none =>
    simp only [next, hmode, Mode.layoutLength, hempty, Nat.lt_irrefl, dite_false, htoken, if_true]
  | some found =>
    simp only [next, hmode, Mode.layoutLength, hempty, Nat.lt_irrefl, dite_false, htoken]

/-- A line break comes next where it stands. -/
theorem next_of_break (hmode : s.modes.top = .lineStart) (hgap : IsBreak gap) (tail : List Char) :
    ∃ h, s.next (gap ++ tail) = .newline gap.length h := by
  rcases hgap with rfl | rfl
  · exact ⟨Nat.one_pos, next_of_lineStart hmode (layoutLength_of_not_isLayout (by decide) tail)⟩
  · exact ⟨Nat.two_pos, next_of_lineStart hmode (layoutLength_of_not_isLayout (by decide) _)⟩

end Scanner

/-- A line that is not recognised is taken up to its end, or no more than a carriage return is. -/
theorem exists_unknownLine (cs : List Char) :
    ∃ n b h, unknownLine cs = .unknownLine n b h ∧ (OnLine n cs ∨ n = 1) := by
  unfold unknownLine
  simp only
  split
  · next hpos => exact ⟨_, _, hpos, rfl, .inl (onLine_lineRest cs)⟩
  · exact ⟨1, 0, Nat.one_pos, rfl, .inr rfl⟩

namespace TextLine

variable {source : List Char} {line : TextLine source}

/-! ## Where a line starts -/

theorem fresh (line : TextLine source) : line.scanner.Fresh := Scanner.fresh_run_start line.whole

theorem place_scanner (line : TextLine source) : line.scanner.place = line.place :=
  (Scanner.isBase_run_start line.whole).place

theorem top_scanner (line : TextLine source) : line.scanner.modes.top = .lineStart := by
  rw [line.fresh.modes]
  rfl

/-- Nothing of the line has been told. -/
theorem settled_scanner (line : TextLine source) :
    line.scanner.faultsOn line.place.line = [] ∧ line.scanner.tokensOn line.place.line = [] := by
  rw [← place_scanner]
  refine ⟨List.filter_eq_nil_iff.mpr fun f hf => ?_, List.filter_eq_nil_iff.mpr fun t ht => ?_⟩
  · simpa using Nat.ne_of_lt (line.fresh.line_lt f hf)
  · have hlast := (Scanner.isBase_run_start line.whole).last
    have hreached : Scanner.Reached line.before line.scanner [] := Scanner.reached_run .start
    simpa using Nat.ne_of_lt (hreached.line_lt hlast t ht)

theorem run_eq (line : TextLine source) :
    Scanner.start.run source = line.scanner.run line.rest := by
  conv_lhs => rw [line.split]
  exact Scanner.run_append _ line.whole _

theorem exists_cons (hblank : ¬ line.IsBlank) : ∃ c cs, line.text = c :: cs := by
  refine List.exists_cons_of_ne_nil fun hnil => hblank ?_
  rw [IsBlank, hnil]
  exact List.forall_mem_nil _

theorem rest_ne_nil (hblank : ¬ line.IsBlank) : line.rest ≠ [] := by
  obtain ⟨c, cs, htext⟩ := exists_cons hblank
  rw [rest, htext]
  exact List.cons_ne_nil _ _

/-- No layout stands where the line starts. -/
theorem layoutLength_rest (hnone : line.StartsNothing) : layoutLength line.rest = 0 := by
  have hbefore := line.fresh.before
  have hstart : (line.scanner.view line.rest).atLineStart = true := by
    simpa [View.atLineStart, Scanner.view, Option.all_eq_true] using hbefore
  have hindent := hnone (.atLineStart .indent (fun v => Match.ofLength (layoutLength v.rest))
    .indented) (by simp [Mode.rules])
  simp only [Rule.atLineStart, hstart, if_true] at hindent
  exact ofLength_eq_none.mp hindent

/-- No break stands where the line starts. -/
theorem newlineLength_rest (hblank : ¬ line.IsBlank) : newlineLength line.rest = 0 := by
  obtain ⟨c, cs, htext⟩ := exists_cons hblank
  have hline := line.inLine
  refine Nat.eq_zero_of_not_pos fun hpos => ?_
  rw [rest, htext] at hpos
  rw [htext] at hline
  rcases newlineLength_pos_iff.mp hpos with ⟨tail, htail⟩ | ⟨tail, htail⟩
  · obtain ⟨rfl, -⟩ := List.cons.inj htail
    exact hline List.mem_cons_self
  · obtain ⟨rfl, hfeed⟩ := List.cons.inj htail
    cases cs with
    | cons d cs =>
      obtain ⟨rfl, -⟩ := List.cons.inj hfeed
      exact hline (List.mem_cons_of_mem _ List.mem_cons_self)
    | nil =>
      -- the carriage return and the line feed behind it are one break
      replace hfeed : line.gap ++ line.after = '\n' :: tail := hfeed
      rcases line.ends with (hgap | hgap) | ⟨hgap, hafter⟩
      · exact line.full hgap (by rw [htext]; rfl)
      · rw [hgap] at hfeed
        exact absurd (List.cons.inj hfeed).1 (by decide)
      · rw [hgap, hafter] at hfeed
        exact List.cons_ne_nil _ _ hfeed.symm

/-- A line that nothing starts with is taken up to a carriage return. -/
theorem next_eq (hblank : ¬ line.IsBlank) (hnone : line.StartsNothing) :
    line.scanner.next line.rest = unknownLine line.rest := by
  have htoken : Mode.lineStart.token? (line.scanner.view line.rest) = none := by
    have hfind : Mode.lineStart.rules.findSome? (·.token? (line.scanner.view line.rest)) = none :=
      List.findSome?_eq_none_iff.mpr fun rule hrule => by rw [Rule.token?, hnone rule hrule]; rfl
    rw [Mode.token?, hfind]
    rfl
  have hbreak : ¬ 0 < newlineLength line.rest := by simp [newlineLength_rest hblank]
  rw [Scanner.next_of_lineStart line.top_scanner (layoutLength_rest hnone), dif_neg hbreak, htoken]

/-! ## What is taken of the line -/

theorem after_eq_nil (line : TextLine source) (hgap : line.gap = []) : line.after = [] := by
  rcases line.ends with hbreak | ⟨-, hafter⟩
  · exact absurd hgap hbreak.ne_nil
  · exact hafter

/-- Behind the text its break stands, and no more of the line. -/
theorem behind_text (line : TextLine source) :
    newlineLength (line.gap ++ line.after) = line.gap.length ∧
      lineRest (line.gap ++ line.after) = [] := by
  rcases line.ends with (hgap | hgap) | ⟨hgap, hafter⟩
  · rw [hgap]
    exact ⟨rfl, rfl⟩
  · rw [hgap]
    exact ⟨rfl, rfl⟩
  · rw [hgap, hafter]
    exact ⟨rfl, rfl⟩

/-- Without a carriage return **the line is taken at once**. -/
theorem unknownLine_rest (hblank : ¬ line.IsBlank)
    (hreturn : '\r' ∉ line.text ∨ line.text = ['\r'] ∧ line.gap = []) :
    ∃ h, unknownLine line.rest = .unknownLine line.text.length line.gap.length h := by
  rcases hreturn with hreturn | ⟨htext, hgap⟩
  · obtain ⟨hbreak, hbehind⟩ := line.behind_text
    have hpos : 0 < line.text.length := by
      obtain ⟨c, cs, htext⟩ := exists_cons hblank
      rw [htext]
      exact Nat.succ_pos _
    have hends : ∀ c ∈ line.text, endsLine c = false := fun c hc => by
      have hfeed : c ≠ '\n' := fun h => line.inLine (h ▸ hc)
      have hret : c ≠ '\r' := fun h => hreturn (h ▸ hc)
      simp [endsLine, hfeed, hret]
    have hline : lineRest line.rest = line.text := by
      rw [rest, lineRest_append hends, hbehind, List.append_nil]
    have hdrop : line.rest.drop line.text.length = line.gap ++ line.after := List.drop_left
    refine ⟨hpos, ?_⟩
    simp only [unknownLine, hline, hpos, dite_true, hdrop, hbreak]
  · rw [rest, htext, hgap, line.after_eq_nil hgap]
    exact ⟨Nat.one_pos, rfl⟩

/-! ## Behind the line -/

/-- How far the tokenizer has come behind the line if it has taken the line at once. -/
def passed (line : TextLine source) : Scanner :=
  (line.scanner.report line.text (.unknownLine (String.ofList line.text))).pass
    (line.text ++ line.gap)

theorem run_eq_passed {h : 0 < line.text.length}
    (hnext : line.scanner.next line.rest = .unknownLine line.text.length line.gap.length h) :
    Scanner.start.run source = line.passed.run line.after := by
  have htext : line.rest.take line.text.length = line.text := List.take_left
  have hne : line.rest ≠ [] :=
    List.append_ne_nil_of_left_ne_nil (List.ne_nil_of_length_pos h) _
  have hsplit : line.rest = line.text ++ line.gap ++ line.after := (List.append_assoc ..).symm
  have htake : line.rest.take (line.text.length + line.gap.length) = line.text ++ line.gap := by
    rw [hsplit, ← List.length_append, List.take_left]
  have hdrop : line.rest.drop (line.text.length + line.gap.length) = line.after := by
    rw [hsplit, ← List.length_append, List.drop_left]
  have hstep : line.scanner.step line.rest = line.passed := by
    simp only [Scanner.step, hnext, Scanner.record, Event.taken, htext, htake, passed]
  rw [line.run_eq, Scanner.run_of_ne_nil _ hne, hstep, hnext, Event.taken, hdrop]

/-- The fault that tells of the line has been noted. -/
theorem told_passed (line : TextLine source) :
    line.passed.faultsOn line.place.line = [line.fault] ∧
      line.passed.tokensOn line.place.line = [] := by
  obtain ⟨hfaults, htokens⟩ := line.settled_scanner
  have hfault : line.passed.faults = line.fault :: line.scanner.faults := by
    rw [fault, ← place_scanner]
    rfl
  refine ⟨?_, htokens⟩
  rw [Scanner.faultsOn, hfault, List.filter_cons_of_pos (by simp [fault])]
  exact congrArg _ hfaults

/-- Nothing more is told of the line. -/
theorem settled_passed (line : TextLine source) :
    (line.passed.run line.after).faultsOn line.place.line =
        line.passed.faultsOn line.place.line ∧
      (line.passed.run line.after).tokensOn line.place.line =
        line.passed.tokensOn line.place.line := by
  rcases line.ends with hbreak | ⟨-, hafter⟩
  · refine Scanner.settled_run ?_ _
    have hline : line.passed.place.line = (line.place.advance (line.text ++ line.gap)).line := by
      rw [← place_scanner]
      rfl
    rw [hline, Place.line_advance, List.count_append, hbreak.count_eq]
    omega
  · rw [hafter, Scanner.run_nil]
    exact ⟨rfl, rfl⟩

end TextLine

/-! ## What is left of the line -/

namespace TextLine

variable {source : String} {line : TextLine source.toList}

theorem droppedIn_iff : line.DroppedIn (tokenize source) ↔
    (Scanner.start.run source.toList).faultsOn line.place.line = [line.fault] ∧
      (Scanner.start.run source.toList).tokensOn line.place.line = [] := by
  have hfaults : (tokenize source).faults.filter (·.place.line = line.place.line) =
      ((Scanner.start.run source.toList).faultsOn line.place.line).reverse := List.filter_reverse ..
  have htokens : (∀ t ∈ (tokenize source).tokens, t.place.line ≠ line.place.line) ↔
      (Scanner.start.run source.toList).tokensOn line.place.line = [] := by
    simp [tokenize, Scanner.tokensOn]
  constructor
  · intro h
    refine ⟨List.reverse_injective ?_, htokens.mp h.tokens⟩
    rw [← hfaults, h.faults, List.reverse_singleton]
  · rintro ⟨hfault, hnone⟩
    refine ⟨?_, htokens.mpr hnone⟩
    rw [hfaults, hfault, List.reverse_singleton]

/-- **A line that is taken at once is dropped as a whole.** -/
theorem droppedIn_of_next {h : 0 < line.text.length}
    (hnext : line.scanner.next line.rest = .unknownLine line.text.length line.gap.length h) :
    line.DroppedIn (tokenize source) := by
  rw [droppedIn_iff, run_eq_passed hnext, line.settled_passed.1, line.settled_passed.2]
  exact line.told_passed

/-- Of a line that is dropped as a whole all is taken at once. -/
theorem take_of_droppedIn (hdropped : line.DroppedIn (tokenize source)) {n b : Nat} {h : 0 < n}
    (hnext : line.scanner.next line.rest = .unknownLine n b h) (hne : line.rest ≠ []) :
    line.rest.take n = line.text := by
  have hstep : (line.place, ScanCause.unknownLine (String.ofList (line.rest.take n))) ∈
      (line.scanner.step line.rest).told := by
    rw [← place_scanner]
    simp [Scanner.told, Scanner.step, Scanner.pass, hnext, Scanner.record, Scanner.report]
  have hfinal := (line.scanner.step_isSuffix_run hne).1.subset hstep
  rw [← line.run_eq] at hfinal
  obtain ⟨f, hf, htold⟩ := List.mem_map.mp hfinal
  obtain ⟨hplace, hcause⟩ := Prod.mk.inj htold
  have hmem : f ∈ (Scanner.start.run source.toList).faultsOn line.place.line :=
    List.mem_filter.mpr ⟨hf, by simp [hplace]⟩
  rw [(droppedIn_iff.mp hdropped).1, List.mem_singleton] at hmem
  rw [hmem] at hcause
  exact (String.ofList_injective (ScanCause.unknownLine.inj hcause)).symm

/-- Behind a carriage return that is dropped there is no break, for that would be a token. -/
theorem gap_of_droppedIn (hdropped : line.DroppedIn (tokenize source))
    (hnext : line.scanner.next line.rest = unknownLine line.rest) (htext : line.text = ['\r']) :
    line.gap = [] := by
  refine (line.ends.resolve_left fun hbreak => ?_).1
  have hrest : line.rest = '\r' :: (line.gap ++ line.after) := by rw [rest, htext]; rfl
  have htaken : unknownLine line.rest = .unknownLine 1 0 Nat.one_pos := by rw [hrest]; rfl
  obtain ⟨s, hs⟩ : ∃ s, s = line.scanner.step line.rest := ⟨_, rfl⟩
  have hplace : s.place.line = line.place.line := by
    rw [hs, Scanner.place_step, hnext, htaken, hrest, place_scanner]
    rfl
  have htop : s.modes.top = .lineStart := by
    rw [← line.top_scanner, hs, Scanner.step, hnext, htaken]
    rfl
  have hrun : Scanner.start.run source.toList = s.run (line.gap ++ line.after) := by
    rw [line.run_eq, hs, hrest, Scanner.run_cons, ← hrest, hnext, htaken, hrest]
    rfl
  obtain ⟨hpos, hgap⟩ := Scanner.next_of_break htop hbreak line.after
  obtain ⟨t, ht, htplace⟩ : ∃ t ∈ (s.step (line.gap ++ line.after)).tokens,
      t.place = s.place := by
    simp [Scanner.step, Scanner.pass, hgap, Scanner.record, Scanner.note]
  have hne : line.gap ++ line.after ≠ [] := List.append_ne_nil_of_left_ne_nil hbreak.ne_nil _
  have hfinal := (s.step_isSuffix_run hne).2.subset ht
  rw [← hrun] at hfinal
  exact hdropped.tokens t (List.mem_reverse.mpr hfinal) (htplace ▸ hplace)

end TextLine

/-- **A line that nothing starts with is dropped as a whole**, with one fault over its text and no
token, just if no carriage return is in its text, or nothing else and no break behind it. -/
theorem tokenize_unknown_line (source : String) (line : TextLine source.toList)
    (hblank : ¬ line.IsBlank) (hnone : line.StartsNothing) :
    line.DroppedIn (tokenize source) ↔
      '\r' ∉ line.text ∨ line.text = ['\r'] ∧ line.gap = [] := by
  have hnext := TextLine.next_eq hblank hnone
  constructor
  · intro hdropped
    by_cases hreturn : '\r' ∈ line.text
    · refine .inr ?_
      obtain ⟨n, b, hpos, hunknown, hends⟩ := exists_unknownLine line.rest
      have hne := TextLine.rest_ne_nil hblank
      have htake := line.take_of_droppedIn hdropped (hnext.trans hunknown) hne
      rcases hends with hline | rfl
      · exact absurd (hline.endsLine_eq_false (htake ▸ hreturn)) (by decide)
      · have htext : line.text = ['\r'] := by
          obtain ⟨c, cs, htext⟩ := TextLine.exists_cons hblank
          have hone : line.text = [c] := by rw [← htake, TextLine.rest, htext]; rfl
          rw [hone] at hreturn
          rw [hone, List.mem_singleton.mp hreturn]
        exact ⟨htext, line.gap_of_droppedIn hdropped hnext htext⟩
    · exact .inl hreturn
  · intro hreturn
    obtain ⟨hpos, hall⟩ := TextLine.unknownLine_rest hblank hreturn
    exact TextLine.droppedIn_of_next (hnext.trans hall)

/-- A line between an entry and an indented line. -/
def strayLine : TextLine "2024/1/1 a\n?? é\r\n  x\n".toList where
  before := "2024/1/1 a\n".toList
  text := "?? é".toList
  gap := "\r\n".toList
  after := "  x\n".toList
  split := by decide
  whole := by decide
  inLine := by decide
  ends := .inl (.inr (by decide))
  full := by decide

/-- Between other lines a line is dropped as a whole. -/
theorem tokenize_stray_line : ¬ strayLine.IsBlank ∧ strayLine.StartsNothing ∧
    strayLine.DroppedIn (tokenize "2024/1/1 a\n?? é\r\n  x\n") := by
  have hblank : ¬ strayLine.IsBlank := by decide
  have hnone : strayLine.StartsNothing := by decide +kernel
  exact ⟨hblank, hnone, (tokenize_unknown_line _ strayLine hblank hnone).mpr (.inl (by decide))⟩

/-- A line with a carriage return inside. -/
def returnLine : TextLine "ab\rcd\n".toList where
  before := []
  text := "ab\rcd".toList
  gap := ['\n']
  after := []
  split := by decide
  whole := by decide
  inLine := by decide
  ends := .inl (.inl rfl)
  full := by decide

/-- A carriage return in a line leaves three faults of it. -/
theorem tokenize_carriage_return : ¬ returnLine.IsBlank ∧ returnLine.StartsNothing ∧
    (tokenize "ab\rcd\n").faults = [⟨⟨0, 1, 1⟩, 2, .unknownLine "ab"⟩,
      ⟨⟨2, 1, 3⟩, 1, .unknownLine "\r"⟩, ⟨⟨3, 1, 4⟩, 2, .unknownLine "cd"⟩] ∧
    ¬ returnLine.DroppedIn (tokenize "ab\rcd\n") := by
  have hfaults : (tokenize "ab\rcd\n").faults = [⟨⟨0, 1, 1⟩, 2, .unknownLine "ab"⟩,
      ⟨⟨2, 1, 3⟩, 1, .unknownLine "\r"⟩, ⟨⟨3, 1, 4⟩, 2, .unknownLine "cd"⟩] := by
    decide +kernel
  refine ⟨by decide, by decide +kernel, hfaults, fun hdropped => ?_⟩
  have hone := congrArg List.length hdropped.faults
  rw [hfaults] at hone
  exact absurd hone (by decide)

end Daybook
