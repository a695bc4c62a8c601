import Daybook.Proofs.Token.Line

/-!
# What a step of the tokenizer can do

A step meets layout, a line break, a token, a line that starts no item, or a character that nothing
reads (`Comes`). It takes what it meets and no more, so the source runs out exactly, and it looks no
further than the line that it is on. This is `step` with `match_rule` and `recover`.

Results:
* `comes_next`: **the five things a step can meet**, each with what it says about the text.
* `taken_next_le`: a step never passes the end of the source.
* `lineLocal_next`: a step does not look behind the next line feed.
* `reportMore_cases`: a character that nothing reads makes the last fault longer, or is a fault of
  its own.
* `faults_reportMore_moved`: faults that are moved grow as they did.
* `run_token`: a token that comes next is noted and passed.
* `run_induction`: what every step keeps holds at the end of the source.
* `reached_run`: the end is reached.
-/

namespace Daybook

open Lexeme Text

/-! ## Line breaks -/

/-- A line feed, perhaps with a carriage return before it. -/
def IsBreak (text : List Char) : Prop := text = ['\n'] ∨ text = ['\r', '\n']

variable {cs : List Char}

theorem IsBreak.ne_nil {text : List Char} (h : IsBreak text) : text ≠ [] := by
  rcases h with rfl | rfl <;> exact List.cons_ne_nil _ _

/-- The line break at the front. -/
theorem exists_break (h : 0 < newlineLength cs) :
    ∃ gap tail, cs = gap ++ tail ∧ IsBreak gap ∧ gap.length = newlineLength cs := by
  rcases newlineLength_pos_iff.mp h with ⟨tail, rfl⟩ | ⟨tail, rfl⟩
  · exact ⟨['\n'], tail, rfl, .inl rfl, rfl⟩
  · exact ⟨['\r', '\n'], tail, rfl, .inr rfl, rfl⟩

theorem newlineLength_cons (h : newlineLength cs = 0) {c : Char} {tail : List Char}
    (hcs : cs = c :: tail) : c ≠ '\n' := by
  rintro rfl
  subst hcs
  exact absurd h (by simp [newlineLength])

theorem lineLocal_newlineLength : LineLocal newlineLength := by
  intro line more
  cases line with
  | nil => rfl
  | cons c line =>
    by_cases hfeed : c = '\n'
    · subst hfeed; rfl
    · by_cases hreturn : c = '\r'
      · subst hreturn
        cases line with
        | nil => rfl
        | cons d line =>
          by_cases hd : d = '\n'
          · subst hd; rfl
          · simp [newlineLength, hd]
      · simp [newlineLength, hfeed, hreturn]

/-! ## Layout -/

theorem isLayout_of_mem_take {n : Nat} {c : Char} (hn : n ≤ layoutLength cs)
    (hc : c ∈ cs.take n) : isLayout c := by
  have hfront : cs.takeWhile isLayout <+: cs := List.takeWhile_prefix _
  obtain ⟨tail, htail⟩ := hfront
  rw [← htail, List.take_append_of_le_length hn] at hc
  exact List.mem_takeWhile_imp (List.mem_of_mem_take hc)

theorem emptyLineLength_le (cs : List Char) : emptyLineLength cs ≤ layoutLength cs := by
  unfold emptyLineLength
  split
  · exact Nat.le_refl _
  · split
    · exact Nat.le_refl _
    · exact Nat.zero_le _

theorem layoutLength_mode_le (mode : Mode) (cs : List Char) :
    mode.layoutLength cs ≤ layoutLength cs := by
  cases mode <;> first
    | exact Nat.le_refl _
    | exact Nat.zero_le _
    | exact emptyLineLength_le cs

theorem lineLocal_emptyLineLength : LineLocal emptyLineLength := by
  intro line more
  have hlen : ∀ rest, layoutLength (line ++ '\n' :: rest) = (line.takeWhile isLayout).length :=
    fun rest => congrArg List.length (takeWhile_break rfl line rest)
  have hdrop : ∀ rest, (line ++ '\n' :: rest).drop (line.takeWhile isLayout).length =
      line.dropWhile isLayout ++ '\n' :: rest := fun rest => drop_run_break line rest
  have hbreak := lineLocal_newlineLength (line.dropWhile isLayout) more
  simp only [emptyLineLength, hlen, hdrop]
  cases hleft : line.dropWhile isLayout with
  | nil => rfl
  | cons c rest =>
    rw [hleft] at hbreak
    simp only [List.cons_append] at hbreak ⊢
    rw [hbreak]

theorem lineLocal_layoutLength_mode (mode : Mode) : LineLocal mode.layoutLength := by
  cases mode <;> first
    | exact ofLine_layoutLength.lineLocal
    | exact fun _ _ => rfl
    | exact lineLocal_emptyLineLength

/-! ## What a step meets -/

/-- What comes next, and what it says about the text in front of the tokenizer. -/
inductive Comes (s : Scanner) (rest : List Char) : Event → Prop
  /-- Spaces and tabs. -/
  | layout {n : Nat} {h : 0 < n} (hlen : n ≤ rest.length)
      (hlayout : ∀ c ∈ rest.take n, isLayout c) :
    Comes s rest (.layout n h)
  /-- A line break. -/
  | newline {n : Nat} {h : 0 < n} {gap tail : List Char} (hrest : rest = gap ++ tail)
    (hbreak : IsBreak gap) (hlen : gap.length = n) : Comes s rest (.newline n h)
  /-- A token of the mode. -/
  | token {kind : Kind} {found : Match} {move : Move} (hbreak : newlineLength rest = 0)
    (hfound : s.modes.top.token? (s.view rest) = some (kind, found, move)) :
    Comes s rest (.token kind found move)
  /-- A line whose start is not recognised. -/
  | unknownLine {n b : Nat} {h : 0 < n} {text gap tail : List Char}
    (hmode : s.modes.top = .lineStart) (hnone : s.modes.top.token? (s.view rest) = none)
    (hrest : rest = text ++ (gap ++ tail)) (htext : text.length = n) (hgap : gap.length = b)
    (hline : '\n' ∉ text) (hbreak : gap = [] ∨ IsBreak gap) : Comes s rest (.unknownLine n b h)
  /-- A character that starts nothing in the mode. -/
  | unexpected {c : Char} {tail : List Char} (hmode : s.modes.top ≠ .lineStart)
    (hrest : rest = c :: tail) (hbreak : c ≠ '\n') : Comes s rest (.unexpected s.modes.top)

theorem exists_gap (cs : List Char) : ∃ gap tail, cs = gap ++ tail ∧ (gap = [] ∨ IsBreak gap) ∧
    gap.length = newlineLength cs := by
  by_cases h : 0 < newlineLength cs
  · obtain ⟨gap, tail, hcs, hbreak, hlen⟩ := exists_break h
    exact ⟨gap, tail, hcs, .inr hbreak, hlen⟩
  · exact ⟨[], cs, rfl, .inl rfl, (Nat.eq_zero_of_not_pos h).symm⟩

theorem comes_unknownLine {s : Scanner} {rest : List Char} (hne : rest ≠ [])
    (hbreak : newlineLength rest = 0) (hmode : s.modes.top = .lineStart)
    (hnone : s.modes.top.token? (s.view rest) = none) : Comes s rest (unknownLine rest) := by
  obtain ⟨after, hafter⟩ : lineRest rest <+: rest := List.takeWhile_prefix _
  have hline : '\n' ∉ lineRest rest := fun hmem =>
    absurd (endsLine_of_not_mem hmem) (by decide)
  unfold unknownLine
  simp only
  split
  · have hdrop : rest.drop (lineRest rest).length = after := by
      calc rest.drop (lineRest rest).length
          = (lineRest rest ++ after).drop (lineRest rest).length := by rw [hafter]
        _ = after := List.drop_left
    obtain ⟨gap, tail, hgap, hkind, hlen⟩ := exists_gap after
    exact .unknownLine hmode hnone (by rw [← hgap, hafter]) rfl (by rw [hdrop, hlen]) hline hkind
  · -- the line starts with a carriage return that breaks no line
    obtain ⟨c, tail, rfl⟩ := List.exists_cons_of_ne_nil hne
    have hc : '\n' ∉ [c] := by simpa using (newlineLength_cons hbreak rfl).symm
    exact .unknownLine hmode hnone (show c :: tail = [c] ++ ([] ++ tail) from rfl) rfl rfl hc
      (.inl rfl)

/-- **What a step can meet.** -/
theorem comes_next {s : Scanner} {rest : List Char} (hne : rest ≠ []) :
    Comes s rest (s.next rest) := by
  unfold Scanner.next
  simp only
  split
  · have hle := layoutLength_mode_le s.modes.top rest
    exact .layout (Nat.le_trans hle (onLine_layoutLength rest).le_length)
      fun c hc => isLayout_of_mem_take hle hc
  · split
    · next hpos =>
      obtain ⟨gap, tail, hrest, hbreak, hlen⟩ := exists_break hpos
      exact .newline hrest hbreak hlen
    · next hzero =>
      have hbreak : newlineLength rest = 0 := Nat.eq_zero_of_not_pos hzero
      split
      · next hfound => exact .token hbreak hfound
      · next hnone =>
        split
        · next hmode => exact comes_unknownLine hne hbreak hmode hnone
        · next hmode =>
          obtain ⟨c, tail, rfl⟩ := List.exists_cons_of_ne_nil hne
          exact .unexpected hmode rfl (newlineLength_cons hbreak rfl)

/-- What comes is all there. -/
theorem Comes.taken_le {s : Scanner} {rest : List Char} {e : Event} (h : Comes s rest e) :
    e.taken ≤ rest.length := by
  cases h with
  | layout hlen _ => exact hlen
  | newline hrest _ hlen =>
    simp only [Event.taken, ← hlen, hrest, List.length_append]
    omega
  | token _ hfound => exact (onLine_token? hfound).le_length
  | unknownLine _ _ hrest htext hgap _ _ =>
    simp only [Event.taken, ← htext, ← hgap, hrest, List.length_append]
    omega
  | unexpected _ hrest _ =>
    simp only [Event.taken, hrest, List.length_cons]
    omega

/-- **A step never passes the end of the source.** -/
theorem taken_next_le {s : Scanner} {rest : List Char} (hne : rest ≠ []) :
    (s.next rest).taken ≤ rest.length := (comes_next hne).taken_le

/-! ## A step does not look behind the next line feed -/

theorem lineLocal_unknownLine : LineLocal unknownLine := by
  intro line more
  have hrun : ∀ rest, lineRest (line ++ '\n' :: rest) = lineRest line := fun rest =>
    takeWhile_break rfl line rest
  have hdrop : ∀ rest, (line ++ '\n' :: rest).drop (lineRest line).length =
      line.dropWhile (fun c => !endsLine c) ++ '\n' :: rest := fun rest => drop_run_break line rest
  simp only [unknownLine, hrun, hdrop, lineLocal_newlineLength (line.dropWhile _) more]

/-- **A step does not look behind the next line feed.** -/
theorem lineLocal_next (s : Scanner) : LineLocal s.next := by
  intro line more
  have htoken := (ofLine_token? s.modes.top (s.view [])).lineLocal line more
  simp only [Scanner.view] at htoken
  simp only [Scanner.next, Scanner.view, lineLocal_layoutLength_mode s.modes.top line more,
    lineLocal_newlineLength line more, htoken, lineLocal_unknownLine line more]

/-! ## Runs -/

theorem byteLength_pos {text : List Char} (h : text ≠ []) : 0 < byteLength text := by
  obtain ⟨c, cs, rfl⟩ := List.exists_cons_of_ne_nil h
  rw [byteLength_cons]
  exact Nat.add_pos_left c.utf8Size_pos _

theorem take_ne_nil {n : Nat} {rest : List Char} (hpos : 0 < n) (hne : rest ≠ []) :
    rest.take n ≠ [] := by
  simp only [ne_eq, List.take_eq_nil_iff, not_or]
  exact ⟨Nat.ne_of_gt hpos, hne⟩

namespace Scanner

/-- A fault that ends at the place, on its line, grows by a character that is reported there. -/
def Grows (s : Scanner) (f : ScanFault) : Prop :=
  f.stop = s.place.offset ∧ f.place.line = s.place.line

section

variable {s : Scanner} {last : ScanFault} {faults : List ScanFault}

theorem reportMore_of_grows (hfaults : s.faults = last :: faults) (h : s.Grows last)
    (text : List Char) (mode : Mode) : s.reportMore text mode =
      { s with faults := { last with length := last.length + byteLength text } :: faults } := by
  simp only [reportMore, hfaults, h.1, h.2, decide_true, Bool.and_self, if_true]

theorem reportMore_of_not_grows (h : ∀ last ∈ s.faults.head?, ¬ s.Grows last) (text : List Char)
    (mode : Mode) : s.reportMore text mode = s.report text (.unexpected mode) := by
  unfold reportMore
  split
  · next last faults hfaults =>
    have hlast := h last (by rw [hfaults]; rfl)
    rw [if_neg (by simpa [Grows] using hlast)]
  · rfl

/-- What becomes of a character in the middle of a line: the last fault grows, or the character is a
fault of its own. -/
theorem reportMore_cases (s : Scanner) (text : List Char) (mode : Mode) :
    (∃ last faults, s.faults = last :: faults ∧ s.Grows last ∧ s.reportMore text mode =
        { s with faults := { last with length := last.length + byteLength text } :: faults }) ∨
    s.reportMore text mode = s.report text (.unexpected mode) := by
  by_cases h : ∃ last ∈ s.faults.head?, s.Grows last
  · obtain ⟨last, hlast, hgrows⟩ := h
    obtain ⟨faults, hfaults⟩ := List.head?_eq_some_iff.mp hlast
    exact .inl ⟨last, faults, hfaults, hgrows, reportMore_of_grows hfaults hgrows ..⟩
  · exact .inr (reportMore_of_not_grows (fun last hlast hgrows => h ⟨last, hlast, hgrows⟩) ..)

/-- A character in the middle of a line changes nothing but the faults. -/
theorem reportMore_eq (s : Scanner) (text : List Char) (mode : Mode) :
    s.reportMore text mode = { s with faults := (s.reportMore text mode).faults } := by
  obtain ⟨last, faults, -, -, hmore⟩ | hmore := s.reportMore_cases text mode <;> rw [hmore]
  rfl

/-- **Faults that are moved grow alike**, if the last one still ends at the place where it did.
There may be more faults before them that do not grow. -/
theorem faults_reportMore_moved (s' : Scanner) {move : Place → Place} {more : List ScanFault}
    (hfaults : s'.faults = s.faults.map (fun f => { f with place := move f.place }) ++ more)
    (hplace : s'.place = move s.place)
    (hlast : ∀ last ∈ s.faults.head?,
      s'.Grows { last with place := move last.place } ↔ s.Grows last)
    (hmore : ∀ last ∈ more.head?, ¬ s'.Grows last) (text : List Char) (mode : Mode) :
    (s'.reportMore text mode).faults =
      (s.reportMore text mode).faults.map (fun f => { f with place := move f.place }) ++ more := by
  cases hs : s.faults with
  | nil =>
    rw [hs, List.map_nil, List.nil_append] at hfaults
    rw [reportMore_of_not_grows (s := s) (by simp [hs]),
      reportMore_of_not_grows (hfaults ▸ hmore)]
    simp only [report, hs, hfaults, hplace, List.map_cons, List.map_nil, List.cons_append,
      List.nil_append]
  | cons last faults =>
    have hhead : last ∈ s.faults.head? := by rw [hs]; rfl
    rw [hs, List.map_cons, List.cons_append] at hfaults
    by_cases h : s.Grows last
    · rw [reportMore_of_grows hs h, reportMore_of_grows hfaults ((hlast last hhead).mpr h)]
      rfl
    · rw [reportMore_of_not_grows (s := s) (by simpa [hs] using h),
        reportMore_of_not_grows (by simpa [hfaults] using mt (hlast last hhead).mp h)]
      simp only [report, hs, hfaults, hplace, List.map_cons, List.cons_append]

end

theorem place_reportMore (s : Scanner) (text : List Char) (mode : Mode) :
    (s.reportMore text mode).place = s.place := by rw [reportMore_eq]

theorem place_record (s : Scanner) (rest : List Char) (e : Event) :
    (s.record rest e).place = s.place := by
  cases e with
  | unexpected mode => exact s.place_reportMore _ mode
  | _ => rfl

/-- A step moves on by what it takes. -/
theorem place_step (s : Scanner) (rest : List Char) :
    (s.step rest).place = s.place.advance (rest.take (s.next rest).taken) := by
  simp only [step, pass, place_record]

theorem before_reportMore (s : Scanner) (text : List Char) (mode : Mode) :
    (s.reportMore text mode).before = s.before := by rw [reportMore_eq]

theorem before_record (s : Scanner) (rest : List Char) (e : Event) :
    (s.record rest e).before = s.before := by
  cases e with
  | unexpected mode => exact s.before_reportMore _ mode
  | _ => rfl

/-- The last character read is the last that a step takes. -/
theorem before_step (s : Scanner) (rest : List Char) :
    (s.step rest).before = (rest.take (s.next rest).taken).getLast?.or s.before := by
  simp only [step, pass, before_record]

/-- **A step moves on**, and not past the end of the source. -/
theorem offset_step (s : Scanner) {rest : List Char} (hne : rest ≠ []) :
    s.place.offset < (s.step rest).place.offset ∧
      (s.step rest).place.offset ≤ s.place.offset + byteLength rest := by
  have hpos := byteLength_pos (take_ne_nil (s.next rest).taken_pos hne)
  have hsplit := byteLength_append (rest.take (s.next rest).taken)
    (rest.drop (s.next rest).taken)
  rw [List.take_append_drop] at hsplit
  rw [place_step, Place.offset_advance]
  omega

theorem run_of_ne_nil (s : Scanner) {rest : List Char} (hne : rest ≠ []) :
    s.run rest = (s.step rest).run (rest.drop (s.next rest).taken) := by
  obtain ⟨c, cs, rfl⟩ := List.exists_cons_of_ne_nil hne
  exact s.run_cons c cs

/-- **A token that comes next is noted and passed.** -/
theorem run_token {s : Scanner} {text ahead : List Char} {kind : Kind} {found : Match} {move : Move}
    (hnext : s.next (text ++ ahead) = .token kind found move)
    (hlength : found.length = text.length) :
    s.run (text ++ ahead) =
      ({ s.note kind text found.payload with modes := s.modes.move move }.pass text).run ahead := by
  have hne : text ++ ahead ≠ [] :=
    List.append_ne_nil_of_left_ne_nil (List.ne_nil_of_length_pos (hlength ▸ found.length_pos)) _
  have hstep : s.step (text ++ ahead) =
      { s.note kind text found.payload with modes := s.modes.move move }.pass text := by
    simp only [step, hnext, record, Event.taken, hlength, List.take_left]
  rw [run_of_ne_nil _ hne, hstep, hnext, Event.taken, hlength, List.drop_left]

/-- **What every step keeps holds at the end.** -/
theorem run_induction {P : Scanner → List Char → Prop}
    (hstep : ∀ {s rest}, rest ≠ [] → P s rest → P (s.step rest) (rest.drop (s.next rest).taken))
    {s : Scanner} {rest : List Char} (h : P s rest) : P (s.run rest) [] := by
  induction hn : rest.length using Nat.strongRecOn generalizing s rest with
  | ind n ih =>
    cases rest with
    | nil => rwa [run_nil]
    | cons c cs =>
      have hpos := (s.next (c :: cs)).taken_pos
      rw [run_cons]
      refine ih _ ?_ (hstep (List.cons_ne_nil c cs) h) rfl
      rw [List.length_drop, ← hn, List.length_cons]
      omega

/-- How far the tokenizer comes on a source, and what is then still in front of it. -/
inductive Reached (source : List Char) : Scanner → List Char → Prop
  /-- At the start. -/
  | start : Reached source .start source
  /-- After one more step. -/
  | step {s : Scanner} {rest : List Char} (h : Reached source s rest) (hne : rest ≠ []) :
    Reached source (s.step rest) (rest.drop (s.next rest).taken)

/-- **The end of the source is reached.** -/
theorem reached_run {source : List Char} {s : Scanner} {rest : List Char}
    (h : Reached source s rest) : Reached source (s.run rest) [] :=
  run_induction (fun hne h => h.step hne) h

/-- What has been passed is a front of the source, and the place is behind it. -/
theorem exists_passed {source : List Char} {s : Scanner} {rest : List Char}
    (h : Reached source s rest) :
    ∃ passed, passed ++ rest = source ∧ s.place = Place.start.advance passed ∧
      s.before = passed.getLast? := by
  induction h with
  | start => exact ⟨[], rfl, rfl, rfl⟩
  | @step s rest _ hne ih =>
    obtain ⟨passed, hsource, hplace, hbefore⟩ := ih
    refine ⟨passed ++ rest.take (s.next rest).taken, ?_, ?_, ?_⟩
    · rw [List.append_assoc, List.take_append_drop, hsource]
    · rw [place_step, hplace, Place.advance_append]
    · rw [before_step, hbefore, List.getLast?_append]

theorem offset_add_byteLength {source : List Char} {s : Scanner} {rest : List Char}
    (h : Reached source s rest) : s.place.offset + byteLength rest = byteLength source := by
  obtain ⟨passed, rfl, hplace, -⟩ := exists_passed h
  rw [hplace, Place.offset_advance, byteLength_append]
  exact congrArg (· + byteLength rest) (Nat.zero_add _)

end Scanner

end Daybook
