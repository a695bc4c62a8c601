import Daybook.Proofs.Token.Bytes
import Daybook.Proofs.Token.Comment
import Daybook.Proofs.Token.Places

/-!
# Whitespace behind free text

Free text is trimmed of all blank characters, but between tokens only spaces and tabs are passed
over. Behind the text no more of it is found as long as the line is blank, so any other blank
character that was trimmed starts nothing and is reported, one by one or together with its
neighbours. About `trimmed_run`; the specification has horizontal whitespace skipped ([SPEC 11.3]).

* `Lexeme.blankRun cs`: the blank characters at the front of a line.
* `Mode.freeText mode`: the free text of a mode.
* `Scanner.Spent s rest`: the blank characters in front of the tokenizer hold no free text.
* `Scanner.PassesBlank s rest`: a step over them.

Results:
* `textRun_behind`, `freeRun_drop`: what was trimmed off a text holds no text.
* `Spent.passes`: **a step over trimmed whitespace passes layout or reports.**
* `reported_behind_trimmed`: **what becomes of the whitespace behind a text**: it is in no token,
  and in a fault just where it is no space and no tab.
* `no_break_space_reported`: a no-break space behind a description is reported.
-/

namespace Daybook

open Lexeme Text

/-! ## Blank characters at the front -/

namespace Lexeme

/-- The blank characters at the front, up to the end of the line. -/
def blankRun (cs : List Char) : List Char := cs.takeWhile fun c => isBlank c && !endsLine c

variable {cs us vs : List Char} {before c d : Char} {n : Nat}

theorem of_mem_blankRun (h : c ∈ blankRun cs) : isBlank c ∧ endsLine c = false := by
  simpa using List.mem_takeWhile_imp h

theorem blankRun_isPrefix (cs : List Char) : blankRun cs <+: cs := List.takeWhile_prefix _

theorem take_blankRun (h : n ≤ (blankRun cs).length) : (blankRun cs).take n = cs.take n := by
  obtain ⟨tail, htail⟩ := blankRun_isPrefix cs
  exact (List.take_append_of_le_length h).symm.trans (congrArg (List.take n) htail)

theorem blankRun_cons (hc : isBlank c) (hends : endsLine c = false) (cs : List Char) :
    blankRun (c :: cs) = c :: blankRun cs := List.takeWhile_cons_of_pos (by simp [hc, hends])

theorem exists_cons_of_blankRun (h : blankRun cs = d :: us) :
    ∃ more, cs = d :: more ∧ blankRun more = us ∧ isBlank d ∧ endsLine d = false := by
  have hd := of_mem_blankRun (h ▸ List.mem_cons_self : d ∈ blankRun cs)
  obtain ⟨tail, htail⟩ := blankRun_isPrefix cs
  rw [h, List.cons_append] at htail
  refine ⟨us ++ tail, htail.symm, ?_, hd⟩
  rw [← htail, blankRun_cons hd.1 hd.2] at h
  exact (List.cons.inj h).2

theorem blankRun_drop (h : n ≤ (blankRun cs).length) :
    blankRun (cs.drop n) = (blankRun cs).drop n := by
  let p := fun c => isBlank c && !endsLine c
  have hsplit : blankRun cs ++ cs.dropWhile p = cs := List.takeWhile_append_dropWhile
  have hdrop : cs.drop n = (blankRun cs).drop n ++ cs.dropWhile p := by
    rw [← List.drop_append_of_le_length h, hsplit]
  rw [hdrop]
  refine takeWhile_stops (fun c hc => ?_) head?_dropWhile
  simpa using of_mem_blankRun (List.mem_of_mem_drop hc)

theorem isDateChar_of_isBlank (hc : isBlank c) : isDateChar c = false := by
  rw [isDateChar, Bool.or_eq_false_iff]
  constructor
  · by_contra hdigit
    have hrange := Scanner.toNat_of_isDigit (Bool.not_eq_false _ ▸ hdigit)
    simp only [isBlank, Bool.or_eq_true, Bool.and_eq_true, decide_eq_true_eq] at hc
    omega
  · by_contra hsign
    simp only [isDateSign, Bool.not_eq_false, Bool.or_eq_true, decide_eq_true_eq] at hsign
    rcases hsign with (rfl | rfl) | rfl <;> exact absurd hc (by decide)

theorem take_takeWhile_length (p : Char → Bool) (cs : List Char) :
    cs.take (cs.takeWhile p).length = cs.takeWhile p :=
  (List.prefix_iff_eq_take.mp (List.takeWhile_prefix p)).symm

/-- Layout at the front is blank. -/
theorem takeWhile_isLayout (cs : List Char) :
    cs.takeWhile isLayout = (blankRun cs).takeWhile isLayout := by
  rw [blankRun, List.takeWhile_takeWhile]
  refine congrArg (List.takeWhile · cs) (funext fun c => ?_)
  cases hc : isLayout c with
  | false => rfl
  | true => simp [isBlank_of_isLayout hc, endsLine_of_isLayout hc]

/-! ## Free text -/

/-- If no text starts at the front of blank characters, none starts among them. -/
theorem freeRun_drop_blank {isStop : Char → Bool} (hstop : ∀ c, isStop c → isBlank c = false)
    (h : freeRun isStop cs = []) (hn : n < (blankRun cs).length) :
    freeRun isStop (cs.drop n) = [] := by
  refine freeRun_drop_passed h fun c hc => ?_
  rw [← take_blankRun (Nat.le_of_lt hn)] at hc
  obtain ⟨hblank, hends⟩ := of_mem_blankRun (List.mem_of_mem_take hc)
  refine ⟨hends, Bool.eq_false_iff.mpr fun hstops => ?_⟩
  exact absurd (hblank.symm.trans (hstop c hstops)) (by decide)

/-- Nothing is left of a text that is all blank, and of no other. -/
theorem trimEnd_eq_nil_iff : trimEnd cs = [] ↔ ∀ c ∈ cs, isBlank c := by
  refine ⟨fun h => ?_, trimEnd_eq_nil⟩
  obtain ⟨gap, hgap, hblank⟩ := trimEnd_append cs
  rw [h, List.nil_append] at hgap
  exact hgap ▸ hblank

/-- Free text goes on over a blank character. -/
theorem untilTag_of_isBlank (hc : isBlank c) (hends : endsLine c = false) (cs : List Char) :
    untilTag before (c :: cs) = c :: untilTag c cs := by
  simp [untilTag, hends, tagNameLength?_of_isBlank hc]

/-- Free text goes on in the same way from each of its characters. -/
theorem untilTag_behind (h : c :: untilTag c cs = us ++ d :: vs) :
    ∃ more, c :: cs = us ++ d :: more ∧ untilTag d more = vs := by
  induction us generalizing c cs with
  | nil =>
    obtain ⟨rfl, htail⟩ := List.cons.inj h
    exact ⟨cs, rfl, htail⟩
  | cons u us ih =>
    obtain ⟨rfl, htail⟩ := List.cons.inj h
    cases cs with
    | nil => exact absurd htail.symm (by simp [untilTag])
    | cons b cs =>
      rw [untilTag] at htail
      split at htail
      · exact absurd htail.symm (by simp)
      · obtain ⟨more, hmore, htold⟩ := ih htail
        exact ⟨more, congrArg (c :: ·) hmore, htold⟩

/-- Free text does not end in front of a blank character of its line. -/
theorem blankRun_behind_untilTag (before : Char) (cs : List Char) :
    blankRun (cs.drop (untilTag before cs).length) = [] := by
  induction cs generalizing before with
  | nil => rfl
  | cons c cs ih =>
    by_cases hblank : isBlank c ∧ endsLine c = false
    · rw [untilTag_of_isBlank hblank.1 hblank.2]
      exact ih c
    · rw [untilTag]
      split
      · exact List.takeWhile_cons_of_neg (by simpa using hblank)
      · exact ih c

/-- What was trimmed off the text of a comment holds no text. -/
theorem textRun_behind (h : blankRun (cs.drop (textRun cs).length) ≠ []) :
    textRun (cs.drop (textRun cs).length) = [] := by
  cases cs with
  | nil => rfl
  | cons c cs =>
    cases hends : endsLine c with
    | true =>
      have hnil : textRun (c :: cs) = [] := by rw [textRun, if_pos hends]
      rw [hnil]
      exact hnil
    | false =>
      have htext : textRun (c :: cs) = trimEnd (c :: untilTag c cs) := by
        rw [textRun, if_neg (by simp [hends])]
      obtain ⟨gap, hgap, hblank⟩ := trimEnd_append (c :: untilTag c cs)
      rw [← htext] at hgap
      cases gap with
      | nil =>
        -- nothing was trimmed, so no blank character follows
        rw [List.append_nil] at hgap
        rw [hgap, List.length_cons, List.drop_succ_cons] at h
        exact absurd (blankRun_behind_untilTag c cs) h
      | cons d gap =>
        obtain ⟨more, hmore, htold⟩ := untilTag_behind hgap.symm
        have hdrop := congrArg (List.drop (textRun (c :: cs)).length) hmore
        rw [List.drop_left] at hdrop
        rw [hdrop, textRun]
        split
        · rfl
        · rw [htold]
          exact trimEnd_eq_nil hblank

theorem textRun_tail (h : textRun (c :: d :: cs) = []) (hc : endsLine c = false)
    (hd : isBlank d ∧ endsLine d = false) : textRun (d :: cs) = [] := by
  rw [textRun, if_neg (by simp [hc]), untilTag_of_isBlank hd.1 hd.2, trimEnd_eq_nil_iff] at h
  rw [textRun, if_neg (by simp [hd.2])]
  exact trimEnd_eq_nil (List.forall_mem_cons.mp h).2

/-- If no text starts at the front of blank characters, none starts among them. -/
theorem textRun_drop (h : textRun cs = []) (hn : n < (blankRun cs).length) :
    textRun (cs.drop n) = [] := by
  induction n generalizing cs with
  | zero => exact h
  | succ n ih =>
    obtain ⟨c, run, hrun⟩ := List.exists_cons_of_length_pos (Nat.zero_lt_of_lt hn)
    obtain ⟨cs, rfl, rfl, -, hc⟩ := exists_cons_of_blankRun hrun
    rw [hrun, List.length_cons] at hn
    obtain ⟨d, run, hrun'⟩ := List.exists_cons_of_length_pos (by omega : 0 < (blankRun cs).length)
    obtain ⟨cs, rfl, -, hd⟩ := exists_cons_of_blankRun hrun'
    exact ih (textRun_tail h hc hd) (by omega)

end Lexeme

/-! ## Free text of a mode -/

/-- The kinds of tokens that are trimmed. -/
def Kind.isTrimmed : Kind → Bool
  | text | inlineText | tagValue => true
  | _ => false

theorem Kind.ne_newline_of_isTrimmed {kind : Kind} (h : kind.isTrimmed) : kind ≠ .newline := by
  rintro rfl
  cases h

namespace Mode

/-- The modes that look for text to trim. -/
def trims : Mode → Bool
  | header | memo | inlineComment | tagValue => true
  | _ => false

/-- The text at the front that a mode takes in the end, trimmed. -/
def freeText : Mode → List Char → List Char
  | header => freeRun fun c => c = ';' || c = '|'
  | memo => freeRun (· = ';')
  | inlineComment => textRun
  | tagValue => freeRun (· = ',')
  | _ => fun _ => []

variable {mode : Mode} {v : View} {kind : Kind} {found : Match} {move : Move} {cs : List Char}
  {c : Char} {n : Nat}

/-- Behind free text there is no more of it among blank characters. -/
theorem freeText_behind (h : blankRun (cs.drop (mode.freeText cs).length) ≠ []) :
    mode.freeText (cs.drop (mode.freeText cs).length) = [] := by
  cases mode <;> first
    | exact freeRun_drop _ cs
    | exact textRun_behind h
    | rfl

/-- If no text starts at the front of blank characters, none starts among them. -/
theorem freeText_drop (h : mode.freeText cs = []) (hn : n < (blankRun cs).length) :
    mode.freeText (cs.drop n) = [] := by
  cases mode with
  | header => exact freeRun_drop_blank (by simp; decide) h hn
  | memo => exact freeRun_drop_blank (by simp; decide) h hn
  | tagValue => exact freeRun_drop_blank (by simp; decide) h hn
  | inlineComment => exact textRun_drop h hn
  | _ => rfl

/-- What reads a token that is trimmed takes the free text. -/
theorem freeText_of_rule {rule : Rule} (hrule : rule ∈ mode.rules) (hkind : rule.kind.isTrimmed) :
    mode.trims ∧ rule.move = .stay ∧
      rule.find = fun v => Match.ofLength (mode.freeText v.rest).length := by
  cases mode <;>
    simp only [rules, Rule.accounts, List.cons_append, List.nil_append, List.mem_cons,
      List.not_mem_nil, or_false] at hrule <;>
    rcases hrule with rfl | rfl | rfl | rfl | rfl | rfl | rfl | rfl <;>
    first | exact absurd hkind (by decide) | exact ⟨rfl, rfl, rfl⟩

/-- A token that is trimmed is the free text of its mode. -/
theorem freeText_of_token? (h : mode.token? v = some (kind, found, move)) (hkind : kind.isTrimmed) :
    mode.trims ∧ move = .stay ∧ found.length = (mode.freeText v.rest).length := by
  rcases token?_cases h with ⟨rule, hrule, hfind, rfl, rfl⟩ | ⟨-, hamount, -⟩
  · obtain ⟨htrims, hmove, htext⟩ := freeText_of_rule hrule hkind
    rw [htext] at hfind
    exact ⟨htrims, hmove, length_ofLength hfind⟩
  · have hall : ∀ k ∈ amountKinds, ¬ k.isTrimmed := by decide
    exact absurd hkind (hall kind (kind_of_amountToken? hamount))

/-- A blank character is no sign. -/
theorem sign_of_isBlank (hrest : v.rest = c :: cs) (hc : isBlank c) {d : Char}
    (hd : isBlank d = false) : v.sign d = none := by
  have hne : c ≠ d := by
    rintro rfl
    exact absurd (hc.symm.trans hd) (by decide)
  simp [View.sign, hrest, hne]

/-- A blank character that starts no free text starts nothing. -/
theorem token?_of_isBlank (htrims : mode.trims) (hrest : v.rest = c :: cs) (hc : isBlank c)
    (hspent : mode.freeText v.rest = []) : mode.token? v = none := by
  have hsign {d : Char} := @sign_of_isBlank v cs c hrest hc d
  have hnone : Match.ofLength (mode.freeText v.rest).length = none := by
    rw [hspent]
    rfl
  have hsigns : c ∉ ['=', '*', '!', '(', '|'] := fun hmem => by
    have hall : ['=', '*', '!', '(', '|'].all fun d => !isBlank d := by decide
    have hother := List.all_eq_true.mp hall c hmem
    rw [hc] at hother
    exact absurd hother (by decide)
  cases mode with
  | header =>
    rw [Scanner.token?_header hrest hsigns (isDateChar_of_isBlank hc), hsign (by decide)]
    exact congrArg (Option.map _) hnone
  | memo =>
    simp only [Mode.token?, rules, List.findSome?_cons, List.findSome?_nil, Rule.token?,
      Rule.inlineComment, hsign (by decide : isBlank ';' = false), Option.map_none]
    rw [show v.textUpTo (· = ';') = none from hnone]
    rfl
  | inlineComment =>
    have hname : v.tagName = none := by
      rw [View.tagName, hrest, tagNameLength?_of_isBlank hc]
      exact ite_self none
    have hcolon : Scanner.tagColon v = none := by
      rw [Scanner.tagColon, hsign (by decide), ite_self, ite_self]
    rw [Scanner.token?_inlineComment, hname, hcolon]
    exact congrArg (Option.map _) hnone
  | tagValue =>
    rw [Scanner.token?_tagValue, hsign (by decide)]
    exact congrArg (Option.map _) hnone
  | _ => cases htrims

theorem layoutLength_of_trims (h : mode.trims) (cs : List Char) :
    mode.layoutLength cs = Lexeme.layoutLength cs := by
  cases mode <;> first | rfl | cases h

theorem ne_lineStart_of_trims (h : mode.trims) : mode ≠ .lineStart := by
  rintro rfl
  cases h

end Mode

/-! ## Steps over what was trimmed -/

namespace Scanner

variable {s : Scanner} {chars rest : List Char} {t : Token}

/-- The blank characters in front of the tokenizer hold no free text of its mode. -/
structure Spent (s : Scanner) (rest : List Char) : Prop where
  trims : s.modes.top.trims
  freeText : blankRun rest ≠ [] → s.modes.top.freeText rest = []

/-- A step over blank characters: over layout, or over others that it reports. -/
structure PassesBlank (s : Scanner) (rest : List Char) : Prop where
  taken_le : (s.next rest).taken ≤ (blankRun rest).length
  modes : (s.step rest).modes = s.modes
  noted : (s.next rest).noted = 0
  /-- What is reported is all that is taken, or nothing. -/
  reported : ∀ c ∈ (blankRun rest).take (s.next rest).taken,
    (s.next rest).reported = if isLayout c then 0 else (s.next rest).taken

/-- Behind a token that was trimmed no free text is left. -/
theorem Notes.spent (h : s.Notes rest t) (hne : rest ≠ []) (hkind : t.kind.isTrimmed) :
    (s.step rest).Spent (rest.drop (s.next rest).taken) := by
  obtain ⟨found, move, hnext, -, hfound⟩ :=
    h.exists_found hne (Kind.ne_newline_of_isTrimmed hkind)
  obtain ⟨htrims, rfl, hlength⟩ := Mode.freeText_of_token? hfound hkind
  have hmodes : (s.step rest).modes = s.modes := by
    rw [modes_step, hnext]
    rfl
  rw [hnext, Event.taken, hlength]
  refine ⟨hmodes ▸ htrims, fun hblank => ?_⟩
  rw [hmodes]
  exact Mode.freeText_behind hblank

/-- **A step over trimmed whitespace passes layout or reports.** -/
theorem Spent.passes (h : s.Spent rest) (hblank : blankRun rest ≠ []) : s.PassesBlank rest := by
  obtain ⟨d, run, hrun⟩ := List.exists_cons_of_ne_nil hblank
  obtain ⟨more, rfl, -, hd, hends⟩ := exists_cons_of_blankRun hrun
  have hmodes := modes_step s (d :: more)
  cases hlayout : isLayout d with
  | true =>
    have hlength : s.modes.top.layoutLength (d :: more) =
        ((blankRun (d :: more)).takeWhile isLayout).length := by
      rw [Mode.layoutLength_of_trims h.trims, layoutLength, takeWhile_isLayout]
    have hpos : 0 < s.modes.top.layoutLength (d :: more) := by
      rw [hlength, hrun, List.takeWhile_cons_of_pos hlayout]
      exact Nat.succ_pos _
    have hnext : s.next (d :: more) = .layout _ hpos := by
      simp only [next, hpos, dif_pos]
    rw [hnext] at hmodes
    refine ⟨?_, hmodes, by rw [hnext]; rfl, fun c hc => ?_⟩
    · rw [hnext, Event.taken, hlength]
      exact (List.takeWhile_prefix _).length_le
    · rw [hnext, Event.taken, hlength, take_takeWhile_length] at hc
      rw [hnext, if_pos (List.mem_takeWhile_imp hc)]
      rfl
  | false =>
    have hnone := Mode.token?_of_isBlank (v := s.view (d :: more)) h.trims rfl hd (h.freeText hblank)
    have hnext : s.next (d :: more) = .unexpected s.modes.top := by
      rw [next_of_inner (Mode.ne_lineStart_of_trims h.trims) (layoutLength_of_not_isLayout hlayout more)
        (newlineLength_of_not_endsLine hends more), hnone]
    rw [hnext] at hmodes
    refine ⟨?_, hmodes, by rw [hnext]; rfl, fun c hc => ?_⟩
    · rw [hnext, hrun]
      exact Nat.succ_pos _
    · rw [hnext, hrun] at hc
      obtain rfl := List.mem_singleton.mp hc
      rw [hnext, hlayout]
      rfl

/-- Such a step leaves such a state. -/
theorem Spent.step (h : s.Spent rest) (hpasses : s.PassesBlank rest) :
    (s.step rest).Spent (rest.drop (s.next rest).taken) := by
  refine ⟨hpasses.modes ▸ h.trims, fun hmore => ?_⟩
  rw [blankRun_drop hpasses.taken_le] at hmore
  have hlt : (s.next rest).taken < (blankRun rest).length := by
    rwa [ne_eq, List.drop_eq_nil_iff, Nat.not_le] at hmore
  have hblank : blankRun rest ≠ [] := List.ne_nil_of_length_pos (Nat.zero_lt_of_lt hlt)
  rw [hpasses.modes]
  exact Mode.freeText_drop (h.freeText hblank) hlt

/-- **Each blank character is passed by such a step.** -/
theorem Spent.exists_passes (h : s.Spent rest) (hreached : Reached chars s rest)
    {pre post : List Char} {d : Char} (hrun : blankRun rest = pre ++ d :: post) :
    ∃ s' rest', Reached chars s' rest' ∧ rest' ≠ [] ∧ s'.PassesBlank rest' ∧
      d ∈ (blankRun rest').take (s'.next rest').taken ∧
      s'.place.offset ≤ s.place.offset + byteLength pre ∧
      s.place.offset + byteLength (pre ++ [d]) ≤ (s'.step rest').place.offset := by
  induction hlen : pre.length using Nat.strongRecOn generalizing s rest pre with
  | ind k ih =>
    subst hlen
    have hblank : blankRun rest ≠ [] := by simp [hrun]
    have hpasses := h.passes hblank
    have hne : rest ≠ [] := by
      rintro rfl
      exact hblank rfl
    have hoffset : (s.step rest).place.offset =
        s.place.offset + byteLength ((pre ++ d :: post).take (s.next rest).taken) := by
      rw [place_step, Place.offset_advance, ← take_blankRun hpasses.taken_le, hrun]
    rcases Nat.lt_or_ge pre.length (s.next rest).taken with hlt | hle
    · -- this step passes the character
      have htake : (pre ++ d :: post).take (s.next rest).taken =
          (pre ++ [d]) ++ post.take ((s.next rest).taken - (pre ++ [d]).length) := by
        rw [List.append_cons, List.take_append, List.take_of_length_le]
        rwa [List.length_append]
      refine ⟨s, rest, hreached, hne, hpasses, ?_, Nat.le_add_right _ _, ?_⟩
      · rw [hrun, htake]
        simp
      · rw [hoffset, htake, byteLength_append (pre ++ [d])]
        omega
    · -- a later one does
      have hmore := blankRun_drop hpasses.taken_le
      rw [hrun, List.drop_append_of_le_length hle] at hmore
      have hpos := (s.next rest).taken_pos
      obtain ⟨s', rest', hreached', hne', hpasses', hmem, hstart, hstop⟩ :=
        ih _ (by rw [List.length_drop]; omega) (h.step hpasses) (hreached.step hne) hmore rfl
      rw [List.take_append_of_le_length hle] at hoffset
      have hsplit := byteLength_append (pre.take (s.next rest).taken)
        (pre.drop (s.next rest).taken)
      rw [List.take_append_drop] at hsplit
      refine ⟨s', rest', hreached', hne', hpasses', hmem, ?_, ?_⟩
      · omega
      · simp only [byteLength_append] at hstop ⊢
        omega

end Scanner

/-! ## The whitespace behind a text -/

section

variable {source : String} {t : Token} {f : ScanFault}

/-- A fault takes something. -/
theorem start_lt_stop_of_mem_faults (hf : f ∈ (tokenize source).faults) :
    f.span.start < f.span.stop := by
  obtain ⟨tiles, htiled, -, -, hfaults⟩ := tiled_tokenize source
  obtain ⟨x, hx, hfault⟩ := List.mem_filterMap.mp (hfaults ▸ hf)
  obtain ⟨front, back, rfl⟩ := List.append_of_mem hx
  obtain ⟨hspan, hne⟩ := htiled.standsAt.span_eq (span?_of_fault? hfault)
  rw [hspan]
  exact Nat.lt_add_of_pos_right (byteLength_pos hne)

/-- No fault starts at a line feed. -/
theorem ne_break_of_start (hf : f ∈ (tokenize source).faults) {before after : List Char} {d : Char}
    (hsource : source.toList = before ++ d :: after) (hstart : f.span.start = byteLength before) :
    d ≠ '\n' := by
  obtain ⟨before', text, after', hsource', hplace, hlength, hline⟩ :=
    (Scanner.reached_run .start).inLine f (List.mem_reverse.mp hf)
  have hoffset : f.span.start = byteLength before' := by
    rw [ScanFault.span, hplace]
    exact (Place.standsBehind_advance before').offset
  obtain ⟨rfl, hafter⟩ := append_inj_of_byteLength (hsource'.symm.trans hsource)
    (hoffset.symm.trans hstart)
  cases text with
  | nil =>
    have hlt := start_lt_stop_of_mem_faults hf
    rw [ScanFault.span, ScanFault.stop, hlength] at hlt
    exact absurd hlt (Nat.lt_irrefl _)
  | cons c text =>
    obtain ⟨rfl, -⟩ := List.cons.inj hafter
    exact (List.ne_of_not_mem_cons hline).symm

/-- What starts right behind a token on its line is no line that was dropped. -/
theorem not_dropsLine_of_start (ht : t ∈ (tokenize source).tokens) (hkind : t.kind ≠ .newline)
    (hf : f ∈ (tokenize source).faults) (hstart : f.span.start = t.stop) : f.dropsLine = false := by
  rw [Bool.eq_false_iff]
  intro hdrops
  obtain ⟨pre, post, hsplit, hparts, hbehind⟩ := exists_parts_tokenize hf hdrops
  obtain ⟨hpos, hordered⟩ := pairwise_stop_tokenize source
  have hlt := hpos t ht
  rw [hsplit] at ht hordered
  rcases List.mem_append.mp ht with hpre | hpost
  · -- the line break in front of the dropped line stands between them
    obtain ⟨init, last, rfl⟩ := (List.eq_nil_or_concat' pre).resolve_left (List.ne_nil_of_mem hpre)
    have hnewline := hparts.closed last (by rw [List.getLast?_concat]; rfl)
    have hfront := (hparts.front last (by simp)).1
    have hlast := hpos last (by rw [hsplit]; simp)
    rcases List.mem_append.mp hpre with hinit | hsame
    · have hle := (List.pairwise_append.mp (List.pairwise_append.mp hordered).1).2.2 t hinit last
        List.mem_cons_self
      have hplace : f.place.offset = t.stop := hstart
      omega
    · rw [List.mem_singleton.mp hsame] at hkind
      exact hkind hnewline
  · have hle := hbehind t hpost
    have hspan := start_lt_stop_of_mem_faults hf
    have hstop : f.span.stop = f.stop := rfl
    omega

/-- The bytes of the whitespace behind a token that was trimmed. -/
theorem holds_behind_trimmed (ht : t ∈ (tokenize source).tokens) (hkind : t.kind.isTrimmed) :
    ∃ before after, source.toList = before ++ (t.image.toList ++ after) ∧
      t.offset = byteLength before ∧
      ∀ pre d post, blankRun after = pre ++ d :: post → ∀ n, t.stop + byteLength pre ≤ n →
        n < t.stop + byteLength (pre ++ [d]) →
        (¬ ∃ u ∈ (tokenize source).tokens, u.span.Holds n) ∧
          ((∃ f ∈ (tokenize source).faults, f.span.Holds n) ↔ isLayout d = false) := by
  obtain ⟨s, rest, hreached, hne, hnotes⟩ := Scanner.exists_notes_of_mem_tokenize ht
  obtain ⟨passed, hpassed, hplace, -⟩ := Scanner.exists_passed hreached
  have hoffset : t.offset = byteLength passed := by
    rw [Token.offset, hnotes.place, hplace]
    exact (Place.standsBehind_advance passed).offset
  have hstop : (s.step rest).place.offset = t.stop := by
    rw [Scanner.place_step, Place.offset_advance, ← hnotes.image, ← hnotes.place]
    rfl
  refine ⟨passed, rest.drop (s.next rest).taken, ?_, hoffset, fun pre d post hrun n hle hlt => ?_⟩
  · rw [hnotes.image, List.take_append_drop, hpassed]
  · obtain ⟨s', rest', hreached', hne', hpasses, hmem, hstart, hend⟩ :=
      (hnotes.spent hne hkind).exists_passes (hreached.step hne) hrun
    rw [hstop] at hstart hend
    obtain ⟨hnoted, hreported⟩ := hreached'.holds_tokenize_iff hne'
      (Nat.le_trans hstart hle) (Nat.lt_of_lt_of_le hlt hend)
    rw [hpasses.noted] at hnoted
    rw [hpasses.reported d hmem] at hreported
    refine ⟨fun hholds => s'.not_inFront_nil n (hnoted.mp hholds), hreported.trans ?_⟩
    cases hlayout : isLayout d with
    | true => simpa using s'.not_inFront_nil n
    | false =>
      refine iff_of_true ⟨Nat.le_trans hstart hle, ?_⟩ rfl
      rw [Scanner.place_step, Place.offset_advance] at hend
      exact Nat.lt_of_lt_of_le hlt hend

/-- **What becomes of the whitespace behind a text.** Free text, also of a comment or a tag, is
trimmed of all blank characters behind it. They are in no token. Spaces and tabs among them are
passed over, and the others are reported, so that a fault inside the line starts right behind the
text if the first of them is another one, and only then. -/
theorem reported_behind_trimmed (source : String) {t : Token} (ht : t ∈ (tokenize source).tokens)
    (hkind : t.kind.isTrimmed) :
    ∃ before after, source.toList = before ++ (t.image.toList ++ after) ∧
      t.offset = byteLength before ∧
      (∀ pre d post, blankRun after = pre ++ d :: post → ∀ n, t.stop + byteLength pre ≤ n →
        n < t.stop + byteLength (pre ++ [d]) →
        (¬ ∃ u ∈ (tokenize source).tokens, u.span.Holds n) ∧
          ((∃ f ∈ (tokenize source).faults, f.span.Holds n) ↔ isLayout d = false)) ∧
      ((∃ f ∈ (tokenize source).faults, f.dropsLine = false ∧ f.span.start = t.stop ∧
          ∃ d ∈ after.head?, isBlank d ∧ d ≠ '\r') ↔
        ∃ d ∈ (blankRun after).head?, isLayout d = false) := by
  obtain ⟨before, after, hsource, hoffset, hholds⟩ := holds_behind_trimmed ht hkind
  refine ⟨before, after, hsource, hoffset, hholds, ?_⟩
  have hline := Kind.ne_newline_of_isTrimmed hkind
  have hstop : t.stop = byteLength (before ++ t.image.toList) := by
    rw [byteLength_append, ← hoffset]
    rfl
  have hfirst {d : Char} {run : List Char} (hrun : blankRun after = d :: run) :=
    (hholds [] d run hrun t.stop (Nat.le_refl _) (Nat.lt_add_of_pos_right (byteLength_pos (by simp)))).2
  constructor
  · rintro ⟨f, hf, -, hstart, d, hd, hblank, hreturn⟩
    obtain ⟨more, rfl⟩ := List.head?_eq_some_iff.mp hd
    have hbreak : d ≠ '\n' := ne_break_of_start hf (by rw [hsource, List.append_assoc])
      (hstart.trans hstop)
    have hends : endsLine d = false := by simp [endsLine, hbreak, hreturn]
    have hrun := blankRun_cons hblank hends more
    refine ⟨d, by rw [hrun]; rfl, (hfirst hrun).mp ⟨f, hf, ?_⟩⟩
    exact ⟨Nat.le_of_eq hstart, hstart ▸ start_lt_stop_of_mem_faults hf⟩
  · rintro ⟨d, hd, hlayout⟩
    obtain ⟨run, hrun⟩ := List.head?_eq_some_iff.mp hd
    obtain ⟨more, rfl, -, hblank, hends⟩ := exists_cons_of_blankRun hrun
    obtain ⟨f, hf, hle, hlt⟩ := (hfirst hrun).mpr hlayout
    have hdisjoint := disjoint_tokenize ht hf
    have hpos := (pairwise_stop_tokenize source).1 t ht
    have hstart : f.span.start = t.stop := by
      rcases hdisjoint with hbehind | hfront
      · exact Nat.le_antisymm hle hbehind
      · have hfront : f.span.stop ≤ t.offset := hfront
        omega
    refine ⟨f, hf, not_dropsLine_of_start ht hline hf hstart, hstart, d, rfl, hblank, ?_⟩
    rintro rfl
    cases hends

/-- A description with a no-break space behind it. -/
def spacedDescription : String := "2020/01/01 x\u00a0\n"

/-- The description. -/
def spacedText : Token := ⟨.text, "x", ⟨11, 1, 12⟩, none⟩

/-- The no-break space. -/
def spacedFault : ScanFault := ⟨⟨12, 1, 13⟩, 2, .unexpected .header⟩

theorem tokenize_spacedDescription : tokenize spacedDescription =
    ⟨[⟨.date, "2020/01/01", ⟨0, 1, 1⟩, none⟩, spacedText, ⟨.newline, "\n", ⟨14, 1, 14⟩, none⟩],
      [spacedFault]⟩ := by
  decide +kernel

theorem mem_tokens_spacedDescription : spacedText ∈ (tokenize spacedDescription).tokens := by
  rw [tokenize_spacedDescription]
  exact List.mem_cons_of_mem _ List.mem_cons_self

/-- The no-break space behind the description is reported in the mode of the first line of a
transaction. -/
theorem no_break_space_reported :
    ∃ t ∈ (tokenize spacedDescription).tokens, t.kind = .text ∧
      ∃ f ∈ (tokenize spacedDescription).faults, f.span.start = t.stop ∧
        f.cause = .unexpected .header ∧ f.span.slice? spacedDescription = some "\u00a0" ∧
        isBlank '\u00a0' := by
  have hfault : spacedFault ∈ (tokenize spacedDescription).faults := by
    rw [tokenize_spacedDescription]
    exact List.mem_cons_self
  exact ⟨spacedText, mem_tokens_spacedDescription, rfl, spacedFault, hfault, rfl, rfl, rfl, rfl⟩

/-- The same character by its bytes. -/
theorem reported_behind_trimmed_no_break_space :
    ∃ t ∈ (tokenize spacedDescription).tokens, t.kind.isTrimmed ∧
    ∃ before after, spacedDescription.toList = before ++ (t.image.toList ++ after) ∧
      t.offset = byteLength before ∧
      (∀ pre d post, blankRun after = pre ++ d :: post → ∀ n, t.stop + byteLength pre ≤ n →
        n < t.stop + byteLength (pre ++ [d]) →
        (¬ ∃ u ∈ (tokenize spacedDescription).tokens, u.span.Holds n) ∧
          ((∃ f ∈ (tokenize spacedDescription).faults, f.span.Holds n) ↔ isLayout d = false)) ∧
      ((∃ f ∈ (tokenize spacedDescription).faults, f.dropsLine = false ∧ f.span.start = t.stop ∧
          ∃ d ∈ after.head?, isBlank d ∧ d ≠ '\r') ↔
        ∃ d ∈ (blankRun after).head?, isLayout d = false) := by
  have hkind : spacedText.kind.isTrimmed := rfl
  exact ⟨spacedText, mem_tokens_spacedDescription, hkind,
    reported_behind_trimmed spacedDescription mem_tokens_spacedDescription hkind⟩

end

end Daybook
