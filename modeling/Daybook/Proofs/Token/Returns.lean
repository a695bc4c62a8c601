import Daybook.Proofs.Token.Append
import Daybook.Proofs.Token.Row

/-!
# Carriage returns before line feeds

A line may end in a line feed or in a carriage return and a line feed. Which of the two is used
cannot be seen in what the tokenizer reads: if every line feed of a source gets a carriage return,
the tokens and faults are the same, only that line breaks hold one byte more and that everything
behind them stands further down. About `newline_len` ([SPEC 11.3]).

* `withReturns`: a text with a carriage return in front of every line feed.
* `Place.returned`, `Token.returned`, `ScanFault.returned`, `Event.returned`: what becomes of what
  is read in such a text.
* `Scanner.returned`: how far the tokenizer has come in it.

Results:
* `next_returned`, `step_returned`: **the two sources are read step by step alike.**
* `tokenize_withReturns`: the tokens and faults are the same, but for line breaks and offsets.
-/

namespace Daybook

open Lexeme Text

/-! ## Texts -/

/-- The text with a carriage return in front of every line feed. -/
def withReturns (cs : List Char) : List Char :=
  cs.flatMap fun c => if c = '\n' then ['\r', '\n'] else [c]

variable {cs as bs : List Char} {c : Char} {n : Nat}

theorem withReturns_append (as bs : List Char) :
    withReturns (as ++ bs) = withReturns as ++ withReturns bs := List.flatMap_append

theorem withReturns_cons_of_ne (hc : c ≠ '\n') (cs : List Char) :
    withReturns (c :: cs) = c :: withReturns cs := by
  rw [withReturns, List.flatMap_cons, if_neg hc]
  rfl

theorem withReturns_break (cs : List Char) :
    withReturns ('\n' :: cs) = '\r' :: '\n' :: withReturns cs := rfl

/-- What has no line feed stays as it is. -/
theorem withReturns_append_of_not_mem (h : '\n' ∉ as) (bs : List Char) :
    withReturns (as ++ bs) = as ++ withReturns bs := by
  induction as with
  | nil => rfl
  | cons c as ih =>
    rw [List.mem_cons, not_or] at h
    rw [List.cons_append, withReturns_cons_of_ne (Ne.symm h.1), ih h.2, List.cons_append]

theorem withReturns_of_not_mem (h : '\n' ∉ cs) : withReturns cs = cs := by
  have happend := withReturns_append_of_not_mem h []
  rwa [List.append_nil, show withReturns [] = [] from rfl, List.append_nil] at happend

theorem take_withReturns (h : '\n' ∉ cs.take n) : (withReturns cs).take n = cs.take n := by
  have happend := withReturns_append_of_not_mem h (cs.drop n)
  rw [List.take_append_drop] at happend
  rcases Nat.le_total n cs.length with hle | hle
  · have hlen : (cs.take n).length = n := List.length_take_of_le hle
    rw [happend]
    exact List.take_left' hlen
  · rw [List.take_of_length_le hle] at h
    rw [withReturns_of_not_mem h]

/-- Behind a run of characters that ends with its line. -/
theorem drop_run_withReturns {p : Char → Bool} (hp : p '\n' = false) (cs : List Char) :
    (withReturns cs).drop (cs.takeWhile p).length = withReturns (cs.dropWhile p) := by
  have hrun : '\n' ∉ cs.takeWhile p := fun hmem =>
    absurd (List.mem_takeWhile_imp hmem) (by simp [hp])
  have hsplit := withReturns_append_of_not_mem hrun (cs.dropWhile p)
  rw [List.takeWhile_append_dropWhile] at hsplit
  rw [hsplit]
  exact List.drop_left

theorem length_withReturns (cs : List Char) :
    (withReturns cs).length = cs.length + cs.count '\n' := by
  induction cs with
  | nil => rfl
  | cons c cs ih =>
    by_cases hc : c = '\n'
    · rw [hc, withReturns_break, List.length_cons, List.length_cons, ih, List.count_cons_self,
        List.length_cons]
      omega
    · rw [withReturns_cons_of_ne hc, List.length_cons, ih, List.count_cons_of_ne hc,
        List.length_cons]
      omega

theorem getLast?_withReturns (cs : List Char) : (withReturns cs).getLast? = cs.getLast? := by
  rcases List.eq_nil_or_concat cs with rfl | ⟨as, c, rfl⟩
  · rfl
  · rw [List.concat_eq_append, withReturns_append, List.getLast?_append, List.getLast?_concat]
    by_cases hc : c = '\n'
    · rw [hc]
      rfl
    · rw [withReturns_cons_of_ne hc]
      rfl

/-! ## Lexemes -/

/-- Lines end elsewhere and hold the same. -/
theorem lineRest_withReturns (h : '\r' ∉ cs) : lineRest (withReturns cs) = lineRest cs := by
  induction cs with
  | nil => rfl
  | cons c cs ih =>
    rw [List.mem_cons, not_or] at h
    by_cases hc : c = '\n'
    · rw [hc]
      rfl
    · have hends : endsLine c = false := by simp [endsLine, hc, Ne.symm h.1]
      rw [withReturns_cons_of_ne hc, lineRest_cons hends, lineRest_cons hends, ih h.2]

theorem newlineLength_withReturns (h : '\r' ∉ cs) :
    newlineLength (withReturns cs) = 2 * newlineLength cs := by
  cases cs with
  | nil => rfl
  | cons c cs =>
    rw [List.mem_cons, not_or] at h
    by_cases hc : c = '\n'
    · rw [hc]
      rfl
    · rw [withReturns_cons_of_ne hc]
      simp [newlineLength, hc, Ne.symm h.1]

/-- A line that is empty but for layout is so still. -/
theorem emptyLineLength_withReturns (h : '\r' ∉ cs) :
    emptyLineLength (withReturns cs) = emptyLineLength cs := by
  have hlayout : layoutLength (withReturns cs) = layoutLength cs :=
    ofLine_layoutLength.congr (lineRest_withReturns h)
  have hdrop : (withReturns cs).drop (layoutLength cs) = withReturns (cs.dropWhile isLayout) :=
    drop_run_withReturns rfl cs
  have hreturn : '\r' ∉ cs.dropWhile isLayout := fun hmem =>
    h ((List.dropWhile_suffix _).subset hmem)
  have hbreak := newlineLength_withReturns hreturn
  have hleft : cs.drop (layoutLength cs) = cs.dropWhile isLayout := drop_run cs
  simp only [emptyLineLength, hlayout, hdrop, hleft]
  cases hafter : cs.dropWhile isLayout with
  | nil => rfl
  | cons d after =>
    obtain ⟨e, more, he⟩ : ∃ e more, withReturns (d :: after) = e :: more := by
      by_cases hd : d = '\n'
      · subst hd
        exact ⟨_, _, withReturns_break after⟩
      · exact ⟨_, _, withReturns_cons_of_ne hd after⟩
    rw [hafter] at hbreak
    have hpos : 0 < newlineLength (withReturns (d :: after)) ↔ 0 < newlineLength (d :: after) := by
      omega
    rw [he] at hpos ⊢
    simp only [hpos]

theorem layoutLength_withReturns (mode : Mode) (h : '\r' ∉ cs) :
    mode.layoutLength (withReturns cs) = mode.layoutLength cs := by
  cases mode <;> first
    | exact emptyLineLength_withReturns h
    | rfl
    | exact ofLine_layoutLength.congr (lineRest_withReturns h)

/-! ## Places, tokens, faults and events -/

/-- The place, with one byte more for each line in front of it. -/
def Text.Place.returned (p : Place) : Place := { p with offset := p.offset + (p.line - 1) }

/-- The token in its new place; a line break gets its carriage return. -/
def Token.returned (t : Token) : Token :=
  { t with
    place := t.place.returned
    image := if t.kind = .newline then "\r\n" else t.image }

/-- The fault in its new place. -/
def ScanFault.returned (f : ScanFault) : ScanFault := { f with place := f.place.returned }

/-- The event, with line breaks of two characters. -/
def Event.returned : Event → Event
  | .layout n h => .layout n h
  | .newline n h => .newline (2 * n) (Nat.mul_pos Nat.two_pos h)
  | .token kind found move => .token kind found move
  | .unknownLine n b h => .unknownLine n (2 * b) h
  | .unexpected mode => .unexpected mode

/-- How far the tokenizer has come. -/
def Scanner.returned (s : Scanner) : Scanner where
  before := s.before
  place := s.place.returned
  modes := s.modes
  tokens := s.tokens.map Token.returned
  faults := s.faults.map ScanFault.returned

variable {p : Place} {t : Token} {f : ScanFault}

theorem Text.Place.advance_returned (hp : 0 < p.line) (cs : List Char) :
    p.returned.advance (withReturns cs) = (p.advance cs).returned := by
  induction cs generalizing p with
  | nil => rfl
  | cons c cs ih =>
    by_cases hc : c = '\n'
    · subst hc
      have hnext : (p.returned.next '\r').next '\n' = (p.next '\n').returned := by
        simp only [next, returned, reduceIte, Char.reduceEq, mk.injEq, and_self, and_true]
        have hreturn : '\r'.utf8Size = 1 := rfl
        omega
      rw [withReturns_break, advance_cons, advance_cons, advance_cons, hnext]
      exact ih (Nat.succ_pos _)
    · have hnext : p.returned.next c = (p.next c).returned := by
        simp only [next, returned, if_neg hc, mk.injEq, and_self, and_true]
        omega
      rw [withReturns_cons_of_ne hc, advance_cons, advance_cons, hnext]
      exact ih (by rw [(p.next_of_ne hc).1]; exact hp)

theorem Token.stop_returned (hkind : t.kind ≠ .newline) :
    t.returned.stop = t.stop + (t.place.line - 1) := by
  simp only [stop, offset, length, returned, Place.returned, if_neg hkind]
  omega

theorem ScanFault.stop_returned (f : ScanFault) :
    f.returned.stop = f.stop + (f.place.line - 1) := by
  simp only [stop, returned, Place.returned]
  omega

theorem unknownLine_withReturns (h : '\r' ∉ cs) :
    unknownLine (withReturns cs) = (unknownLine cs).returned := by
  have hdrop : (withReturns cs).drop (lineRest cs).length = withReturns (cs.dropWhile _) :=
    drop_run_withReturns rfl cs
  have hleft : cs.drop (lineRest cs).length = cs.dropWhile _ := drop_run cs
  have hreturn : '\r' ∉ cs.dropWhile fun c => !endsLine c := fun hmem =>
    h ((List.dropWhile_suffix _).subset hmem)
  simp only [unknownLine, lineRest_withReturns h, hdrop, hleft, newlineLength_withReturns hreturn]
  split <;> rfl

namespace Scanner

/-! ## Steps -/

variable {source : List Char} {s : Scanner} {rest text : List Char}

/-- What the rules of a mode look at is the same but for the text behind the line. -/
theorem Reached.alike_returned (hreached : Reached source s rest) (hinner : s.modes.inner ≠ []) :
    (s.returned.view rest).Alike (s.view rest) := by
  obtain ⟨last, hlast, hkind⟩ := hreached.grounded.inside hinner
  obtain ⟨hline, -⟩ := hreached.inRow.last last hlast hkind
  obtain ⟨more, htokens⟩ := List.head?_eq_some_iff.mp hlast
  refine ⟨rfl, rfl, fun kinds => ?_, ?_, ?_, ?_⟩
  · simp [View.follows, view, returned, htokens, Token.returned]
  · simp only [View.touches, view, returned, htokens, List.map_cons, List.head?_cons,
      Option.any_some, Token.stop_returned hkind, hline]
    simp [Place.returned]
  · simp only [view, returned, htokens, List.map_cons, List.getElem?_cons_succ]
    cases more <;> rfl
  · simp only [View.opener?, view, returned, List.map_map]
    rfl

/-- The mode finds the same token. -/
theorem Reached.token?_returned (hreached : Reached source s rest) (hreturn : '\r' ∉ rest) :
    s.modes.top.token? (s.returned.view (withReturns rest)) = s.modes.top.token? (s.view rest) := by
  have hline : s.modes.top.token? (s.returned.view (withReturns rest)) =
      s.modes.top.token? (s.returned.view rest) :=
    (ofLine_token? s.modes.top (s.returned.view [])).congr (lineRest_withReturns hreturn)
  rw [hline]
  by_cases hinner : s.modes.inner = []
  · rw [hreached.grounded.modes.top_eq_lineStart_iff.mpr hinner]
    exact token?_lineStart_congr rfl rfl
  · exact (hreached.alike_returned hinner).token?_eq fun htop =>
      hinner (hreached.grounded.modes.top_eq_lineStart_iff.mp htop)

/-- **The same comes next.** -/
theorem Reached.next_returned (hreached : Reached source s rest) (hreturn : '\r' ∉ rest) :
    s.returned.next (withReturns rest) = (s.next rest).returned := by
  have hmodes : s.returned.modes = s.modes := rfl
  have hlayout := layoutLength_withReturns s.modes.top hreturn
  have hbreak := newlineLength_withReturns hreturn
  have htoken := hreached.token?_returned hreturn
  have hunknown := unknownLine_withReturns hreturn
  by_cases hlay : 0 < s.modes.top.layoutLength rest
  · simp only [next, hmodes, hlayout, hlay, dif_pos, Event.returned]
  · by_cases hnew : 0 < newlineLength rest
    · have hnew' : 0 < 2 * newlineLength rest := Nat.mul_pos Nat.two_pos hnew
      simp only [next, hmodes, hlayout, hlay, hbreak, hnew, hnew', dif_pos, dif_neg,
        not_false_eq_true, Event.returned]
    · have hnew' : ¬ 0 < 2 * newlineLength rest := by omega
      simp only [next, hmodes, hlayout, hlay, hbreak, hnew, hnew', dif_neg, not_false_eq_true,
        htoken, hunknown]
      split
      · rfl
      · split <;> rfl

/-- What is taken has its carriage returns. -/
theorem length_withReturns_taken {e : Event} (h : Comes s rest e) (hreturn : '\r' ∉ rest) :
    (withReturns (rest.take e.taken)).length = e.returned.taken := by
  have hlen : (rest.take e.taken).length = e.taken := List.length_take_of_le h.taken_le
  have hplain (hline : '\n' ∉ rest.take e.taken) :
      (withReturns (rest.take e.taken)).length = e.taken := by
    rw [withReturns_of_not_mem hline, hlen]
  have hbreaks {gap tail : List Char} (hrest : rest = gap ++ tail) (hgap : IsBreak gap) :
      gap = ['\n'] := by
    refine hgap.resolve_right fun heq => hreturn ?_
    rw [hrest, heq]
    exact List.mem_cons_self
  cases h with
  | layout _ hlayout => exact hplain fun hmem => absurd (hlayout _ hmem) (by decide)
  | newline hrest hgap hn =>
    obtain rfl := hbreaks hrest hgap
    subst hrest hn
    rfl
  | token _ hfound =>
    exact hplain fun hmem => absurd ((onLine_token? hfound).endsLine_eq_false hmem) (by decide)
  | @unknownLine n b _ text gap tail _ _ hrest htext hgap hline hbreak =>
    subst hrest htext hgap
    have htake : (text ++ (gap ++ tail)).take (text.length + gap.length) = text ++ gap := by
      rw [← List.append_assoc]
      exact List.take_left' (List.length_append ..)
    rcases hbreak with rfl | hbreak
    · exact hplain (by rw [Event.taken, htake, List.append_nil]; exact hline)
    · obtain rfl : gap = ['\n'] := hbreak.resolve_right fun heq => hreturn (by simp [heq])
      rw [Event.taken, htake, length_withReturns, List.length_append, List.count_append,
        List.count_eq_zero_of_not_mem hline]
      simp only [Event.returned, Event.taken, List.length_singleton, List.count_singleton_self]
  | unexpected _ hrest hbreak =>
    subst hrest
    exact hplain fun hmem => hbreak (List.mem_singleton.mp hmem).symm

/-- A step takes the same of the two sources, and leaves the same. -/
theorem splitAt_withReturns {e : Event} (h : Comes s rest e) (hreturn : '\r' ∉ rest) :
    (withReturns rest).take e.returned.taken = withReturns (rest.take e.taken) ∧
      (withReturns rest).drop e.returned.taken = withReturns (rest.drop e.taken) := by
  have hlen := length_withReturns_taken h hreturn
  have hsplit := withReturns_append (rest.take e.taken) (rest.drop e.taken)
  rw [List.take_append_drop] at hsplit
  rw [hsplit]
  exact ⟨List.take_left' hlen, List.drop_left' hlen⟩

theorem pass_returned (hline : 0 < s.place.line) (text : List Char) :
    s.returned.pass (withReturns text) = (s.pass text).returned := by
  simp only [pass, returned, getLast?_withReturns, Place.advance_returned hline]

/-- Faults grow alike. -/
theorem reportMore_returned (text : List Char) (mode : Mode) :
    s.returned.reportMore text mode = (s.reportMore text mode).returned := by
  have hgrows : ∀ last ∈ s.faults.head?, s.returned.Grows last.returned ↔ s.Grows last := by
    intro last _
    show last.returned.stop = s.place.offset + (s.place.line - 1) ∧
      last.place.line = s.place.line ↔ _
    rw [last.stop_returned, Grows]
    omega
  have hfaults := faults_reportMore_moved s.returned (List.append_nil _).symm rfl hgrows (by simp)
    text mode
  rw [reportMore_eq s, reportMore_eq s.returned, hfaults, List.append_nil]
  rfl

theorem record_returned {e : Event} (h : Comes s rest e) (hreturn : '\r' ∉ rest) :
    s.returned.record (withReturns rest) e.returned = (s.record rest e).returned := by
  have htake := (splitAt_withReturns h hreturn).1
  cases h with
  | layout => rfl
  | @newline n _ gap tail hrest hgap hn =>
    obtain rfl : gap = ['\n'] := hgap.resolve_right fun heq => hreturn (by simp [hrest, heq])
    subst hrest hn
    rfl
  | @token kind found move _ hfound =>
    have hline : '\n' ∉ rest.take found.length := fun hmem =>
      absurd ((onLine_token? hfound).endsLine_eq_false hmem) (by decide)
    have hkind := (admits_token? hfound).kind_ne
    have htake := take_withReturns hline
    simp only [record, Event.returned, htake, returned, note, List.map_cons, Token.returned,
      if_neg hkind]
  | @unknownLine n b _ text gap tail _ _ hrest htext _ hline _ =>
    have htext : rest.take n = text := by rw [hrest, List.take_left' htext]
    have htake : (withReturns rest).take n = rest.take n := take_withReturns (htext ▸ hline)
    simp only [record, Event.returned, htake, returned, report, List.map_cons, ScanFault.returned]
  | @unexpected c tail _ hrest hbreak =>
    have hline : '\n' ∉ rest.take 1 := by
      rw [hrest]
      exact fun hmem => hbreak (List.mem_singleton.mp hmem).symm
    have htake := take_withReturns hline
    simp only [record, Event.returned, htake, reportMore_returned]

/-- **A step does the same.** -/
theorem Reached.step_returned (hreached : Reached source s rest) (hne : rest ≠ [])
    (hreturn : '\r' ∉ rest) : s.returned.step (withReturns rest) = (s.step rest).returned := by
  have hcomes := comes_next (s := s) hne
  have hline : 0 < (s.record rest (s.next rest)).place.line := by
    rw [place_record]
    exact hreached.grounded.line_pos
  unfold Scanner.step
  rw [hreached.next_returned hreturn, (splitAt_withReturns hcomes hreturn).1,
    record_returned hcomes hreturn, pass_returned hline]

/-- The same for all steps. -/
theorem Reached.run_returned (hreached : Reached source s rest) (hreturn : '\r' ∉ rest) :
    s.returned.run (withReturns rest) = (s.run rest).returned := by
  induction hn : rest.length using Nat.strongRecOn generalizing s rest with
  | ind n ih =>
    cases rest with
    | nil =>
      rw [show withReturns [] = [] from rfl, run_nil, run_nil]
    | cons c cs =>
      have hne : c :: cs ≠ [] := List.cons_ne_nil c cs
      have hpos := (s.next (c :: cs)).taken_pos
      have hcons : ∃ d ds, withReturns (c :: cs) = d :: ds := by
        refine List.exists_cons_of_ne_nil fun hnil => ?_
        have hlen := length_withReturns (c :: cs)
        rw [hnil, List.length_nil, List.length_cons] at hlen
        omega
      obtain ⟨d, ds, hd⟩ := hcons
      rw [hd, run_cons, run_cons, ← hd, hreached.next_returned hreturn,
        hreached.step_returned hne hreturn, (splitAt_withReturns (comes_next hne) hreturn).2]
      refine ih _ ?_ (hreached.step hne) (fun hmem => hreturn (List.mem_of_mem_drop hmem)) rfl
      rw [List.length_drop, ← hn, List.length_cons]
      omega

end Scanner

/-- **With carriage returns the tokens and faults are the same**, but for the line breaks themselves
and the offsets behind them. -/
theorem tokenize_withReturns {source : String} (hreturn : '\r' ∉ source.toList) :
    tokenize (String.ofList (withReturns source.toList)) =
      ⟨(tokenize source).tokens.map Token.returned,
        (tokenize source).faults.map ScanFault.returned⟩ := by
  have hrun : Scanner.start.run (withReturns source.toList) =
      (Scanner.start.run source.toList).returned := Scanner.Reached.start.run_returned hreturn
  simp only [tokenize, String.toList_ofList, hrun, Scanner.returned, List.map_reverse]

end Daybook
