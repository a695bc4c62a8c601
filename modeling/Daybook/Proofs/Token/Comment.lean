import Daybook.Proofs.Token.Dropped
import Daybook.Proofs.Token.Spelled

/-!
# Along a comment

In a comment the last token tells which mode the tokenizer is in and what may come next: behind the
name of a tag its colon, behind the colon a value or a comma, behind a value a comma, and behind all
else free text or the name of a tag. This holds as long as nothing behind the token is reported.
About the modes `InlineComment` and `TagValue` with their rules ([SPEC 11.3]).

* `Scanner.Behind s rest t`: what holds behind the token `t` of a comment.
* `Scanner.ReportsBehind s t`: a fault stands behind the token on its line.
* `Kind.goesTo kind`: the kinds that may come next.

Results:
* `Reached.behind`: **wherever the tokenizer comes in a comment, `Behind` holds or a fault is
  reported.**
* `Behind.goesTo`: what comes next is of a kind that may.
* `goesTo_tokenize`: **the tokens of a comment go on as they may** if no fault stands behind its
  sign.
-/

namespace Daybook

open Lexeme Text

/-! ## Kinds in a comment -/

namespace Kind

/-- The sign of a comment or something in it. -/
def ofComment (kind : Kind) : Bool := kind = semicolon || kind.inComment

/-- The mode behind a token of a comment. -/
def modeBehind : Kind → Mode
  | tagColon | tagValue => .tagValue
  | _ => .inlineComment

/-- The kinds that may come next in a comment or end it. -/
def goesTo : Kind → List Kind
  | tagName => [tagColon]
  | tagColon => [tagValue, tagComma, newline]
  | tagValue => [tagComma, newline]
  | _ => [inlineText, tagName, newline]

theorem ne_newline_of_ofComment {kind : Kind} (h : kind.ofComment) : kind ≠ newline := by
  rintro rfl
  cases h

theorem newline_mem_goesTo {kind : Kind} (h : kind ≠ tagName) : newline ∈ kind.goesTo := by
  cases kind <;> first | decide | exact absurd rfl h

theorem ofComment_of_mem_goesTo {kind next : Kind} (h : next ∈ kind.goesTo)
    (hline : next ≠ newline) : next.ofComment := by
  have hall : ∀ k ∈ kind.goesTo, k ≠ newline → k.ofComment := by cases kind <;> decide
  exact hall next h hline

end Kind

variable {source : String} {mode : Mode} {v : View} {kind : Kind} {found : Match} {move : Move}

/-- A token of a comment leads to its mode. -/
theorem after_eq_modeBehind (h : mode.token? v = some (kind, found, move))
    (hkind : kind.ofComment) : mode.after move = kind.modeBehind :=
  of_token? (P := fun k m => k.ofComment → mode.after m = k.modeBehind)
    (by cases mode <;> decide) (by cases mode <;> decide) h hkind

/-- The value of a tag is looked for only behind its colon. -/
theorem mode_of_tagValue (h : mode.token? v = some (.tagValue, found, move)) : mode = .tagValue :=
  of_token? (P := fun k _ => k = .tagValue → mode = .tagValue)
    (by cases mode <;> decide) (by cases mode <;> decide) h rfl

/-- The value of a tag is the free text up to a comma. -/
theorem textUpTo_of_tagValue (h : mode.token? v = some (.tagValue, found, move)) :
    v.textUpTo (· = ',') = some found := by
  rw [mode_of_tagValue h, Scanner.token?_tagValue] at h
  split at h
  · cases h
  · obtain ⟨m, hm, heq⟩ := Option.map_eq_some_iff.mp h
    cases heq
    exact hm

theorem kind_of_token?_tagValue (h : Mode.tagValue.token? v = some (kind, found, move)) :
    kind = .tagComma ∨ kind = .tagValue := by
  rw [Scanner.token?_tagValue] at h
  split at h
  · cases h
    exact .inl rfl
  · obtain ⟨_, -, heq⟩ := Option.map_eq_some_iff.mp h
    cases heq
    exact .inr rfl

theorem kind_of_token?_inlineComment (h : Mode.inlineComment.token? v = some (kind, found, move)) :
    kind = .tagName ∨ kind = .inlineText ∨ kind = .tagColon ∧ v.follows [.tagName] := by
  rw [Scanner.token?_inlineComment] at h
  split at h
  · cases h
    exact .inl rfl
  · split at h
    · next hcolon =>
      cases h
      exact .inr (.inr ⟨rfl, (Option.ite_none_right_eq_some.mp hcolon).1⟩)
    · obtain ⟨_, -, heq⟩ := Option.map_eq_some_iff.mp h
      cases heq
      exact .inr (.inl rfl)

/-! ## Free text that is used up -/

/-- There is no free text where all is blank up to a stop. -/
theorem freeRun_eq_nil_iff {isStop : Char → Bool} {cs : List Char} : freeRun isStop cs = [] ↔
    ∀ c ∈ cs.takeWhile fun c => !(endsLine c || isStop c), isBlank c := by
  refine ⟨fun h => ?_, trimEnd_eq_nil⟩
  obtain ⟨gap, hgap, hblank⟩ := trimEnd_append (cs.takeWhile fun c => !(endsLine c || isStop c))
  rw [freeRun] at h
  rw [h, List.nil_append] at hgap
  exact hgap ▸ hblank

/-- Behind free text there is no more of it. -/
theorem freeRun_drop (isStop : Char → Bool) (cs : List Char) :
    freeRun isStop (cs.drop (freeRun isStop cs).length) = [] := by
  let p := fun c => !(endsLine c || isStop c)
  obtain ⟨gap, hgap, hblank⟩ := trimEnd_append (cs.takeWhile p)
  have hall : ∀ c ∈ gap, p c := fun c hc =>
    List.mem_takeWhile_imp (hgap ▸ List.mem_append_right _ hc : c ∈ cs.takeWhile p)
  have hdrop : cs.drop (freeRun isStop cs).length = gap ++ cs.dropWhile p := by
    calc cs.drop (freeRun isStop cs).length
        = (cs.takeWhile p ++ cs.dropWhile p).drop (freeRun isStop cs).length := by
          rw [List.takeWhile_append_dropWhile]
      _ = (freeRun isStop cs ++ (gap ++ cs.dropWhile p)).drop (freeRun isStop cs).length := by
          rw [← List.append_assoc]
          exact congrArg (fun run => (run ++ cs.dropWhile p).drop _) hgap.symm
      _ = gap ++ cs.dropWhile p := List.drop_left
  rw [freeRun_eq_nil_iff, hdrop, takeWhile_stops hall head?_dropWhile]
  exact hblank

/-- Behind what is no stop there is no more of it either. -/
theorem freeRun_drop_passed {isStop : Char → Bool} {cs : List Char} (h : freeRun isStop cs = [])
    {n : Nat} (hpassed : ∀ c ∈ cs.take n, endsLine c = false ∧ isStop c = false) :
    freeRun isStop (cs.drop n) = [] := by
  have hgoes : ∀ c ∈ cs.take n, !(endsLine c || isStop c) := fun c hc => by
    simp [(hpassed c hc).1, (hpassed c hc).2]
  rw [freeRun_eq_nil_iff] at h ⊢
  intro c hc
  refine h c ?_
  rw [← List.take_append_drop n cs, List.takeWhile_append_of_pos hgoes]
  exact List.mem_append_right _ hc

namespace Scanner

variable {s : Scanner} {chars rest : List Char} {t u : Token}

/-! ## Faults behind a token -/

/-- The places of the faults found so far, the last one first. -/
def faultPlaces (s : Scanner) : List Place := s.faults.map (·.place)

/-- A fault stands behind the token on its line. -/
def ReportsBehind (s : Scanner) (t : Token) : Prop :=
  ∃ p ∈ s.faultPlaces, p.line = t.place.line ∧ t.stop ≤ p.offset

/-- A step keeps the places of faults. -/
theorem faultPlaces_step (s : Scanner) (rest : List Char) :
    s.faultPlaces <:+ (s.step rest).faultPlaces := by
  have hreport (text : List Char) (cause : ScanCause) :
      s.faultPlaces <:+ (s.report text cause).faultPlaces := List.suffix_cons _ _
  show s.faultPlaces <:+ (s.record rest (s.next rest)).faultPlaces
  cases s.next rest with
  | layout | newline | token => exact List.suffix_refl _
  | unknownLine => exact hreport _ _
  | unexpected mode =>
    obtain ⟨last, faults, hfaults, -, hmore⟩ | hmore := s.reportMore_cases (rest.take 1) mode <;>
      rw [record, hmore]
    · simp [faultPlaces, hfaults]
    · exact hreport _ _

/-- Of a place of a fault nothing is forgotten. -/
theorem Reached.mem_faultPlaces (h : Reached source.toList s rest) {p : Place}
    (hp : p ∈ s.faultPlaces) : ∃ f ∈ (tokenize source).faults, f.place = p := by
  have hrun : p ∈ (s.run rest).faultPlaces :=
    run_induction (P := fun s _ => p ∈ s.faultPlaces)
      (fun {s rest} _ hmem => (s.faultPlaces_step rest).subset hmem) hp
  rw [(reached_run h).unique (reached_run .start)] at hrun
  obtain ⟨f, hf, hplace⟩ := List.mem_map.mp hrun
  exact ⟨f, List.mem_reverse.mpr hf, hplace⟩

/-- A token and a fault do not reach into each other. -/
theorem Reached.disjoint (h : Reached chars s rest) (ht : t ∈ s.tokens) {f : ScanFault}
    (hf : f ∈ s.faults) : t.span.Disjoint f.span := by
  obtain ⟨passed, tiles, -, hlaid⟩ := exists_laid h
  have hspans := (hlaid.tiled.pairwise.imp Or.inl).perm (perm_spans tiles) Span.Disjoint.symm
  rw [hlaid.tokens, hlaid.faults] at hspans
  exact (List.pairwise_append.mp hspans).2.2 _ (List.mem_map_of_mem (List.mem_reverse.mpr ht)) _
    (List.mem_map_of_mem (List.mem_reverse.mpr hf))

/-- A token takes something. -/
theorem Reached.offset_lt_stop (h : Reached chars s rest) (ht : t ∈ s.tokens) :
    t.offset < t.stop := by
  obtain ⟨us, vs, htokens⟩ := List.append_of_mem ht
  obtain ⟨s', rest', -, hne, -, hnotes⟩ := h.exists_notes htokens
  have hpos : 0 < t.length := by
    rw [Token.length, hnotes.image]
    exact byteLength_pos (take_ne_nil (s'.next rest').taken_pos hne)
  exact Nat.lt_add_of_pos_right hpos

/-- A character that is reported stands behind the last token of the line. -/
theorem Reached.reportsBehind (h : Reached chars s rest) (ht : t ∈ s.tokens.head?)
    (hkind : t.kind ≠ .newline) (text : List Char) (mode : Mode) :
    (s.reportMore text mode).ReportsBehind t := by
  have hmem : t ∈ s.tokens := List.mem_of_mem_head? ht
  have hline : t.place.line = s.place.line := (h.inRow.last t ht hkind).1
  have hstop : t.stop ≤ s.place.offset := h.stop_le hmem
  have hnew : (s.report text (.unexpected mode)).ReportsBehind t :=
    ⟨s.place, List.mem_cons_self, hline.symm, hstop⟩
  obtain ⟨last, faults, hfaults, ⟨hends, hsame⟩, hmore⟩ | hmore := s.reportMore_cases text mode <;>
    rw [hmore]
  · -- the fault that grows ends here, so it does not stand in front of the token
    have hdisjoint := h.disjoint hmem (f := last) (by rw [hfaults]; exact List.mem_cons_self)
    have hlt := h.offset_lt_stop hmem
    refine ⟨last.place, List.mem_cons_self, hsame.trans hline.symm, ?_⟩
    rcases hdisjoint with hle | hle
    · exact hle
    · have hle' : last.stop ≤ t.offset := hle
      omega
  · exact hnew

/-! ## Behind a token -/

/-- What holds behind a token of a comment. -/
structure Behind (s : Scanner) (rest : List Char) (t : Token) : Prop where
  mode : s.modes.top = t.kind.modeBehind
  /-- Behind the name of a tag its colon stands. -/
  name : t.kind = .tagName → t.stop = s.place.offset ∧ rest.head? = some ':'
  /-- Behind the value of a tag there is no more of it. -/
  value : t.kind = .tagValue → freeRun (· = ',') rest = []

/-- Layout changes nothing. -/
theorem Behind.layout (h : s.Behind rest t) {n : Nat} (hn : 0 < n)
    (hlayout : ∀ c ∈ rest.take n, isLayout c) {s' : Scanner} (hmodes : s'.modes = s.modes) :
    s'.Behind (rest.drop n) t where
  mode := hmodes ▸ h.mode
  name hkind := by
    obtain ⟨cs, hcs⟩ := List.head?_eq_some_iff.mp (h.name hkind).2
    obtain ⟨m, rfl⟩ := Nat.exists_eq_add_one_of_ne_zero (Nat.ne_of_gt hn)
    rw [hcs, List.take_succ_cons] at hlayout
    exact absurd (hlayout ':' List.mem_cons_self) (by decide)
  value hkind := by
    refine freeRun_drop_passed (h.value hkind) fun c hc => ?_
    have hc := hlayout c hc
    simp only [isLayout, Bool.or_eq_true, decide_eq_true_eq] at hc
    rcases hc with rfl | rfl <;> exact ⟨rfl, rfl⟩

/-- A token that was just noted in a comment, or opens one. -/
theorem Notes.behind (h : s.Notes rest t) (hreached : Reached chars s rest) (hne : rest ≠ [])
    (hkind : t.kind.ofComment) : (s.step rest).Behind (rest.drop (s.next rest).taken) t := by
  have hline : t.kind ≠ .newline := Kind.ne_newline_of_ofComment hkind
  obtain ⟨found, move, hnext, -, hfound⟩ := h.exists_found hne hline
  constructor
  case mode =>
    rw [modes_step, hnext]
    show (s.modes.move move).top = _
    rw [hreached.fits.top_move (allows_token? hfound), after_eq_modeBehind hfound hkind]
  case name =>
    intro hname
    have hborders := (h.textsWith hne).2
    rw [hname] at hborders
    refine ⟨?_, hborders⟩
    rw [Token.stop, Token.offset, Token.length, h.place, h.image, place_step, Place.offset_advance]
  case value =>
    intro hvalue
    rw [hvalue] at hfound
    have hlength : found.length = (freeRun (· = ',') rest).length :=
      length_ofLength (textUpTo_of_tagValue hfound)
    rw [hnext, Event.taken, hlength]
    exact freeRun_drop _ rest

/-- **Wherever the tokenizer comes in a comment, `Behind` holds** of its last token, or a fault is
reported behind it. -/
theorem Reached.behind (h : Reached chars s rest) (ht : t ∈ s.tokens.head?)
    (hkind : t.kind.ofComment) : s.Behind rest t ∨ s.ReportsBehind t := by
  induction h with
  | start => cases ht
  | @step s rest hreached hne ih =>
    rcases s.tokens_step rest with hsame | ⟨u, hnotes⟩
    · rw [hsame] at ht
      have hline : t.kind ≠ .newline := Kind.ne_newline_of_ofComment hkind
      have hkeep (hreports : s.ReportsBehind t) : (s.step rest).ReportsBehind t := by
        obtain ⟨p, hp, htold⟩ := hreports
        exact ⟨p, (s.faultPlaces_step rest).subset hp, htold⟩
      have hcomes := comes_next (s := s) hne
      have hmodes := modes_step s rest
      unfold Scanner.step at hsame hkeep ⊢
      generalize s.next rest = e at hcomes hmodes hsame hkeep ⊢
      cases hcomes with
      | @layout n hpos hlen hlayout =>
        exact (ih ht).imp (fun hbehind => hbehind.layout hpos hlayout rfl) hkeep
      | newline | token =>
        have hlength := congrArg List.length hsame
        simp [pass, record, note] at hlength
      | unknownLine hmode =>
        refine .inr (hkeep ((ih ht).resolve_left fun hbehind => ?_))
        rw [hbehind.mode] at hmode
        generalize t.kind = kind at hmode
        cases kind <;> cases hmode
      | unexpected =>
        exact .inr (hreached.reportsBehind ht hline _ _)
    · rw [hnotes.tokens] at ht
      obtain rfl := Option.some.inj ht
      exact .inl (hnotes.behind hreached hne hkind)

/-- Behind the name of a tag its colon comes. -/
theorem Behind.next_of_tagName (h : s.Behind rest t) (ht : t ∈ s.tokens.head?)
    (hkind : t.kind = .tagName) : s.next rest = .token .tagColon Match.single (.enter .tagValue) := by
  have hmode := h.mode
  rw [hkind] at hmode
  obtain ⟨hstop, hcolon⟩ := h.name hkind
  obtain ⟨cs, rfl⟩ := List.head?_eq_some_iff.mp hcolon
  exact next_of_colon hmode ht hkind hstop cs

/-- **What comes next is of a kind that may.** -/
theorem Behind.goesTo (h : s.Behind rest t) (ht : t ∈ s.tokens.head?) (hkind : t.kind.ofComment)
    (hne : rest ≠ []) (hu : s.Notes rest u) : u.kind ∈ t.kind.goesTo := by
  by_cases hname : t.kind = .tagName
  · have hcolon := h.next_of_tagName ht hname
    rcases hu.next with ⟨⟨n, hn, hnext⟩, -⟩ | ⟨found, move, hnext, -⟩
    · cases hcolon.symm.trans hnext
    · injection hcolon.symm.trans hnext with hukind
      simp [hname, Kind.goesTo, ← hukind]
  by_cases hline : u.kind = .newline
  · rw [hline]
    exact Kind.newline_mem_goesTo hname
  obtain ⟨found, move, hfound⟩ := hu.exists_token? hne hline
  rw [h.mode] at hfound
  have hother (hmode : t.kind.modeBehind = .inlineComment) :
      u.kind = .tagName ∨ u.kind = .inlineText := by
    rw [hmode] at hfound
    rcases kind_of_token?_inlineComment hfound with hukind | hukind | ⟨-, hfollows⟩
    · exact .inl hukind
    · exact .inr hukind
    · obtain ⟨w, ws, hws, hwkind⟩ := exists_of_follows hfollows
      obtain rfl : w = t := Option.some.inj ((congrArg List.head? hws).symm.trans ht)
      exact absurd hwkind hname
  cases hcase : t.kind with
  | tagName => exact absurd hcase hname
  | tagColon =>
    rw [hcase] at hfound
    rcases kind_of_token?_tagValue hfound with hukind | hukind <;> rw [hukind] <;> decide
  | tagValue =>
    rw [hcase] at hfound
    rcases kind_of_token?_tagValue hfound with hukind | hukind
    · rw [hukind]
      decide
    · rw [hukind] at hfound
      have hnone := length_ofLength (textUpTo_of_tagValue hfound)
      rw [show freeRun (· = ',') (s.view rest).rest = [] from h.value hcase] at hnone
      exact absurd hnone (Nat.ne_of_gt found.length_pos)
  | _ =>
    rcases hother (by rw [hcase]; rfl) with hukind | hukind <;> rw [hukind] <;> simp [Kind.goesTo]

end Scanner

/-! ## The comments of a source -/

variable {pre post us : List Token} {t u : Token}

/-- Behind the last token of a comment its kind may come, if no fault stands there. -/
theorem goesTo_of_tokenize (h : (tokenize source).tokens = pre ++ t :: u :: post)
    (hkind : t.kind.ofComment)
    (hquiet : ∀ f ∈ (tokenize source).faults, f.place.line = t.place.line →
      f.place.offset < t.stop) : u.kind ∈ t.kind.goesTo := by
  have hsplit : (tokenize source).tokens = (pre ++ [t]) ++ u :: post := by rw [h]; simp
  obtain ⟨s, rest, hreached, hne, hs, hnotes⟩ := Scanner.exists_notes_of_tokenize hsplit
  have ht : t ∈ s.tokens.head? := by rw [hs]; simp
  rcases hreached.behind ht hkind with hbehind | ⟨p, hp, hline, hstop⟩
  · exact hbehind.goesTo ht hkind hne hnotes
  · obtain ⟨f, hf, rfl⟩ := hreached.mem_faultPlaces hp
    exact absurd (hquiet f hf hline) (Nat.not_lt.mpr hstop)

/-- A source does not end with the name of a tag. -/
theorem kind_ne_tagName_of_tokenize (h : (tokenize source).tokens = pre ++ [t])
    (hquiet : ∀ f ∈ (tokenize source).faults, f.place.line = t.place.line →
      f.place.offset < t.stop) : t.kind ≠ .tagName := by
  intro hkind
  have hreached : Scanner.Reached source.toList (Scanner.start.run source.toList) [] :=
    Scanner.reached_run .start
  have ht : t ∈ (Scanner.start.run source.toList).tokens.head? := by
    rw [← List.getLast?_reverse]
    exact (congrArg List.getLast? h).trans List.getLast?_concat
  rcases hreached.behind ht (by rw [hkind]; rfl) with hbehind | ⟨p, hp, hline, hstop⟩
  · cases (hbehind.name hkind).2
  · obtain ⟨f, hf, rfl⟩ := hreached.mem_faultPlaces hp
    exact absurd (hquiet f hf hline) (Nat.not_lt.mpr hstop)

/-- **The tokens of a comment go on as they may**, and the last one is not the name of a tag, if no
fault stands behind the first of them. -/
theorem goesTo_tokenize (h : (tokenize source).tokens = pre ++ t :: (us ++ post))
    (hkind : t.kind.ofComment) (hus : ∀ u ∈ us, u.kind ≠ .newline)
    (hpost : ∀ n ∈ post.head?, n.kind = .newline)
    (hquiet : ∀ f ∈ (tokenize source).faults, f.place.line = t.place.line →
      f.place.offset < t.stop) :
    (t :: us).IsChain (fun t u => u.kind ∈ t.kind.goesTo) ∧
      ∀ u ∈ (t :: us).getLast?, u.kind ≠ .tagName := by
  induction us generalizing pre t with
  | nil =>
    refine ⟨.singleton t, fun u hu => ?_⟩
    obtain rfl : t = u := Option.some.inj hu
    cases post with
    | nil => exact kind_ne_tagName_of_tokenize h hquiet
    | cons n post =>
      intro hname
      have hgoes := goesTo_of_tokenize h hkind hquiet
      rw [hpost n rfl, hname] at hgoes
      exact absurd hgoes (by decide)
  | cons u us ih =>
    obtain ⟨hline, hmore⟩ := List.forall_mem_cons.mp hus
    have hgoes : u.kind ∈ t.kind.goesTo := goesTo_of_tokenize h hkind hquiet
    have htline : t.kind ≠ .newline := Kind.ne_newline_of_ofComment hkind
    -- the next token is on the same line, and behind this one
    have hprecedes := isChain_tokenize source
    rw [h] at hprecedes
    have hsame : u.place.line = t.place.line :=
      ((List.isChain_cons.mp (List.isChain_append.mp hprecedes).2.1).1 u rfl).inLine htline |>.1
    obtain ⟨hpos, hordered⟩ := pairwise_stop_tokenize source
    rw [h] at hpos hordered
    have hupos := hpos u (by simp)
    have hafter : t.stop ≤ u.offset :=
      (List.pairwise_cons.mp (List.pairwise_append.mp hordered).2.1).1 u (by simp)
    have hsplit : (tokenize source).tokens = (pre ++ [t]) ++ u :: (us ++ post) := by rw [h]; simp
    obtain ⟨hchain, hlast⟩ := ih hsplit (Kind.ofComment_of_mem_goesTo hgoes hline) hmore
      fun f hf hfline => by
        have hlt := hquiet f hf (hfline.trans hsame)
        omega
    refine ⟨List.isChain_cons_cons.mpr ⟨hgoes, hchain⟩, ?_⟩
    rwa [List.getLast?_cons_cons]

end Daybook
