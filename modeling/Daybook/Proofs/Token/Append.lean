import Daybook.Proofs.Token.Grounded

/-!
# Texts one behind the other

Behind whole lines the tokenizer goes on as at the start of a source: it reads the same tokens and
finds the same faults, only further down. The one thing that reaches across a line break is the item
that an indented line belongs to, so the text behind must not open with such a line. About
`LexSession`, whose start mode every `Newline` brings back ([SPEC 11.3]).

* `Place.behind`, `Token.behind`, `ScanFault.behind`: a source with a text put in front of it.
* `Scanner.behind`: what has been read of one text, behind what has been read of another.

Results:
* `run_append`: **whole lines are read before what stands behind them is looked at.**
* `next_behind`, `step_behind`: a step does not depend on the lines before.
* `tokenize_append`: **whole lines in front leave the tokens and faults of a text as they are.**
* `tokenize_lines_apart`: the same, and behind the whole lines the tokenizer stands outside all
  modes.
-/

namespace Daybook

open Lexeme Text

/-! ## With a text in front -/

/-- The place with a text in front of the source. -/
def Text.Place.behind (front : List Char) (p : Place) : Place :=
  ⟨byteLength front + p.offset, front.count '\n' + p.line, p.column⟩

/-- The token with a text in front of the source. -/
def Token.behind (front : List Char) (t : Token) : Token :=
  { t with place := t.place.behind front }

/-- The fault with a text in front of the source. -/
def ScanFault.behind (front : List Char) (f : ScanFault) : ScanFault :=
  { f with place := f.place.behind front }

variable {front as bs cs : List Char} {p : Place} {f : ScanFault} {t : Token}

theorem Text.Place.advance_behind (p : Place) (cs : List Char) :
    (p.behind front).advance cs = (p.advance cs).behind front := by
  induction cs generalizing p with
  | nil => rfl
  | cons c cs ih =>
    have hnext : (p.behind front).next c = (p.next c).behind front := by
      by_cases hc : c = '\n' <;> simp [Place.next, Place.behind, hc, Nat.add_assoc]
    rw [Place.advance_cons, Place.advance_cons, hnext, ih]

/-- Behind whole lines a source starts where they end. -/
theorem WholeLines.behind_start (h : WholeLines front) :
    Place.start.behind front = Place.start.advance front := by
  have hcolumn := h.column_advance
  have hline := Place.start.line_advance front
  have hoffset := Place.start.offset_advance front
  cases hplace : Place.start.advance front with
  | mk offset line column =>
    rw [hplace] at hcolumn hline hoffset
    simp only [Place.start] at hcolumn hline hoffset
    simp [Place.behind, Place.start, hcolumn, hline, hoffset, Nat.add_comm]

theorem Token.offset_behind (t : Token) : (t.behind front).offset = byteLength front + t.offset :=
  rfl

theorem Token.stop_behind (t : Token) : (t.behind front).stop = byteLength front + t.stop :=
  Nat.add_assoc ..

theorem ScanFault.stop_behind (f : ScanFault) : (f.behind front).stop = byteLength front + f.stop :=
  Nat.add_assoc ..

namespace Scanner

/-- What has been read of one text, behind what has been read of the text in front of it. -/
def behind (s : Scanner) (front : List Char) (base : Scanner) : Scanner where
  before := s.before.or base.before
  place := s.place.behind front
  modes := s.modes
  tokens := s.tokens.map (·.behind front) ++ base.tokens
  faults := s.faults.map (·.behind front) ++ base.faults

/-! ## Whole lines are read by themselves -/

theorem next_append (s : Scanner) (h : WholeLines as) (hne : as ≠ []) (bs : List Char) :
    s.next (as ++ bs) = s.next as := by
  obtain ⟨line, rfl⟩ := h.exists_eq hne
  rw [List.append_assoc]
  exact lineLocal_next s line bs

/-- A step that finds the same in a text and in front of another one does the same. -/
theorem step_of_next {s : Scanner} (hnext : s.next (as ++ bs) = s.next as)
    (hle : (s.next as).taken ≤ as.length) : s.step (as ++ bs) = s.step as := by
  have htake : ∀ n, n ≤ (s.next as).taken → (as ++ bs).take n = as.take n := fun n hn =>
    List.take_append_of_le_length (Nat.le_trans hn hle)
  unfold step
  rw [hnext, htake _ (Nat.le_refl _)]
  have hrecord : s.record (as ++ bs) (s.next as) = s.record as (s.next as) := by
    generalize s.next as = e at htake
    cases e with
    | layout => rfl
    | newline n => simp only [record, htake n (Nat.le_refl _)]
    | token kind found => simp only [record, htake found.length (Nat.le_refl _)]
    | unknownLine n b => simp only [record, htake n (Nat.le_add_right _ _)]
    | unexpected mode => simp only [record, htake 1 (Nat.le_refl _)]
  rw [hrecord]

theorem step_append (s : Scanner) (h : WholeLines as) (hne : as ≠ []) (bs : List Char) :
    s.step (as ++ bs) = s.step as :=
  step_of_next (s.next_append h hne bs) (taken_next_le hne)

/-- **Whole lines are read before what stands behind them is looked at.** -/
theorem run_append (s : Scanner) (h : WholeLines as) (bs : List Char) :
    s.run (as ++ bs) = (s.run as).run bs := by
  induction hn : as.length using Nat.strongRecOn generalizing s as with
  | ind n ih =>
    cases as with
    | nil => rw [run_nil, List.nil_append]
    | cons c cs =>
      have hne : c :: cs ≠ [] := List.cons_ne_nil c cs
      have hpos := (s.next (c :: cs)).taken_pos
      have hle := taken_next_le (s := s) hne
      have hstep := s.step_append h hne bs
      have hnext := s.next_append h hne bs
      rw [List.cons_append] at hstep hnext
      rw [List.cons_append, run_cons, run_cons, hstep, hnext, ← List.cons_append,
        List.drop_append_of_le_length hle]
      refine ih _ ?_ _ (h.drop _) rfl
      rw [List.length_drop, ← hn, List.length_cons]
      omega

end Scanner

namespace Scanner

/-- Behind whole lines the tokenizer stands as if they were all of the source. -/
theorem Reached.run_append {source : List Char} {s : Scanner} (h : Reached source s (as ++ bs))
    (hwhole : WholeLines as) : Reached source (s.run as) bs := by
  induction hn : as.length using Nat.strongRecOn generalizing s as with
  | ind n ih =>
    cases as with
    | nil => rwa [run_nil]
    | cons c cs =>
      have hne : c :: cs ≠ [] := List.cons_ne_nil c cs
      have hpos := (s.next (c :: cs)).taken_pos
      have hle := taken_next_le (s := s) hne
      have hstep := h.step (List.append_ne_nil_of_left_ne_nil hne bs)
      rw [s.step_append hwhole hne, s.next_append hwhole hne,
        List.drop_append_of_le_length hle] at hstep
      rw [run_cons]
      refine ih _ ?_ hstep (hwhole.drop _) rfl
      rw [List.length_drop, ← hn, List.length_cons]
      omega

end Scanner

/-! ## Views that the rules cannot tell apart -/

/-- Views that the rules inside a mode cannot tell apart. -/
structure View.Alike (v w : View) : Prop where
  rest : v.rest = w.rest
  opensWord : opensWord v.before = opensWord w.before
  follows : ∀ kinds, v.follows kinds = w.follows kinds
  touches : v.touches = w.touches
  second : v.history[1]?.all (·.kind ≠ .equals) = w.history[1]?.all (·.kind ≠ .equals)
  opener? : v.opener? = w.opener?

/-- Inside a mode the same token is found. -/
theorem View.Alike.token?_eq {v w : View} (h : v.Alike w) {mode : Mode}
    (hmode : mode ≠ .lineStart) :
    mode.token? v = mode.token? w := by
  refine token?_congr (fun rule hrule => ?_) (congrArg amountToken? h.rest)
  cases mode <;>
    simp only [Mode.rules, Rule.accounts, List.mem_cons, List.mem_append, List.not_mem_nil,
      or_false] at hrule
  case lineStart => exact absurd rfl hmode
  case header =>
    rcases hrule with rfl | rfl | rfl | rfl | rfl | rfl | rfl | rfl <;>
      simp only [Rule.inlineComment, Rule.after, View.sign, View.date, View.textUpTo,
        View.secondDateSign, View.secondDate, View.chequeNumber, h.rest, h.follows, h.touches,
        h.second]
  case memo =>
    rcases hrule with rfl | rfl <;>
      simp only [Rule.inlineComment, View.sign, View.textUpTo, h.rest]
  case inlineComment =>
    rcases hrule with rfl | rfl | rfl <;>
      simp only [Rule.after, View.sign, View.tagName, h.rest, h.opensWord, h.follows, h.touches]
  case tagValue =>
    rcases hrule with rfl | rfl <;> simp only [View.sign, View.textUpTo, h.rest]
  case lineComment =>
    subst hrule
    simp only [h.rest]
  case indented =>
    rcases hrule with (rfl | rfl | rfl | rfl) | rfl | rfl | rfl <;>
      simp only [Rule.inlineComment, View.sign, View.keyword, View.formatKeyword,
        View.postingStatus, View.realAccount, View.enclosedAccount, h.rest, h.follows, h.opener?]
  case amountLine =>
    subst hrule
    simp only [Rule.inlineComment, View.sign, h.rest]
  case priceDirective =>
    rcases hrule with rfl | rfl <;>
      simp only [Rule.after, Rule.inlineComment, View.sign, View.date, h.rest, h.follows]
  case accountDirective =>
    rcases hrule with rfl | rfl | rfl | rfl <;>
      simp only [Rule.inlineComment, View.sign, View.realAccount, View.enclosedAccount, h.rest]

/-- At the start of a line only the rest of the source counts. -/
theorem token?_lineStart_congr {v w : View} (hrest : v.rest = w.rest)
    (hstart : v.atLineStart = w.atLineStart) :
    Mode.lineStart.token? v = Mode.lineStart.token? w := by
  refine token?_congr (fun rule hrule => ?_) (congrArg amountToken? hrest)
  simp only [Mode.rules, List.mem_cons, List.not_mem_nil, or_false] at hrule
  rcases hrule with rfl | rfl | rfl | rfl | rfl | rfl | rfl <;>
    simp only [Rule.atLineStart, View.date, View.keyword, View.sign, hrest, hstart]

namespace Scanner

/-! ## A step does not depend on the lines before -/

/-- What has been read of the whole lines in front. -/
structure IsBase (front : List Char) (base : Scanner) : Prop where
  fresh : base.Fresh
  place : base.place = Place.start.behind front
  /-- Their last token is a line break. -/
  last : ∀ t ∈ base.tokens.head?, t.kind = .newline

variable {s base : Scanner} {rest : List Char}

theorem isBase_run_start (h : WholeLines front) : IsBase front (start.run front) where
  fresh := fresh_run_start h
  place := by
    have hreached : Reached front (start.run front) [] := reached_run .start
    obtain ⟨passed, hpassed, hplace, -⟩ := exists_passed hreached
    rw [List.append_nil] at hpassed
    rw [hplace, hpassed, h.behind_start]
  last := grounded_start.run.outside (congrArg ModeStack.inner (fresh_run_start h).modes)

/-- Behind the lines in front a source starts. -/
theorem IsBase.behind_start (h : IsBase front base) : start.behind front base = base := by
  have hmodes := h.fresh.modes
  have hplace := h.place
  cases base
  simp_all [behind, start]

theorem IsBase.atLineStart (h : IsBase front base) (s : Scanner) (rest : List Char) :
    ((s.behind front base).view rest).atLineStart = (s.view rest).atLineStart := by
  have hbefore := h.fresh.before
  unfold View.atLineStart view behind
  cases hs : s.before with
  | some c => rfl
  | none =>
    cases hb : base.before with
    | none => rfl
    | some c => simpa using hbefore c hb

theorem IsBase.opensWord (h : IsBase front base) (s : Scanner) (rest : List Char) :
    opensWord ((s.behind front base).view rest).before = opensWord (s.view rest).before := by
  have hbefore := h.fresh.before
  unfold view behind
  cases hs : s.before with
  | some c => rfl
  | none =>
    cases hb : base.before with
    | none => rfl
    | some c =>
      obtain rfl := hbefore c hb
      rfl

/-- Inside a mode an item has been opened, by a line that is not indented. -/
theorem Grounded.exists_opens (hs : s.Grounded) (hinner : s.modes.inner ≠ [])
    (hopened : ∀ t ∈ s.opened?, t.kind ≠ .indent) : ∃ t ∈ s.tokens, t.kind.opensItem := by
  obtain ⟨last, hlast, hkind⟩ := hs.inside hinner
  cases hfirst : s.opened? with
  | none =>
    have hall := List.find?_eq_none.mp hfirst last
      (List.mem_reverse.mpr (List.mem_of_mem_head? hlast))
    simp [hkind] at hall
  | some t =>
    refine ⟨t, List.mem_reverse.mp (List.mem_of_find?_eq_some hfirst), ?_⟩
    rcases hs.opening t hfirst with hopens | hindent
    · exact hopens
    · exact absurd hindent (hopened t hfirst)

/-- **Inside a mode the lines in front cannot be seen.** -/
theorem IsBase.alike (h : IsBase front base) (hs : s.Grounded) (hinner : s.modes.inner ≠ [])
    (hopened : ∀ t ∈ s.opened?, t.kind ≠ .indent) (rest : List Char) :
    ((s.behind front base).view rest).Alike (s.view rest) := by
  obtain ⟨last, hlast, hkind⟩ := hs.inside hinner
  obtain ⟨more, htokens⟩ := List.head?_eq_some_iff.mp hlast
  refine ⟨rfl, h.opensWord s rest, fun kinds => ?_, ?_, ?_, ?_⟩
  · simp [View.follows, view, behind, htokens, Token.behind]
  · simp only [View.touches, view, behind, htokens, List.map_cons, List.cons_append,
      List.head?_cons, Option.any_some, Token.stop_behind]
    simp [Place.behind]
  · simp only [view, behind, htokens, List.map_cons, List.cons_append, List.getElem?_cons_succ]
    cases more with
    | cons u us => rfl
    | nil =>
      cases hb : base.tokens with
      | nil => rfl
      | cons u us =>
        have hu := h.last u (by rw [hb]; rfl)
        simp [hu]
  · obtain ⟨t, ht, hopens⟩ := hs.exists_opens hinner hopened
    have hkinds : (s.tokens.map (·.behind front)).map (·.kind) = s.tokens.map (·.kind) := by
      rw [List.map_map]
      rfl
    have hsome : ((s.tokens.map (·.kind)).find? Kind.opensItem).isSome :=
      List.find?_isSome.mpr ⟨t.kind, List.mem_map_of_mem ht, hopens⟩
    obtain ⟨kind, hfound⟩ := Option.isSome_iff_exists.mp hsome
    simp only [View.opener?, view, behind, List.map_append, hkinds, List.find?_append, hfound]
    rfl

/-- The mode finds the same token behind the lines in front. -/
theorem IsBase.token?_behind (h : IsBase front base) (hs : s.Grounded)
    (hopened : ∀ t ∈ s.opened?, t.kind ≠ .indent) (rest : List Char) :
    s.modes.top.token? ((s.behind front base).view rest) = s.modes.top.token? (s.view rest) := by
  by_cases hinner : s.modes.inner = []
  · rw [hs.modes.top_eq_lineStart_iff.mpr hinner]
    exact token?_lineStart_congr rfl (h.atLineStart s rest)
  · exact (h.alike hs hinner hopened rest).token?_eq fun htop =>
      hinner (hs.modes.top_eq_lineStart_iff.mp htop)

theorem IsBase.next_behind (h : IsBase front base) (hs : s.Grounded)
    (hopened : ∀ t ∈ s.opened?, t.kind ≠ .indent) (rest : List Char) :
    (s.behind front base).next rest = s.next rest := by
  have htoken := h.token?_behind hs hopened rest
  have hmodes : (s.behind front base).modes = s.modes := rfl
  simp only [next, hmodes, htoken]

theorem pass_behind (text : List Char) :
    (s.behind front base).pass text = (s.pass text).behind front base := by
  simp only [pass, behind, Place.advance_behind, Option.or_assoc]

/-- Faults grow alike, and a fault of the lines in front does not grow. -/
theorem IsBase.reportMore_behind (h : IsBase front base) (hs : s.Grounded) (text : List Char)
    (mode : Mode) :
    (s.behind front base).reportMore text mode = (s.reportMore text mode).behind front base := by
  have hgrows : ∀ last ∈ s.faults.head?,
      (s.behind front base).Grows (last.behind front) ↔ s.Grows last := fun last _ =>
    and_congr (last.stop_behind ▸ Nat.add_left_cancel_iff) Nat.add_left_cancel_iff
  have hbase : ∀ last ∈ base.faults.head?, ¬ (s.behind front base).Grows last := by
    rintro last hlast ⟨-, hline⟩
    have hlt := h.fresh.line_lt last (List.mem_of_mem_head? hlast)
    have hpos := hs.line_pos
    simp only [h.place, behind, Place.behind, Place.start] at hlt hline
    omega
  have hfaults := faults_reportMore_moved (s.behind front base) rfl rfl hgrows hbase text mode
  rw [reportMore_eq s, reportMore_eq (s.behind front base), hfaults]
  rfl

theorem IsBase.record_behind (h : IsBase front base) (hs : s.Grounded) (rest : List Char)
    (e : Event) :
    (s.behind front base).record rest e = (s.record rest e).behind front base := by
  cases e with
  | unexpected mode => exact h.reportMore_behind hs _ mode
  | _ => rfl

/-- **A step does not depend on the lines in front.** -/
theorem IsBase.step_behind (h : IsBase front base) (hs : s.Grounded)
    (hopened : ∀ t ∈ s.opened?, t.kind ≠ .indent) (rest : List Char) :
    (s.behind front base).step rest = (s.step rest).behind front base := by
  simp only [step, h.next_behind hs hopened rest, h.record_behind hs, pass_behind]

/-- The same for all steps. -/
theorem IsBase.run_behind (h : IsBase front base) (hs : s.Grounded)
    (hopened : ∀ t ∈ (s.run rest).opened?, t.kind ≠ .indent) :
    (s.behind front base).run rest = (s.run rest).behind front base := by
  induction hn : rest.length using Nat.strongRecOn generalizing s rest with
  | ind n ih =>
    cases rest with
    | nil => rw [run_nil, run_nil]
    | cons c cs =>
      have hnow : ∀ t ∈ s.opened?, t.kind ≠ .indent := fun t ht => hopened t (opened?_run ht)
      have hpos := (s.next (c :: cs)).taken_pos
      rw [run_cons] at hopened
      rw [run_cons, run_cons, h.next_behind hs hnow, h.step_behind hs hnow]
      refine ih _ ?_ (hs.step (List.cons_ne_nil c cs)) hopened rfl
      rw [List.length_drop, ← hn, List.length_cons]
      omega

end Scanner

/-! ## Token streams -/

/-- The first token of a source that is no line break; it tells whether the source opens with an
indented line. -/
def TokenStream.opened? (stream : TokenStream) : Option Token :=
  stream.tokens.find? (·.kind ≠ .newline)

/-- **Whole lines in front leave the tokens and faults of a text as they are**, if the text does not
open with an indented line. -/
theorem tokenize_append {a b : String} (ha : WholeLines a.toList)
    (hb : ∀ t ∈ (tokenize b).opened?, t.kind ≠ .indent) :
    tokenize (a ++ b) = ⟨(tokenize a).tokens ++ (tokenize b).tokens.map (·.behind a.toList),
      (tokenize a).faults ++ (tokenize b).faults.map (·.behind a.toList)⟩ := by
  have hbase := Scanner.isBase_run_start ha
  have hrun : Scanner.start.run (a ++ b).toList =
      (Scanner.start.run b.toList).behind a.toList (Scanner.start.run a.toList) := by
    calc Scanner.start.run (a ++ b).toList
        = (Scanner.start.run a.toList).run b.toList := by
          rw [String.toList_append, Scanner.run_append _ ha]
      _ = (Scanner.start.behind a.toList (Scanner.start.run a.toList)).run b.toList := by
          rw [hbase.behind_start]
      _ = (Scanner.start.run b.toList).behind a.toList (Scanner.start.run a.toList) :=
          hbase.run_behind Scanner.grounded_start hb
  simp only [tokenize, hrun, Scanner.behind, List.reverse_append, List.map_reverse]

/-- **Lines are read apart.** Behind whole lines the tokenizer stands outside all modes, whatever
the last of them holds. If the text behind them does not open with an indented line, its tokens and
faults are its own, moved behind those lines: offsets by their bytes and lines by their line feeds.
-/
theorem tokenize_lines_apart {a : String} (ha : WholeLines a.toList) (b : String) :
    (∃ s, Scanner.Reached (a ++ b).toList s b.toList ∧ s.modes = .start ∧
      s.place = Place.start.behind a.toList ∧ s.tokens.reverse = (tokenize a).tokens) ∧
    ((∀ t ∈ (tokenize b).opened?, t.kind ≠ .indent) →
      (tokenize (a ++ b)).tokens =
        (tokenize a).tokens ++ (tokenize b).tokens.map (·.behind a.toList) ∧
      (tokenize (a ++ b)).faults =
        (tokenize a).faults ++ (tokenize b).faults.map (·.behind a.toList)) := by
  have hbase := Scanner.isBase_run_start ha
  have hreached : Scanner.Reached (a ++ b).toList .start (a.toList ++ b.toList) := by
    rw [String.toList_append]
    exact .start
  refine ⟨⟨_, hreached.run_append ha, hbase.fresh.modes, hbase.place, rfl⟩, fun hb => ?_⟩
  rw [tokenize_append ha hb]
  exact ⟨rfl, rfl⟩

/-- An open comment and an unclosed quote end with their line. -/
theorem tokenize_lines_apart_quote :
    WholeLines "D 1 \"; a: b\n".toList ∧ (∀ t ∈ (tokenize "P \n").opened?, t.kind ≠ .indent) ∧
    (tokenize ("D 1 \"; a: b\n" ++ "P \n")).tokens =
      (tokenize "D 1 \"; a: b\n").tokens ++
        [⟨.priceKeyword, "P", ⟨12, 2, 1⟩, none⟩, ⟨.newline, "\n", ⟨14, 2, 3⟩, none⟩] := by
  have ha : WholeLines "D 1 \"; a: b\n".toList := by decide
  have hb : ∀ t ∈ (tokenize "P \n").opened?, t.kind ≠ .indent := by decide +kernel
  have htokens : (tokenize "P \n").tokens.map (·.behind "D 1 \"; a: b\n".toList) =
      [⟨.priceKeyword, "P", ⟨12, 2, 1⟩, none⟩, ⟨.newline, "\n", ⟨14, 2, 3⟩, none⟩] := by
    decide +kernel
  exact ⟨ha, hb, htokens ▸ ((tokenize_lines_apart ha "P \n").2 hb).1⟩

/-- Whole lines end in a line break token, if they hold a token at all. -/
theorem kind_getLast?_tokenize {a : String} (ha : WholeLines a.toList) :
    ∀ t ∈ (tokenize a).tokens.getLast?, t.kind = .newline := by
  intro t ht
  rw [tokenize, List.getLast?_reverse] at ht
  exact (Scanner.isBase_run_start ha).last t ht

end Daybook
