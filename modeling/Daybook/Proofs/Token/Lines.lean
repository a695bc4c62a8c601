import Daybook.Proofs.Token.Standing
import Mathlib.Data.List.SplitBy

/-!
# The lines of a source

Behind each line break the tokens of a source are cut into rows, one for each line that has tokens.
The first token of a row tells what the line is, and what can stand behind it depends on the tokens
in front. About the tokens of a whole source, and what their lines are for the grammar ([SPEC
11.3]).

* `Token.DateDue before t`: behind these tokens of its line a date is due.
* `Token.Fits before t`: what a token says of those in front of it on its line.
* `TokenStream.rows stream`: the tokens, line by line.
* `SoundRow row`: what holds of the tokens of a line.

Results:
* `pairwise_line_tokenize`: lines do not decrease, and a line break ends its line.
* `fits_tokenize`: every token fits those in front of it on its line.
* `rows_tokenize`: **each line of a source has its own row, and the row is sound.**
-/

namespace Daybook

open Lexeme Text

variable {source : String} {row before pre post ts : List Token} {t : Token}

/-- Behind these tokens of its line a date is due: it opens the line, or it stands right behind the
sign right behind the date that opens the line, or behind `P`. -/
def Token.DateDue (before : List Token) (t : Token) : Prop :=
  before = [] ∨
  (∃ d e, before = [d, e] ∧ d.kind = .date ∧ e.kind = .equals ∧ d.stop = e.offset ∧
    e.stop = t.offset) ∨
  ∃ p ∈ before.getLast?, p.kind = .priceKeyword

/-- What a token says of those in front of it on its line. -/
structure Token.Fits (before : List Token) (t : Token) : Prop where
  date : t.kind = .date → t.DateDue before
  /-- In a comment stands what stands nowhere else. -/
  comment : t.kind ≠ .newline → (t.kind.inComment ↔ ∃ u ∈ before, u.kind = .semicolon)
  pipe : t.kind = .pipe → ∀ u ∈ before, u.kind ≠ .pipe

/-! ## Dates -/

/-- In the line of a transaction `=` stands only behind a date, and not behind a second one. -/
theorem due_of_equals {mode : Mode} {v : View} {found : Match} {move : Move} (hmode : mode.inDated)
    (h : mode.token? v = some (.equals, found, move)) :
    v.follows [.date] ∧ v.touches ∧ v.history[1]?.all (·.kind ≠ .equals) := by
  rcases token?_cases h with ⟨rule, hrule, hfound, hkind, -⟩ | ⟨hreads, -, -⟩
  · cases mode <;> first | exact absurd hmode (by decide) | simp only [Mode.rules] at hrule
    case header =>
      have hsign : rule = ⟨.equals, View.secondDateSign, .stay⟩ := by
        simp only [List.mem_cons, List.not_mem_nil, or_false] at hrule
        rcases hrule with rfl | rfl | rfl | rfl | rfl | rfl | rfl | rfl
        · rfl
        all_goals exact absurd hkind (by decide)
      rw [hsign] at hfound
      have hdue := (Option.ite_none_right_eq_some.mp hfound).1
      simp only [Bool.and_eq_true] at hdue
      exact ⟨hdue.1.1, hdue.1.2, hdue.2⟩
    all_goals
      simp only [List.mem_cons, List.not_mem_nil, or_false] at hrule
      rcases hrule with rfl | rfl | rfl <;> exact absurd hkind (by decide)
  · exact absurd hreads (by cases mode <;> first | decide | exact absurd hmode (by decide))

theorem exists_of_follows {v : View} {kind : Kind} (h : v.follows [kind]) :
    ∃ u us, v.history = u :: us ∧ u.kind = kind := by
  unfold View.follows at h
  cases hhistory : v.history with
  | nil => simp [hhistory] at h
  | cons u us => exact ⟨u, us, rfl, by simpa [hhistory] using h⟩

theorem stop_eq_of_touches {v : View} {u : Token} {us : List Token} (h : v.touches)
    (hus : v.history = u :: us) : u.stop = v.offset := by
  simpa [View.touches, hus] using h

namespace Scanner

variable {s : Scanner} {source rest : List Char}

/-- In a line that a date opens, `=` stands right behind this date. -/
theorem Reached.line_of_equals (hreached : Reached source s rest) (hne : rest ≠ [])
    (h : s.Notes rest t) (hkind : t.kind = .equals) {d : Token}
    (hd : d ∈ (lineOf s.tokens).head?) (hdate : d.kind = .date) :
    lineOf s.tokens = [d] ∧ d.stop = t.offset := by
  have hmode := hreached.fits.dated d hd hdate
  obtain ⟨found, move, hfound⟩ := h.exists_token? hne (by rw [hkind]; decide)
  rw [hkind] at hfound
  obtain ⟨hfollows, htouches, hfirst⟩ := due_of_equals hmode hfound
  obtain ⟨u, us, hus, hu⟩ := exists_of_follows hfollows
  have hstop : u.stop = t.offset := by
    rw [stop_eq_of_touches htouches hus, Token.offset, h.place]
    rfl
  have htokens : s.tokens = u :: us := hus
  have hline : lineOf s.tokens = lineOf us ++ [u] := by
    rw [htokens, lineOf_cons (by rw [hu]; decide)]
  -- a date behind other tokens of the line would stand behind `=`, or on another line
  suffices hnil : lineOf us = [] by
    rw [hline, hnil] at hd
    obtain rfl := Option.some.inj hd
    exact ⟨by rw [hline, hnil]; rfl, hstop⟩
  by_contra hmore
  obtain ⟨s', rest', hreached', hne', hus', hnotes⟩ :=
    hreached.exists_notes (show s.tokens = [] ++ u :: us from htokens)
  have hd' : d ∈ (lineOf s'.tokens).head? := by
    rw [hline, List.head?_append_of_ne_nil _ hmore] at hd
    rwa [hus']
  have hmode' := hreached'.fits.dated d hd' hdate
  obtain ⟨found', move', hfound'⟩ := hnotes.exists_token? hne' (by rw [hu]; decide)
  have hstart : s'.modes.top ≠ .lineStart := by
    rw [ne_eq, hreached'.grounded.top_eq_lineStart_iff, hus']
    exact hmore
  rcases ((kind_of_token?_inner hstart hfound').2 (by rw [hu]; rfl)).2 with
    ⟨-, hequals, -⟩ | ⟨hprice, -⟩
  · obtain ⟨e, es, hes, he⟩ := exists_of_follows hequals
    have htokens' : us = e :: es := hus'.symm.trans hes
    simp [hus, htokens', he] at hfirst
  · rw [hprice] at hmode'
    exact absurd hmode' (by decide)

/-- A date is noted only where one is due. -/
theorem Reached.dateDue (hreached : Reached source s rest) (hne : rest ≠ [])
    (h : s.Notes rest t) (hkind : t.kind = .date) : t.DateDue (lineOf s.tokens) := by
  by_cases hnil : lineOf s.tokens = []
  · exact .inl hnil
  have hstart : s.modes.top ≠ .lineStart := by
    rwa [ne_eq, hreached.grounded.top_eq_lineStart_iff]
  obtain ⟨found, move, hfound⟩ := h.exists_token? hne (by rw [hkind]; decide)
  rcases ((kind_of_token?_inner hstart hfound).2 (by rw [hkind]; rfl)).2 with
    ⟨hheader, hequals, htouches⟩ | ⟨-, hprice⟩
  · obtain ⟨e, us, hus, he⟩ := exists_of_follows hequals
    have htokens : s.tokens = e :: us := hus
    have hstop : e.stop = t.offset := by
      rw [stop_eq_of_touches htouches hus, Token.offset, h.place]
      rfl
    have hline : lineOf s.tokens = lineOf us ++ [e] := by
      rw [htokens, lineOf_cons (by rw [he]; decide)]
    obtain ⟨d, hd, hdate⟩ := hreached.fits.header hheader
    obtain ⟨s', rest', hreached', hne', hus', hnotes⟩ :=
      hreached.exists_notes (show s.tokens = [] ++ e :: us from htokens)
    have hd' : d ∈ (lineOf s'.tokens).head? := by
      rw [hus']
      rw [hline] at hd
      cases hmore : lineOf us with
      | nil =>
        rw [hmore] at hd
        obtain rfl := Option.some.inj hd
        rw [hdate] at he
        exact absurd he (by decide)
      | cons v vs =>
        rw [hmore] at hd
        exact hd
    obtain ⟨hfirst, hadjacent⟩ := hreached'.line_of_equals hne' hnotes he hd' hdate
    rw [hus'] at hfirst
    exact .inr (.inl ⟨d, e, by rw [hline, hfirst]; rfl, hdate, he, hadjacent, hstop⟩)
  · obtain ⟨p, us, hus, hp⟩ := exists_of_follows hprice
    refine .inr (.inr ⟨p, getLast?_lineOf ?_ (by rw [hp]; decide), hp⟩)
    show s.tokens.head? = some p
    rw [show s.tokens = p :: us from hus]
    rfl

/-- **What is noted fits the line.** -/
theorem Reached.fits_line (hreached : Reached source s rest) (hne : rest ≠ [])
    (h : s.Notes rest t) : t.Fits (lineOf s.tokens) where
  date := hreached.dateDue hne h
  comment hkind := by
    obtain ⟨found, move, hfound⟩ := h.exists_token? hne hkind
    rw [(allows_token? hfound).inComment, hreached.fits.comment]
  pipe hkind := by
    obtain ⟨found, move, hfound⟩ := h.exists_token? hne (by rw [hkind]; decide)
    exact hreached.fits.pipe ((allows_token? hfound).pipe hkind).1

/-! ## Lines follow one another -/

/-- Of two tokens the second is not on an earlier line, and on a later one if the first is a line
break. -/
def LineLe (t u : Token) : Prop :=
  t.place.line ≤ u.place.line ∧ (t.kind = .newline → t.place.line < u.place.line)

/-- The tokens do not lie ahead, and a line break lies on a line before. -/
theorem Reached.line_le (h : Reached source s rest) : s.tokens.Pairwise (fun u t => LineLe t u) ∧
    ∀ t ∈ s.tokens, t.place.line ≤ s.place.line ∧
      (t.kind = .newline → t.place.line < s.place.line) := by
  induction h with
  | start => exact ⟨.nil, by simp [Scanner.start]⟩
  | @step s rest hreached hne ih =>
    obtain ⟨hpairwise, hplace⟩ := ih
    have hle : s.place.line ≤ (s.step rest).place.line := by
      rw [s.place_step]
      exact s.place.line_le_advance _
    have hold : ∀ t ∈ s.tokens, t.place.line ≤ (s.step rest).place.line ∧
        (t.kind = .newline → t.place.line < (s.step rest).place.line) := fun t ht =>
      ⟨Nat.le_trans (hplace t ht).1 hle,
        fun hkind => Nat.lt_of_lt_of_le ((hplace t ht).2 hkind) hle⟩
    rcases s.tokens_step rest with hsame | ⟨t, hnotes⟩
    · rw [hsame]
      exact ⟨hpairwise, hold⟩
    · rw [hnotes.tokens]
      refine ⟨List.pairwise_cons.mpr ⟨fun u hu => ?_, hpairwise⟩,
        List.forall_mem_cons.mpr ⟨⟨?_, fun hkind => ?_⟩, hold⟩⟩
      · rw [LineLe, hnotes.place]
        exact hplace u hu
      · rwa [hnotes.place]
      · have hfeed := List.mem_of_getLast? (hnotes.getLast?_of_newline hne hkind)
        have hcount := List.count_pos_iff.mpr hfeed
        rw [hnotes.place, s.place_step, Text.Place.line_advance]
        exact Nat.lt_add_of_pos_right hcount

end Scanner

/-- **Lines do not decrease**, and a line break ends its line. -/
theorem pairwise_line_tokenize (source : String) : (tokenize source).tokens.Pairwise fun t u =>
    t.place.line ≤ u.place.line ∧ (t.kind = .newline → t.place.line < u.place.line) :=
  List.pairwise_reverse.mpr (Scanner.reached_run .start).line_le.1

/-! ## Rows -/

/-- The tokens, cut behind each line break. -/
def TokenStream.rows (stream : TokenStream) : List (List Token) :=
  stream.tokens.splitBy fun t _ => t.kind ≠ .newline

theorem flatten_rows (stream : TokenStream) : stream.rows.flatten = stream.tokens :=
  List.flatten_splitBy _ _

/-- The first of two tokens does not end its line. -/
def GoesOn (t _ : Token) : Prop := t.kind ≠ .newline

/-- The first of two rows ends with a line break. -/
def BreaksOff (row _ : List Token) : Prop := ∀ t ∈ row.getLast?, t.kind = .newline

instance : Trans GoesOn GoesOn GoesOn := ⟨fun h _ => h⟩

instance : Trans BreaksOff BreaksOff BreaksOff := ⟨fun h _ => h⟩

/-- A line break ends its row. -/
theorem pairwise_of_mem_rows {stream : TokenStream} (h : row ∈ stream.rows) :
    row.Pairwise GoesOn := by
  refine List.isChain_iff_pairwise.mp ((List.isChain_of_mem_splitBy h).imp fun t _ hkind => ?_)
  have hgoes : t.kind ≠ .newline := by simpa using hkind
  exact hgoes

/-- A row that another one follows ends with a line break. -/
theorem pairwise_rows (stream : TokenStream) : stream.rows.Pairwise BreaksOff := by
  refine List.isChain_iff_pairwise.mp ((List.isChain_getLast_head_splitBy _ _).imp ?_)
  rintro row _ ⟨hne, -, hkind⟩ t ht
  rw [List.getLast?_eq_some_getLast hne] at ht
  obtain rfl := Option.some.inj ht
  simpa using hkind

/-- A row stands behind whole lines. -/
theorem exists_of_mem_rows {stream : TokenStream} (h : row ∈ stream.rows) : ∃ pre post,
    stream.tokens = pre ++ (row ++ post) ∧ ∀ t ∈ pre.getLast?, t.kind = .newline := by
  obtain ⟨as, bs, hrows⟩ := List.append_of_mem h
  have hpairwise := pairwise_rows stream
  rw [hrows] at hpairwise
  refine ⟨as.flatten, bs.flatten, ?_, fun t ht => ?_⟩
  · rw [← flatten_rows, hrows, List.flatten_append, List.flatten_cons]
  · rw [List.getLast?_flatten] at ht
    obtain ⟨a, ha, hlast⟩ := List.exists_of_findSome?_eq_some ht
    exact (List.pairwise_append.mp hpairwise).2.2 a (List.mem_reverse.mp ha) row
      List.mem_cons_self t hlast

/-- Behind whole lines these are the tokens of the line. -/
theorem lineOf_reverse (hpre : ∀ t ∈ pre.getLast?, t.kind = .newline)
    (hbefore : ∀ t ∈ before, t.kind ≠ .newline) :
    lineOf (before.reverse ++ pre.reverse) = before := by
  have hstop : pre.reverse.takeWhile (fun t => decide (t.kind ≠ .newline)) = [] := by
    cases hreverse : pre.reverse with
    | nil => rfl
    | cons n ns =>
      have hn : n.kind = .newline := hpre n (by rw [← List.head?_reverse, hreverse]; rfl)
      exact List.takeWhile_cons_of_neg (by simp [hn])
  unfold lineOf
  rw [List.takeWhile_append_of_pos (fun t ht => by simpa using hbefore t (List.mem_reverse.mp ht)),
    hstop, List.append_nil, List.reverse_reverse]

/-- **Every token fits those in front of it on its line.** -/
theorem fits_tokenize (hpre : ∀ t ∈ pre.getLast?, t.kind = .newline)
    (hbefore : ∀ t ∈ before, t.kind ≠ .newline)
    (h : (tokenize source).tokens = pre ++ (before ++ t :: post)) : t.Fits before := by
  rw [← List.append_assoc] at h
  obtain ⟨s, rest, hreached, hne, hs, hnotes⟩ := Scanner.exists_notes_of_tokenize h
  have hfits := hreached.fits_line hne hnotes
  rwa [hs, List.reverse_append, lineOf_reverse hpre hbefore] at hfits

/-! ## The lines of a source -/

/-- What holds of the tokens of a line. -/
structure SoundRow (row : List Token) : Prop where
  /-- Only the last one can be a line break. -/
  goesOn : ∀ t ∈ row.dropLast, t.kind ≠ .newline
  /-- They are on one line. -/
  line : ∀ t ∈ row, ∀ u ∈ row, t.place.line = u.place.line
  /-- The first one tells what the line is. -/
  first : ∀ t ∈ row.head?, t.kind = .newline ∨ t.place.column = 1 ∧
    t.kind ∈ [.date, .priceKeyword, .accountKeyword, .commodityKeyword, .defaultKeyword, .indent,
      .commentMarker]
  later : ∀ t ∈ row.tail, t.kind ∉
    [.priceKeyword, .accountKeyword, .commodityKeyword, .defaultKeyword, .indent, .commentMarker]
  date : ∀ before t, before ++ [t] <+: row → t.kind = .date → t.DateDue before
  /-- There is one comment at most. -/
  semicolon : ∀ before t, before ++ [t] <+: row → t.kind = .semicolon →
    ∀ u ∈ before, u.kind ≠ .semicolon
  /-- There is one bar at most. -/
  pipe : ∀ before t, before ++ [t] <+: row → t.kind = .pipe → ∀ u ∈ before, u.kind ≠ .pipe
  /-- A comment goes on to the end of the line. -/
  comment : ∀ before t, before ++ [t] <+: row → (∃ u ∈ before, u.kind = .semicolon) →
    t.kind ∈ [.inlineText, .tagName, .tagColon, .tagValue, .tagComma, .newline]
  /-- What stands in a comment stands nowhere else. -/
  inComment : ∀ before t, before ++ [t] <+: row →
    t.kind ∈ [.inlineText, .tagName, .tagColon, .tagValue, .tagComma] →
    ∃ u ∈ before, u.kind = .semicolon

theorem opensItem_or_indent_iff {kind : Kind} : kind.opensItem ∨ kind = .indent ↔
    kind ∈ [.date, .priceKeyword, .accountKeyword, .commodityKeyword, .defaultKeyword, .indent,
      .commentMarker] := by
  cases kind <;> decide

theorem inComment_iff_mem {kind : Kind} :
    kind.inComment ↔ kind ∈ [.inlineText, .tagName, .tagColon, .tagValue, .tagComma] := by
  cases kind <;> decide

theorem kind_of_mem_dropLast (h : row.Pairwise GoesOn) : ∀ t ∈ row.dropLast, t.kind ≠ .newline := by
  intro t ht
  have hne : row ≠ [] := List.ne_nil_of_mem (List.dropLast_subset _ ht)
  rw [← List.dropLast_concat_getLast hne] at h
  exact (List.pairwise_append.mp h).2.2 t ht _ (List.mem_singleton_self _)

/-- Every token but the first has one in front of it. -/
theorem exists_of_mem_tail (hrow : row.IsChain Token.Precedes) (hgoes : row.Pairwise GoesOn)
    (ht : t ∈ row.tail) : ∃ u : Token, u.kind ≠ .newline ∧ u.Precedes t := by
  induction row with
  | nil => exact absurd ht List.not_mem_nil
  | cons u row ih =>
    obtain ⟨hnext, hmore⟩ := List.isChain_cons.mp hrow
    obtain ⟨hfirst, hgoes⟩ := List.pairwise_cons.mp hgoes
    cases row with
    | nil => exact absurd ht List.not_mem_nil
    | cons v row =>
      rcases List.mem_cons.mp ht with rfl | htail
      · exact ⟨u, hfirst t List.mem_cons_self, hnext t rfl⟩
      · exact ih hmore hgoes htail

theorem soundRow_of_mem_rows (h : row ∈ (tokenize source).rows) : SoundRow row := by
  obtain ⟨pre, post, htokens, hpre⟩ := exists_of_mem_rows h
  have hgoes := pairwise_of_mem_rows h
  have hprecedes := isChain_tokenize source
  rw [htokens] at hprecedes
  obtain ⟨-, hrest, hmeet⟩ := List.isChain_append.mp hprecedes
  have hrow := (List.isChain_append.mp hrest).1
  have hopens : ∀ t ∈ row.head?, t.OpensLine := by
    intro t ht
    have hhead : t ∈ (row ++ post).head? := List.mem_head?_append_of_mem_head? ht
    cases hlast : pre.getLast? with
    | none =>
      rw [List.getLast?_eq_none_iff.mp hlast, List.nil_append] at htokens
      exact opensLine_tokenize source t (htokens ▸ hhead)
    | some n => exact (hmeet n hlast t hhead).opensLine (hpre n hlast)
  have hfits : ∀ before t, before ++ [t] <+: row → t.Fits before := by
    rintro before t ⟨after, rfl⟩
    rw [List.append_assoc] at hgoes
    have hsplit : (tokenize source).tokens = pre ++ (before ++ t :: (after ++ post)) := by
      rw [htokens]
      simp
    refine fits_tokenize hpre (fun u hu => ?_) hsplit
    exact (List.pairwise_append.mp hgoes).2.2 u hu t (by simp)
  constructor
  case goesOn => exact kind_of_mem_dropLast hgoes
  case line => exact line_eq_of_isChain hrow (kind_of_mem_dropLast hgoes)
  case first =>
    intro t ht
    exact (hopens t ht).imp_right fun hitem => ⟨hitem.1, opensItem_or_indent_iff.mp hitem.2⟩
  case later =>
    intro t ht
    obtain ⟨u, hu, hut⟩ := exists_of_mem_tail hrow hgoes ht
    have hindent := hut.indents hu
    have hitem := hut.opensItem hu
    generalize t.kind = kind at hindent hitem
    cases kind <;> simp_all [Kind.opensItem]
  case date => exact fun before t hprefix => (hfits before t hprefix).date
  case semicolon =>
    intro before t hprefix hkind u hu hsemicolon
    have hcomment := (hfits before t hprefix).comment (by rw [hkind]; decide)
    rw [hkind] at hcomment
    exact absurd (hcomment.mpr ⟨u, hu, hsemicolon⟩) (by decide)
  case pipe => exact fun before t hprefix => (hfits before t hprefix).pipe
  case comment =>
    intro before t hprefix hsemicolon
    by_cases hkind : t.kind = .newline
    · simp [hkind]
    · have hcomment := inComment_iff_mem.mp
        (((hfits before t hprefix).comment hkind).mpr hsemicolon)
      exact List.mem_append_left [.newline] hcomment
  case inComment =>
    intro before t hprefix hmem
    have hcomment := inComment_iff_mem.mpr hmem
    refine ((hfits before t hprefix).comment ?_).mp hcomment
    intro hkind
    rw [hkind] at hcomment
    exact absurd hcomment (by decide)

/-- **Each line of a source has its own row, and the row is sound.** A row that another one follows
ends with a line break, and the other one is on a later line. -/
theorem rows_tokenize (source : String) :
    (tokenize source).rows.flatten = (tokenize source).tokens ∧
    ((tokenize source).rows.Pairwise fun row row' => (∀ t ∈ row.getLast?, t.kind = .newline) ∧
      ∀ t ∈ row, ∀ u ∈ row', t.place.line < u.place.line) ∧
    ∀ row ∈ (tokenize source).rows, SoundRow row := by
  have hsound : ∀ row ∈ (tokenize source).rows, SoundRow row := fun row => soundRow_of_mem_rows
  refine ⟨flatten_rows _, ?_, hsound⟩
  have hline := pairwise_line_tokenize source
  rw [← flatten_rows, List.pairwise_flatten] at hline
  refine ((pairwise_rows _).and hline.2).imp_of_mem fun {row row'} hrow _ hbreak =>
    ⟨hbreak.1, fun t ht u hu => ?_⟩
  obtain ⟨n, hn⟩ : ∃ n, row.getLast? = some n :=
    ⟨_, List.getLast?_eq_some_getLast (List.ne_nil_of_mem ht)⟩
  have hmem := List.mem_of_getLast? hn
  rw [(hsound row hrow).line t ht n hmem]
  exact (hbreak.2 n hmem u hu).2 (hbreak.1 n hn)

end Daybook
