import Daybook.Proofs.Token.Cut
import Daybook.Proofs.Token.Language

/-!
# How the tokens of a source are spelled

Every token of a source is spelled as its kind says. Two things more depend on the tokens around it:
only behind the bar of a line may a text hold another bar, and the name of a tag has its colon right
behind it, as the next token. About `tokenize` ([SPEC 11.1], [SPEC 11.2]).

* `Token.Spelled source pre t post`: how a token is spelled, between the tokens in front of it and
  those behind it.

Results:
* `Reached.exists_pipe`: the mode of a memo is entered behind a bar.
* `Notes.exists_colon`: right behind the name of a tag its colon is noted.
* `spelled_tokenize`: **every token of a source is spelled as its kind says.**
-/

namespace Daybook

open Lexeme Text

variable {source : String} {pre post ts : List Token} {t : Token} {mode : Mode} {v : View}
  {found : Match} {move : Move}

/-- How a token of a source is spelled, between the tokens in front of it and those behind it. -/
structure Token.Spelled (source : String) (pre : List Token) (t : Token) (post : List Token) :
    Prop where
  /-- Its text is in the language of its kind. -/
  texts : t.image.toList ∈ t.kind.texts
  /-- What it carries is read off its text. -/
  means : t.kind.Means t.image.toList t.payload
  /-- It stands where it says, and what is behind it lets it end there. -/
  stands : ∃ passed ahead, source.toList = passed ++ (t.image.toList ++ ahead) ∧
    byteLength passed = t.offset ∧ t.kind.Borders ahead
  /-- In front of the bar of its line a text holds none. -/
  bar : t.kind = .text → (∀ u ∈ pre, u.place.line = t.place.line → u.kind ≠ .pipe) →
    '|' ∉ t.image.toList
  /-- The name of a tag has its colon right behind it. -/
  colon : t.kind = .tagName → ∃ u ∈ post.head?, u.kind = .tagColon ∧ u.offset = t.stop

/-! ## Texts and bars -/

/-- Only in the memo a text may hold a bar. -/
theorem bar_of_token? (hmode : mode ≠ .memo) (h : mode.token? v = some (.text, found, move)) :
    '|' ∉ v.rest.take found.length := by
  have hnone : ∀ m : Mode, m ≠ .header → m ≠ .memo → m.rules.all (·.kind ≠ .text) := by
    intro m hheader hmemo
    cases m <;> first | rfl | contradiction
  rcases token?_cases h with ⟨rule, hrule, hfound, hkind, -⟩ | ⟨-, hamount, -⟩
  · by_cases hheader : mode = .header
    · subst hheader
      have htext : rule = ⟨.text, fun v => v.textUpTo fun c => c = ';' || c = '|', .stay⟩ := by
        simp only [Mode.rules, List.mem_cons, List.not_mem_nil, or_false] at hrule
        rcases hrule with rfl | rfl | rfl | rfl | rfl | rfl | rfl | rfl
        case inr.inr.inr.inr.inr.inr.inr => rfl
        all_goals exact absurd hkind (by decide)
      rw [htext] at hfound
      rw [length_ofLength hfound, ← List.prefix_iff_eq_take.mp (freeRun_isPrefix _ _)]
      exact fun hbar => absurd (freeRun_no_break hbar).2 (by decide)
    · have hother := List.all_eq_true.mp (hnone mode hheader hmode) rule hrule
      exact absurd hkind (by simpa using hother)
  · exact absurd (kind_of_amountToken? hamount) (by decide)

/-- Only a bar enters the mode of a memo. -/
theorem kind_of_enter_memo {kind : Kind} (h : mode.token? v = some (kind, found, .enter .memo)) :
    kind = .pipe :=
  of_token? (P := fun k m => m = .enter .memo → k = .pipe)
    (by cases mode <;> decide) (by cases mode <;> decide) h rfl

/-- The tokens of the current line are on the line. -/
theorem line_of_mem_lineOf {line : Nat} (hchain : ts.IsChain fun u t => t.Precedes u)
    (hlast : ∀ t ∈ ts.head?, t.kind ≠ .newline → t.place.line = line) :
    ∀ u ∈ lineOf ts, u.place.line = line := by
  induction ts with
  | nil => simp [lineOf]
  | cons t ts ih =>
    by_cases hkind : t.kind = .newline
    · rw [lineOf_eq_nil_iff.mpr (by simpa using hkind)]
      simp
    · obtain ⟨hnext, hmore⟩ := List.isChain_cons.mp hchain
      have hline : t.place.line = line := hlast t rfl hkind
      rw [lineOf_cons hkind]
      intro u hu
      rcases List.mem_append.mp hu with hold | hnew
      · refine ih hmore (fun w hw hwkind => ?_) u hold
        rw [← hline, ((hnext w hw).inLine hwkind).1]
      · rw [List.mem_singleton.mp hnew, hline]

namespace Scanner

variable {s : Scanner} {chars rest : List Char}

/-- **The mode of a memo is entered behind a bar** of the line. -/
theorem Reached.exists_pipe (h : Reached chars s rest) (htop : s.modes.top = .memo) :
    ∃ u ∈ lineOf s.tokens, u.kind = .pipe := by
  induction h with
  | start => exact absurd htop (by decide)
  | @step s rest hreached hne ih =>
    have hcomes := comes_next (s := s) hne
    unfold Scanner.step at htop ⊢
    generalize s.next rest = e at hcomes htop ⊢
    replace htop : (s.record rest e).modes.top = .memo := htop
    show ∃ u ∈ lineOf (s.record rest e).tokens, u.kind = .pipe
    cases hcomes with
    | layout | unknownLine => exact ih htop
    | newline => exact absurd htop (by simp [record, note, ModeStack.top_reset])
    | @token kind found move _ hfound =>
      have hkind : kind ≠ .newline := (admits_token? hfound).kind_ne
      replace htop := (hreached.fits.top_move (allows_token? hfound)).symm.trans htop
      show ∃ u ∈ lineOf (⟨kind, _, _, _⟩ :: s.tokens), u.kind = .pipe
      rw [lineOf_cons hkind]
      cases move with
      | stay =>
        obtain ⟨u, hu, hpipe⟩ := ih htop
        exact ⟨u, List.mem_append_left _ hu, hpipe⟩
      | enter m =>
        obtain rfl : m = .memo := htop
        exact ⟨_, List.mem_append_right _ (List.mem_singleton_self _), kind_of_enter_memo hfound⟩
      | leave => cases htop
    | unexpected =>
      rw [record, (s.tokens_reportMore _ _).2] at htop
      rw [record, (s.tokens_reportMore _ _).1]
      exact ih htop

/-! ## Tags and colons -/

/-- The name of a tag stands in a comment, and the comment goes on. -/
theorem tagName_stays (h : mode.token? v = some (.tagName, found, move)) :
    mode = .inlineComment ∧ move = .stay :=
  of_token? (P := fun k m => k = .tagName → mode = .inlineComment ∧ m = .stay)
    (by cases mode <;> decide) (by cases mode <;> decide) h rfl

/-- Right behind the name of a tag its colon comes next. -/
theorem next_of_colon (hmode : s.modes.top = .inlineComment) (ht : t ∈ s.tokens.head?)
    (hkind : t.kind = .tagName) (hstop : t.stop = s.place.offset) (cs : List Char) :
    s.next (':' :: cs) = .token .tagColon Match.single (.enter .tagValue) := by
  have hhead : s.tokens.head? = some t := ht
  have hname : (s.view (':' :: cs)).tagName = none := by
    simp [View.tagName, view, tagNameLength?, isTagNameChar]
  have hcolon : tagColon (s.view (':' :: cs)) = some Match.single := by
    simp [tagColon, View.follows, View.touches, View.sign, view, hhead, hkind, hstop]
  rw [next_of_inner (by simp [hmode]) (layoutLength_of_not_isLayout (by decide) _)
    (newlineLength_of_not_endsLine (by decide) _), hmode, token?_inlineComment, hname, hcolon]

/-- **Right behind the name of a tag its colon is noted.** -/
theorem Notes.exists_colon (h : s.Notes rest t) (hne : rest ≠ []) (hkind : t.kind = .tagName)
    (cs : List Char) :
    ∃ u, (s.step rest).Notes (':' :: cs) u ∧ u.kind = .tagColon ∧ u.offset = t.stop := by
  obtain ⟨found, move, hnext, -, hfound⟩ := h.exists_found hne (by rw [hkind]; decide)
  rw [hkind] at hnext hfound
  obtain ⟨hmode, rfl⟩ := tagName_stays hfound
  have hmodes : (s.step rest).modes.top = .inlineComment := by
    rw [modes_step, hnext]
    exact hmode
  have hstop : t.stop = (s.step rest).place.offset := by
    rw [Token.stop, Token.offset, Token.length, h.place, h.image, place_step, Place.offset_advance]
  have hhead : t ∈ (s.step rest).tokens.head? := by rw [h.tokens]; rfl
  have hcolon := next_of_colon hmodes hhead hkind hstop cs
  obtain ⟨u, hu, hukind⟩ := exists_notes_of_next hcolon
  exact ⟨u, hu, hukind, by rw [Token.offset, hu.place, hstop]⟩

/-! ## All tokens of a source -/

/-- What has been noted stays. -/
theorem Reached.tokens_isPrefix (h : Reached source.toList s rest) :
    s.tokens.reverse <+: (tokenize source).tokens := by
  have hfinal : Reached source.toList (Scanner.start.run source.toList) [] := reached_run .start
  rw [tokenize, List.reverse_prefix]
  rcases hfinal.linear h with ⟨cs, -, hreads⟩ | ⟨cs, hcs, hreads⟩
  · exact hreads.tokens_isSuffix
  · obtain ⟨rfl, -⟩ := List.append_eq_nil_iff.mp hcs.symm
    rw [hreads.eq_of_nil]

/-- What is noted is spelled as its kind says. -/
theorem Notes.textsWith (h : s.Notes rest t) (hne : rest ≠ []) :
    t.image.toList ∈ t.kind.textsWith t.payload ∧
      t.kind.Borders (rest.drop (s.next rest).taken) := by
  by_cases hkind : t.kind = .newline
  · have hcomes := comes_next (s := s) hne
    have htokens := h.tokens
    rcases h.next with ⟨⟨n, hn, hnext⟩, -⟩ | ⟨found, move, hnext, -⟩
    · rw [hnext] at hcomes
      cases hcomes with
      | newline hrest hbreak hlen =>
        simp only [step, pass, hnext, record, note, List.cons.injEq, and_true] at htokens
        rw [← htokens, ← hlen, hrest, List.take_left, String.toList_ofList]
        exact ⟨⟨hbreak, rfl⟩, trivial⟩
    · rw [hnext, hkind] at hcomes
      cases hcomes with
      | token _ hfound => exact absurd rfl (admits_token? hfound).kind_ne
  · obtain ⟨found, move, hnext, hpayload, hfound⟩ := h.exists_found hne hkind
    obtain ⟨text, ahead, hrest, htext, hahead, hlength⟩ := takes_token? hfound
    replace hrest : rest = text ++ ahead := hrest
    rw [h.image, hnext, hpayload, Event.taken, ← hlength, hrest, List.take_left, List.drop_left]
    exact ⟨htext, hahead⟩

end Scanner

/-- The text of a token and what it carries are those of its kind. -/
theorem mem_textsWith_of_mem_tokenize (h : t ∈ (tokenize source).tokens) :
    t.image.toList ∈ t.kind.textsWith t.payload := by
  obtain ⟨s, rest, -, hne, hnotes⟩ := Scanner.exists_notes_of_mem_tokenize h
  exact (hnotes.textsWith hne).1

/-- **Every token of a source is spelled as its kind says.** -/
theorem spelled_tokenize (h : (tokenize source).tokens = pre ++ t :: post) :
    t.Spelled source pre post := by
  obtain ⟨s, rest, hreached, hne, hs, hnotes⟩ := Scanner.exists_notes_of_tokenize h
  obtain ⟨passed, hpassed, hplace, -⟩ := Scanner.exists_passed hreached
  obtain ⟨⟨htexts, hmeans⟩, hborders⟩ := hnotes.textsWith hne
  constructor
  case texts => exact htexts
  case means => exact hmeans
  case stands =>
    refine ⟨passed, rest.drop (s.next rest).taken, ?_, ?_, hborders⟩
    · rw [hnotes.image, List.take_append_drop, hpassed]
    · rw [Token.offset, hnotes.place, hplace, Place.offset_advance]
      exact (Nat.zero_add _).symm
  case bar =>
    intro hkind hnobar
    obtain ⟨found, move, hnext, -, hfound⟩ := hnotes.exists_found hne (by rw [hkind]; decide)
    rw [hkind] at hfound
    rw [hnotes.image, hnext]
    refine bar_of_token? (fun hmemo => ?_) hfound
    obtain ⟨u, hu, hpipe⟩ := hreached.exists_pipe hmemo
    have hline := line_of_mem_lineOf hreached.inRow.chain
      (fun w hw hwkind => (hreached.inRow.last w hw hwkind).1) u hu
    have hmem : u ∈ s.tokens := List.takeWhile_subset _ (List.mem_reverse.mp hu)
    rw [hs, List.mem_reverse] at hmem
    exact hnobar u hmem (hline.trans (congrArg Place.line hnotes.place).symm) hpipe
  case colon =>
    intro hkind
    rw [hkind] at hborders
    obtain ⟨cs, hcs⟩ := List.head?_eq_some_iff.mp hborders
    obtain ⟨u, hu, hcolon, hstop⟩ := hnotes.exists_colon hne hkind cs
    have hbehind : Scanner.Reached source.toList (s.step rest) (':' :: cs) :=
      hcs ▸ hreached.step hne
    have hfront := (hbehind.step (List.cons_ne_nil _ _)).tokens_isPrefix
    rw [hu.tokens, hnotes.tokens, hs, h] at hfront
    obtain ⟨more, rfl⟩ : [u] <+: post := by simpa using hfront
    exact ⟨u, rfl, hcolon, hstop⟩

/-- The name of a tag in the comment of a transaction. -/
theorem spelled_tokenize_tag : ∃ pre t post, (tokenize "1/2;a:\n").tokens = pre ++ t :: post ∧
    t.kind = .tagName ∧ t.Spelled "1/2;a:\n" pre post := by
  have htokens : (tokenize "1/2;a:\n").tokens =
      [⟨.date, "1/2", ⟨0, 1, 1⟩, none⟩, ⟨.semicolon, ";", ⟨3, 1, 4⟩, none⟩] ++
        ⟨.tagName, "a", ⟨4, 1, 5⟩, none⟩ ::
          [⟨.tagColon, ":", ⟨5, 1, 6⟩, none⟩, ⟨.newline, "\n", ⟨6, 1, 7⟩, none⟩] := by
    decide +kernel
  exact ⟨_, _, _, htokens, rfl, spelled_tokenize htokens⟩

end Daybook
