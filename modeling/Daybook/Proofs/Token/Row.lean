import Daybook.Proofs.Token.Grounded
import Mathlib.Data.List.Chain

/-!
# Tokens along a line

The tokens of a line stand in it from left to right. The first of them opens an item, indents the
line or is its break, and it stands in the first column unless it is the break. Behind it no token
indents a line, and none opens an item but a date where a date is due. About the mode `LineStart`
([SPEC 11.3]).

* `Token.OpensLine t`: what holds of the first token of a line.
* `Token.Precedes t u`: what holds of two tokens one behind the other.
* `Scanner.InRow s`: what holds of the tokens read so far.

Results:
* `Place.column_eq_one_iff`: only behind whole lines a place is in the first column.
* `Reached.inRow`: **`InRow` holds wherever the tokenizer comes.**
* `isChain_tokenize`, `opensLine_tokenize`: the same of all tokens of a source.
-/

namespace Daybook

open Lexeme Text

/-! ## Columns -/

namespace Text.Place

theorem next_of_ne (p : Place) {c : Char} (hc : c ≠ '\n') :
    (p.next c).line = p.line ∧ (p.next c).column = p.column + 1 := by
  rw [next, if_neg hc]
  exact ⟨rfl, rfl⟩

theorem column_pos_advance {p : Place} (hp : 0 < p.column) (cs : List Char) :
    0 < (p.advance cs).column := by
  induction cs generalizing p with
  | nil => exact hp
  | cons c cs ih =>
    rw [advance_cons]
    refine ih ?_
    unfold next
    split
    · exact Nat.one_pos
    · exact Nat.succ_pos _

/-- **Only behind whole lines a place is in the first column.** -/
theorem column_eq_one_iff (cs : List Char) :
    (Place.start.advance cs).column = 1 ↔ WholeLines cs := by
  rcases List.eq_nil_or_concat cs with rfl | ⟨xs, c, rfl⟩
  · exact ⟨fun _ => wholeLines_nil, fun _ => rfl⟩
  · have hpos : 0 < (Place.start.advance xs).column := column_pos_advance Nat.one_pos xs
    rw [List.concat_eq_append, advance_append, advance_cons, advance_nil]
    simp only [WholeLines, List.getLast?_concat, Option.mem_some_iff, forall_eq']
    by_cases hc : c = '\n'
    · simp [hc, next]
    · have hcolumn := (next_of_ne (Place.start.advance xs) hc).2
      simp only [hc, iff_false]
      omega

/-- Within a line places lie side by side. -/
theorem advance_inLine (p : Place) {cs : List Char} (h : '\n' ∉ cs) :
    (p.advance cs).line = p.line ∧ (p.advance cs).column = p.column + cs.length := by
  induction cs generalizing p with
  | nil => exact ⟨rfl, rfl⟩
  | cons c cs ih =>
    have hc : c ≠ '\n' := fun heq => h (heq ▸ List.mem_cons_self)
    obtain ⟨hline, hcolumn⟩ := ih (p.next c) fun hmem => h (List.mem_cons_of_mem c hmem)
    obtain ⟨hnextLine, hnextColumn⟩ := p.next_of_ne hc
    rw [advance_cons, hline, hcolumn, hnextLine, hnextColumn, List.length_cons]
    exact ⟨rfl, by omega⟩

end Text.Place

/-! ## Tokens one behind the other -/

/-- What holds of the first token of a line. -/
def Token.OpensLine (t : Token) : Prop :=
  t.kind = .newline ∨ t.place.column = 1 ∧ (t.kind.opensItem ∨ t.kind = .indent)

/-- What holds of two tokens one behind the other. -/
structure Token.Precedes (t u : Token) : Prop where
  /-- A line runs from left to right. -/
  inLine : t.kind ≠ .newline → u.place.line = t.place.line ∧ t.place.column < u.place.column
  /-- Only the first token of a line indents it. -/
  indents : t.kind ≠ .newline → u.kind ≠ .indent
  /-- Behind it only a date that is due is of a kind that opens items. -/
  opensItem : t.kind ≠ .newline → u.kind.opensItem →
    u.kind = .date ∧ (t.kind = .equals ∨ t.kind = .priceKeyword)
  /-- Behind a line break a line opens. -/
  opensLine : t.kind = .newline → u.OpensLine

/-- Only where a line starts a token opens it. -/
theorem opens_of_token?_lineStart {v : View} {kind : Kind} {found : Match} {move : Move}
    (h : Mode.lineStart.token? v = some (kind, found, move)) :
    v.atLineStart ∧ (kind.opensItem ∨ kind = .indent) := by
  have hadmits := admits_token? h
  refine ⟨?_, ?_⟩
  · rcases token?_cases h with ⟨rule, hrule, hfound, -, -⟩ | ⟨hreads, -, -⟩
    · simp only [Mode.rules, List.mem_cons, List.not_mem_nil, or_false] at hrule
      rcases hrule with rfl | rfl | rfl | rfl | rfl | rfl | rfl <;>
        exact (Option.ite_none_right_eq_some.mp hfound).1
    · exact absurd hreads (by decide)
  · cases move with
    | stay => exact absurd rfl hadmits.2
    | enter m => exact hadmits.2.2.2 rfl
    | leave => exact absurd hadmits.2 (by decide)

/-- Inside a mode a date is found only where it is due. -/
theorem due_of_mem_rules {mode : Mode} {rule : Rule} {v : View} {found : Match}
    (hmode : mode ≠ .lineStart) (h : rule ∈ mode.rules) (hkind : rule.kind = .date)
    (hfound : rule.find v = some found) :
    mode = .header ∧ v.follows [.equals] ∧ v.touches ∨
      mode = .priceDirective ∧ v.follows [.priceKeyword] := by
  cases mode <;>
    simp only [Mode.rules, Rule.accounts, List.mem_cons, List.mem_append, List.not_mem_nil,
      or_false] at h
  case lineStart => exact absurd rfl hmode
  case header =>
    rcases h with rfl | rfl | rfl | rfl | rfl | rfl | rfl | rfl
    case inr.inl =>
      have hdue := (Option.ite_none_right_eq_some.mp hfound).1
      exact .inl ⟨rfl, Bool.and_eq_true .. ▸ hdue⟩
    all_goals exact absurd hkind (by decide)
  case priceDirective =>
    rcases h with rfl | rfl
    · exact .inr ⟨rfl, (Option.ite_none_right_eq_some.mp hfound).1⟩
    · exact absurd hkind (by decide)
  -- no other mode has a rule for dates
  case memo => rcases h with rfl | rfl <;> exact absurd hkind (by decide)
  case inlineComment => rcases h with rfl | rfl | rfl <;> exact absurd hkind (by decide)
  case tagValue => rcases h with rfl | rfl <;> exact absurd hkind (by decide)
  case lineComment => exact absurd hkind (by rw [h]; decide)
  case indented =>
    rcases h with (rfl | rfl | rfl | rfl) | rfl | rfl | rfl <;> exact absurd hkind (by decide)
  case amountLine => exact absurd hkind (by rw [h]; decide)
  case accountDirective => rcases h with rfl | rfl | rfl | rfl <;> exact absurd hkind (by decide)

/-- Inside a mode no token indents a line, and none opens an item but a date that is due. -/
theorem kind_of_token?_inner {mode : Mode} {v : View} {kind : Kind} {found : Match} {move : Move}
    (hmode : mode ≠ .lineStart) (h : mode.token? v = some (kind, found, move)) :
    kind ≠ .indent ∧ (kind.opensItem → kind = .date ∧
      (mode = .header ∧ v.follows [.equals] ∧ v.touches ∨
        mode = .priceDirective ∧ v.follows [.priceKeyword])) := by
  rcases token?_cases h with ⟨rule, hrule, hfound, rfl, -⟩ | ⟨-, hamount, -⟩
  · have hall : mode.rules.all fun r => r.kind ≠ .indent ∧ (r.kind.opensItem → r.kind = .date) := by
      cases mode <;> first | exact absurd rfl hmode | decide
    have hkind := List.all_eq_true.mp hall rule hrule
    simp only [decide_eq_true_eq] at hkind
    exact ⟨hkind.1, fun hopens =>
      ⟨hkind.2 hopens, due_of_mem_rules hmode hrule (hkind.2 hopens) hfound⟩⟩
  · have hall : ∀ k ∈ amountKinds, k ≠ .indent ∧ k.opensItem = false := by decide
    obtain ⟨hindent, hopens⟩ := hall kind (kind_of_amountToken? hamount)
    exact ⟨hindent, fun h => absurd h (by simp [hopens])⟩

namespace Scanner

/-! ## What holds at any time -/

/-- What holds of the tokens read so far, the last of which is the first of the list. -/
structure InRow (s : Scanner) : Prop where
  chain : s.tokens.IsChain fun u t => t.Precedes u
  first : ∀ t ∈ s.tokens.getLast?, t.OpensLine
  /-- The last token stands in front of the place, on its line if it is no line break. -/
  last : ∀ t ∈ s.tokens.head?, t.kind ≠ .newline →
    t.place.line = s.place.line ∧ t.place.column < s.place.column

variable {s : Scanner} {rest : List Char}

theorem inRow_start : InRow .start where
  chain := .nil
  first := by simp [start]
  last := by simp [start]

/-- Passing a text without a line feed. -/
theorem InRow.pass (h : s.InRow) {text : List Char} (htext : '\n' ∉ text) :
    (s.pass text).InRow where
  chain := h.chain
  first := h.first
  last t ht hkind := by
    obtain ⟨hline, hcolumn⟩ := s.place.advance_inLine htext
    obtain ⟨htline, htcolumn⟩ := h.last t ht hkind
    simp only [Scanner.pass, hline, hcolumn]
    exact ⟨htline, Nat.lt_add_right _ htcolumn⟩

/-- One more token at the current place, and a text behind it on the line. -/
theorem InRow.token (h : s.InRow) {t : Token} (hplace : t.place = s.place)
    (hopens : (∀ u ∈ s.tokens.head?, u.kind = .newline) → t.OpensLine)
    (hprecedes : ∀ u ∈ s.tokens.head?, u.Precedes t) {text : List Char} (hne : text ≠ [])
    (htext : t.kind ≠ .newline → '\n' ∉ text) {s' : Scanner} (htokens : s'.tokens = t :: s.tokens)
    (hplace' : s'.place = s.place.advance text) : s'.InRow where
  chain := by
    rw [htokens]
    exact List.isChain_cons.mpr ⟨hprecedes, h.chain⟩
  first u hu := by
    rw [htokens] at hu
    cases hbefore : s.tokens with
    | nil =>
      rw [hbefore] at hu
      obtain rfl := Option.some.inj hu
      exact hopens (by simp [hbefore])
    | cons v vs =>
      rw [hbefore, List.getLast?_cons_cons, ← hbefore] at hu
      exact h.first u hu
  last u hu hkind := by
    rw [htokens] at hu
    obtain rfl := Option.some.inj hu
    obtain ⟨hline, hcolumn⟩ := s.place.advance_inLine (htext hkind)
    have hpos := List.length_pos_iff.mpr hne
    rw [hplace', hline, hcolumn, hplace]
    exact ⟨rfl, by omega⟩

/-- The last token precedes the next one on the line, unless that would open an item. -/
theorem InRow.precedes (h : s.InRow) {u t : Token} (hu : u ∈ s.tokens.head?)
    (hplace : t.place = s.place) (hindent : u.kind ≠ .newline → t.kind ≠ .indent)
    (hopens : u.kind ≠ .newline → t.kind.opensItem →
      t.kind = .date ∧ (u.kind = .equals ∨ u.kind = .priceKeyword))
    (hline : u.kind = .newline → t.OpensLine) : u.Precedes t where
  inLine hkind := by
    rw [hplace]
    exact ⟨(h.last u hu hkind).1.symm, (h.last u hu hkind).2⟩
  indents := hindent
  opensItem := hopens
  opensLine := hline

/-- A step keeps `InRow`. -/
theorem InRow.step {source : List Char} (hreached : Reached source s rest) (h : s.InRow)
    (hne : rest ≠ []) : (s.step rest).InRow := by
  have hground := hreached.grounded
  have hcomes := comes_next (s := s) hne
  have hplace := s.place_step rest
  have htake := take_ne_nil (s.next rest).taken_pos hne
  unfold Scanner.step at hplace ⊢
  generalize s.next rest = e at hcomes hplace htake ⊢
  cases hcomes with
  | layout _ hlayout => exact h.pass fun hmem => absurd (hlayout _ hmem) (by decide)
  | newline =>
    have hindent : Kind.newline ≠ .indent := by decide
    have hopens : ¬ Kind.newline.opensItem := by decide
    exact h.token rfl (fun _ => .inl rfl) (fun u hu => h.precedes hu rfl (fun _ => hindent)
      (fun _ h => absurd h hopens) fun _ => .inl rfl) htake (absurd rfl) rfl hplace
  | @token kind found move _ hfound =>
    have hbreak : '\n' ∉ rest.take found.length := fun hmem =>
      absurd ((onLine_token? hfound).endsLine_eq_false hmem) (by decide)
    by_cases hinner : s.modes.inner = []
    · rw [hground.modes.top_eq_lineStart_iff.mpr hinner] at hfound
      obtain ⟨hstart, hopens⟩ := opens_of_token?_lineStart hfound
      obtain ⟨passed, -, hplace', hbefore⟩ := exists_passed hreached
      have hcolumn : s.place.column = 1 := by
        rw [hplace', Place.column_eq_one_iff, WholeLines, ← hbefore]
        simpa [View.atLineStart, view, Option.all_eq_true] using hstart
      have houtside := hground.outside hinner
      exact h.token rfl (fun _ => .inr ⟨hcolumn, hopens⟩) (fun u hu => h.precedes hu rfl
        (absurd (houtside u hu)) (absurd (houtside u hu)) fun _ => .inr ⟨hcolumn, hopens⟩)
        htake (fun _ => hbreak) rfl hplace
    · obtain ⟨last, hlast, hkind⟩ := hground.inside hinner
      have hmode : s.modes.top ≠ .lineStart := fun htop =>
        hinner (hground.modes.top_eq_lineStart_iff.mp htop)
      obtain ⟨hindent, hopens⟩ := kind_of_token?_inner hmode hfound
      refine h.token rfl (fun hall => absurd (hall last hlast) hkind) (fun u hu => ?_) htake
        (fun _ => hbreak) rfl hplace
      obtain rfl := Option.some.inj (hu.symm.trans hlast)
      refine h.precedes hu rfl (fun _ => hindent) (fun _ hopening => ?_) (absurd · hkind)
      have hlast : s.tokens.head? = some u := hlast
      obtain ⟨hdate, hdue⟩ := hopens hopening
      refine ⟨hdate, hdue.imp (fun h => ?_) fun h => ?_⟩
      · simpa [View.follows, view, hlast] using h.2.1
      · simpa [View.follows, view, hlast] using h.2
  | unknownLine hmode =>
    have hinner := hground.modes.top_eq_lineStart_iff.mp hmode
    exact ⟨h.chain, h.first, fun t ht hkind => absurd (hground.outside hinner t ht) hkind⟩
  | unexpected _ hrest hbreak =>
    have htokens := (s.tokens_reportMore (rest.take 1) s.modes.top).1
    have hsame := s.place_reportMore (rest.take 1) s.modes.top
    refine InRow.pass ⟨?_, ?_, ?_⟩ fun hmem => ?_
    · simpa only [record, htokens] using h.chain
    · simpa only [record, htokens] using h.first
    · simpa only [record, htokens, hsame] using h.last
    · rw [hrest] at hmem
      exact hbreak (List.mem_singleton.mp hmem).symm

/-- **`InRow` holds wherever the tokenizer comes.** -/
theorem Reached.inRow {source : List Char} (h : Reached source s rest) : s.InRow := by
  induction h with
  | start => exact inRow_start
  | step hreached hne ih => exact ih.step hreached hne

end Scanner

/-- **Tokens one behind the other.** -/
theorem isChain_tokenize (source : String) : (tokenize source).tokens.IsChain Token.Precedes :=
  List.isChain_reverse.mpr (Scanner.reached_run .start).inRow.chain

/-- The first token of a source opens a line. -/
theorem opensLine_tokenize (source : String) : ∀ t ∈ (tokenize source).tokens.head?, t.OpensLine := by
  rw [tokenize, List.head?_reverse]
  exact (Scanner.reached_run .start).inRow.first

/-- Up to the next line break all tokens are on one line, and the line break is on it too. -/
theorem line_eq_of_isChain {ts : List Token} (hchain : ts.IsChain Token.Precedes)
    (hkind : ∀ t ∈ ts.dropLast, t.kind ≠ .newline) :
    ∀ t ∈ ts, ∀ u ∈ ts, t.place.line = u.place.line := by
  suffices hfirst : ∀ t ∈ ts, ∀ u ∈ ts.head?, t.place.line = u.place.line by
    intro t ht u hu
    obtain ⟨v, hv⟩ : ∃ v, ts.head? = some v :=
      ⟨_, List.head?_eq_some_head (List.ne_nil_of_mem ht)⟩
    rw [hfirst t ht v hv, hfirst u hu v hv]
  induction ts with
  | nil => exact fun t ht => absurd ht List.not_mem_nil
  | cons v ts ih =>
    rintro t ht _ ⟨⟩
    obtain ⟨hnext, hmore⟩ := List.isChain_cons.mp hchain
    rcases List.mem_cons.mp ht with rfl | htail
    · rfl
    · have hne := List.ne_nil_of_mem htail
      rw [List.dropLast_cons_of_ne_nil hne] at hkind
      obtain ⟨w, hw⟩ : ∃ w, ts.head? = some w := ⟨_, List.head?_eq_some_head hne⟩
      have hline := (hnext w hw).inLine (hkind v List.mem_cons_self)
      rw [ih hmore (fun u hu => hkind u (List.mem_cons_of_mem v hu)) t htail w hw, hline.1]

end Daybook
