import Daybook.Proofs.Token.Cover
import Daybook.Proofs.Token.Lines

/-!
# Lines that are dropped

A line that starts no item is dropped with its break and reported. No token is left of it, so the
tokens of the lines behind it follow those of the lines in front of it. About the first branch of
`recover` ([SPEC 11.5]).

* `ScanFault.dropsLine f`: the fault reports a line that was dropped.
* `Scanner.dropped s`: the places of the lines dropped so far.
* `Place.Parts p pre post`: the place lies behind the lines of `pre`, and `post` stands behind it.

Results:
* `Reached.parts`: wherever the tokenizer comes, a line that it has dropped parts the tokens.
* `Reached.line_told`: **a line that was passed has a break for a token or was dropped.**
* `exists_parts_tokenize`, `line_told_tokenize`: the same of all tokens of a source.
-/

namespace Daybook

open Text

/-- The fault reports a line that was dropped. -/
def ScanFault.dropsLine (f : ScanFault) : Bool :=
  match f.cause with
  | .unknownLine _ => true
  | _ => false

/-- The place lies behind the lines of the first tokens, and the others stand behind it. -/
structure Text.Place.Parts (p : Place) (pre post : List Token) : Prop where
  closed : ∀ t ∈ pre.getLast?, t.kind = .newline
  front : ∀ t ∈ pre, t.stop ≤ p.offset ∧ t.place.line ≤ p.line
  behind : ∀ t ∈ post, p.offset ≤ t.offset ∧ p.line ≤ t.place.line

variable {source : String} {f : ScanFault} {t : Token} {n : Nat}

theorem IsBreak.count_eq {gap : List Char} (h : IsBreak gap) : gap.count '\n' = 1 := by
  rcases h with rfl | rfl <;> decide

namespace Scanner

variable {source rest : List Char} {s : Scanner}

/-- The places of the lines dropped so far, the last one first. -/
def dropped (s : Scanner) : List Place := (s.faults.filter ScanFault.dropsLine).map (·.place)

theorem dropped_reportMore (s : Scanner) (text : List Char) (mode : Mode) :
    (s.reportMore text mode).dropped = s.dropped := by
  obtain ⟨last, faults, hfaults, -, hmore⟩ | hmore := s.reportMore_cases text mode <;> rw [hmore]
  · -- the last fault grows, with the same cause
    have hcause : ({ last with length := last.length + byteLength text } : ScanFault).dropsLine =
        last.dropsLine := rfl
    simp only [dropped, hfaults, List.filter_cons, hcause]
    split <;> rfl
  · rfl

/-- A step drops a line, outside of all modes and with no token, or it drops none. -/
theorem dropped_step (hreached : Reached source s rest) (hne : rest ≠ []) :
    (s.step rest).dropped = s.dropped ∨
      s.modes.inner = [] ∧ (s.step rest).tokens = s.tokens ∧
        (s.step rest).dropped = s.place :: s.dropped := by
  have hcomes := comes_next (s := s) hne
  unfold step
  generalize s.next rest = e at hcomes ⊢
  show (s.record rest e).dropped = s.dropped ∨ s.modes.inner = [] ∧
    (s.record rest e).tokens = s.tokens ∧ (s.record rest e).dropped = s.place :: s.dropped
  cases hcomes with
  | layout | newline | token => exact .inl rfl
  | unknownLine hmode =>
    exact .inr ⟨hreached.grounded.modes.top_eq_lineStart_iff.mp hmode, rfl, rfl⟩
  | unexpected => exact .inl (s.dropped_reportMore _ _)

/-! ## A line that was dropped parts the tokens -/

/-- The tokens do not reach past the place of the tokenizer. -/
theorem Reached.stop_le (h : Reached source s rest) (ht : t ∈ s.tokens) :
    t.stop ≤ s.place.offset := by
  obtain ⟨passed, tiles, -, hlaid⟩ := exists_laid h
  have hmem : t ∈ tiles.filterMap Tile.token? := by
    rw [hlaid.tokens]
    exact List.mem_reverse.mpr ht
  obtain ⟨x, hx, htoken⟩ := List.mem_filterMap.mp hmem
  have hspan : x.span? = some t.span := by cases x <;> simp_all [Tile.token?, Tile.span?]
  rw [hlaid.place, ← hlaid.text]
  exact hlaid.tiled.stop_le_offset (List.mem_filterMap.mpr ⟨x, hx, hspan⟩)

/-- The lines that were dropped do not lie ahead. -/
theorem Reached.dropped_le (h : Reached source s rest) :
    ∀ p ∈ s.dropped, p.offset ≤ s.place.offset ∧ p.line ≤ s.place.line := by
  induction h with
  | start => simp [dropped, Scanner.start]
  | @step s rest hreached hne ih =>
    have hoffset : s.place.offset ≤ (s.step rest).place.offset :=
      Nat.le_of_lt (s.offset_step hne).1
    have hline : s.place.line ≤ (s.step rest).place.line := by
      rw [s.place_step]
      exact s.place.line_le_advance _
    have hold : ∀ p ∈ s.dropped, p.offset ≤ (s.step rest).place.offset ∧
        p.line ≤ (s.step rest).place.line := fun p hp =>
      ⟨Nat.le_trans (ih p hp).1 hoffset, Nat.le_trans (ih p hp).2 hline⟩
    rcases dropped_step hreached hne with hsame | ⟨-, -, hdropped⟩
    · rwa [hsame]
    · rw [hdropped]
      exact List.forall_mem_cons.mpr ⟨⟨hoffset, hline⟩, hold⟩

/-- **A line that was dropped parts the tokens.** -/
theorem Reached.parts (h : Reached source s rest) :
    ∀ p ∈ s.dropped, ∃ pre post, s.tokens.reverse = pre ++ post ∧ p.Parts pre post := by
  induction h with
  | start => simp [dropped, Scanner.start]
  | @step s rest hreached hne ih =>
    have hold : ∀ p ∈ s.dropped, ∃ pre post,
        (s.step rest).tokens.reverse = pre ++ post ∧ p.Parts pre post := by
      intro p hp
      obtain ⟨pre, post, htokens, hparts⟩ := ih p hp
      rcases s.tokens_step rest with hsame | ⟨t, hnotes⟩
      · exact ⟨pre, post, by rw [hsame, htokens], hparts⟩
      · refine ⟨pre, post ++ [t], ?_, hparts.closed, hparts.front, fun u hu => ?_⟩
        · rw [hnotes.tokens, List.reverse_cons, htokens, List.append_assoc]
        · rcases List.mem_append.mp hu with hmem | hmem
          · exact hparts.behind u hmem
          · rw [List.mem_singleton.mp hmem, Token.offset, hnotes.place]
            exact hreached.dropped_le p hp
    rcases dropped_step hreached hne with hsame | ⟨hmodes, htokens, hdropped⟩
    · rwa [hsame]
    · rw [hdropped]
      refine List.forall_mem_cons.mpr ⟨⟨s.tokens.reverse, [], ?_, ?_, ?_, by simp⟩, hold⟩
      · rw [htokens, List.append_nil]
      · rw [List.getLast?_reverse]
        exact hreached.grounded.outside hmodes
      · intro t ht
        have hmem := List.mem_reverse.mp ht
        exact ⟨hreached.stop_le hmem, (hreached.line_le.2 t hmem).1⟩

/-! ## What is left of a line -/

/-- A step stays on its line, or it notes the break of the line or drops the line. -/
theorem line_step (hne : rest ≠ []) : (s.step rest).place.line = s.place.line ∨
    (s.step rest).place.line = s.place.line + 1 ∧
      ((∃ t, (s.step rest).tokens = t :: s.tokens ∧ t.kind = .newline ∧ t.place = s.place) ∨
        (s.step rest).dropped = s.place :: s.dropped) := by
  have hcomes := comes_next (s := s) hne
  have hline := s.place.line_advance (rest.take (s.next rest).taken)
  rw [s.place_step, hline]
  have hstay (h : '\n' ∉ rest.take (s.next rest).taken) :
      s.place.line + (rest.take (s.next rest).taken).count '\n' = s.place.line := by
    rw [List.count_eq_zero.mpr h, Nat.add_zero]
  unfold step
  generalize s.next rest = e at hcomes hstay ⊢
  cases hcomes with
  | layout _ hlayout => exact .inl (hstay fun hmem => absurd (hlayout _ hmem) (by decide))
  | newline hrest hbreak hlen =>
    refine .inr ⟨?_, .inl ⟨_, rfl, rfl, rfl⟩⟩
    rw [hrest, Event.taken, ← hlen, List.take_left, hbreak.count_eq]
  | token _ hfound =>
    refine .inl (hstay fun hmem => ?_)
    exact absurd ((onLine_token? hfound).endsLine_eq_false hmem) (by decide)
  | @unknownLine _ _ _ text gap tail _ _ hrest htext hgap hlineText hbreak =>
    subst htext hgap
    have htaken : rest.take (text.length + gap.length) = text ++ gap := by
      rw [hrest, ← List.append_assoc, ← List.length_append, List.take_left]
    rw [Event.taken, htaken] at hstay ⊢
    rcases hbreak with rfl | hbreak
    · rw [List.append_nil] at hstay ⊢
      exact .inl (hstay hlineText)
    · refine .inr ⟨?_, .inr rfl⟩
      rw [List.count_append, List.count_eq_zero.mpr hlineText, hbreak.count_eq, Nat.zero_add]
  | unexpected _ hrest hbreak =>
    refine .inl (hstay fun hmem => hbreak ?_)
    rw [hrest] at hmem
    exact (List.mem_singleton.mp hmem).symm

/-- **A line that was passed has a break for a token or was dropped.** -/
theorem Reached.line_told (h : Reached source s rest) (hpos : 1 ≤ n) (hlt : n < s.place.line) :
    (∃ t ∈ s.tokens, t.kind = .newline ∧ t.place.line = n) ∨ ∃ p ∈ s.dropped, p.line = n := by
  induction h with
  | start => exact absurd hlt (Nat.not_lt.mpr hpos)
  | @step s rest hreached hne ih =>
    by_cases hold : n < s.place.line
    · rcases ih hold with ⟨t, ht, htold⟩ | ⟨p, hp, hline⟩
      · exact .inl ⟨t, (s.tokens_isSuffix_step rest).subset ht, htold⟩
      · refine .inr ⟨p, ?_, hline⟩
        rcases dropped_step hreached hne with hsame | ⟨-, -, hdropped⟩
        · rwa [hsame]
        · rw [hdropped]
          exact List.mem_cons_of_mem _ hp
    · -- the step leaves this line
      rcases line_step (s := s) hne with hsame | ⟨hnext, ⟨t, htokens, hkind, hplace⟩ | hdropped⟩
      · exact absurd (hsame ▸ hlt) hold
      · refine .inl ⟨t, htokens ▸ List.mem_cons_self, hkind, ?_⟩
        rw [hplace]
        omega
      · refine .inr ⟨s.place, hdropped ▸ List.mem_cons_self, ?_⟩
        omega

end Scanner

/-! ## The lines of a source -/

/-- A line that was dropped is reported. -/
theorem mem_dropped_iff {p : Place} : p ∈ (Scanner.start.run source.toList).dropped ↔
    ∃ f ∈ (tokenize source).faults, f.dropsLine ∧ f.place = p := by
  simp only [Scanner.dropped, tokenize, List.mem_map, List.mem_filter, List.mem_reverse, and_assoc]

/-- A token and a fault do not reach into each other. -/
theorem disjoint_tokenize (ht : t ∈ (tokenize source).tokens) (hf : f ∈ (tokenize source).faults) :
    t.span.Disjoint f.span := by
  obtain ⟨tiles, htiled, -, htokens, hfaults⟩ := tiled_tokenize source
  have hspans := (htiled.pairwise.imp Or.inl).perm (perm_spans tiles) Span.Disjoint.symm
  rw [htokens, hfaults] at hspans
  exact (List.pairwise_append.mp hspans).2.2 _ (List.mem_map_of_mem ht) _ (List.mem_map_of_mem hf)

/-- **A line that was dropped parts the tokens of a source.** -/
theorem exists_parts_tokenize (hf : f ∈ (tokenize source).faults) (hdrops : f.dropsLine) :
    ∃ pre post, (tokenize source).tokens = pre ++ post ∧ f.place.Parts pre post ∧
      ∀ t ∈ post, f.stop ≤ t.offset := by
  have hreached : Scanner.Reached source.toList (Scanner.start.run source.toList) [] :=
    Scanner.reached_run .start
  obtain ⟨pre, post, htokens, hparts⟩ :=
    hreached.parts f.place (mem_dropped_iff.mpr ⟨f, hf, hdrops, rfl⟩)
  have hsplit : (tokenize source).tokens = pre ++ post := htokens
  refine ⟨pre, post, hsplit, hparts, fun t ht => ?_⟩
  have hmem : t ∈ (tokenize source).tokens := hsplit ▸ List.mem_append_right pre ht
  refine (disjoint_tokenize hmem hf).resolve_left fun hle => ?_
  exact Nat.lt_irrefl _ (Nat.lt_of_lt_of_le ((pairwise_stop_tokenize source).1 t hmem)
    (Nat.le_trans hle (hparts.behind t ht).1))

/-- **A line in front of a token has a break for a token or was dropped.** -/
theorem line_told_tokenize (hpos : 1 ≤ n) (ht : t ∈ (tokenize source).tokens)
    (hlt : n < t.place.line) :
    (∃ u ∈ (tokenize source).tokens, u.kind = .newline ∧ u.place.line = n) ∨
      ∃ f ∈ (tokenize source).faults, f.dropsLine ∧ f.place.line = n := by
  have hreached : Scanner.Reached source.toList (Scanner.start.run source.toList) [] :=
    Scanner.reached_run .start
  have hle := (hreached.line_le.2 t (List.mem_reverse.mp ht)).1
  rcases hreached.line_told hpos (Nat.lt_of_lt_of_le hlt hle) with ⟨u, hu, htold⟩ | ⟨p, hp, hline⟩
  · exact .inl ⟨u, List.mem_reverse.mpr hu, htold⟩
  · obtain ⟨f, hf, hdrops, rfl⟩ := mem_dropped_iff.mp hp
    exact .inr ⟨f, hf, hdrops, hline⟩

end Daybook
