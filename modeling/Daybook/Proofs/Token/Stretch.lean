import Daybook.Proofs.Token.Cut
import Daybook.Proofs.Token.Row

/-!
# Stretches of a source

A stretch of the tokens stands in a stretch of the source, from the start of its first token to the
end of its last. If that text is read by itself, the same tokens are found: behind whole lines the
tokenizer starts afresh, and it does not look behind the text if that ends with its line, or behind
a token of a line that declares a commodity.

* `Stretch front inside back s e taken`: from the state `s` to `e` the tokenizer reads `inside` and
  notes the tokens `taken`.
* `Alone inside back s e`: what is behind the stretch makes no difference to it.

Results:
* `exists_stretch`: every stretch of the tokens stands in a stretch of the source.
* `Stretch.run_of_wholeLines`, `Stretch.run_of_commodity`: whole lines, and a line that declares a
  commodity, are read without what is behind them.
* `Stretch.tokens_behind`: **the text of a stretch has the same tokens by itself.**
-/

namespace Daybook

open Lexeme Text

namespace Scanner

variable {front inside back : List Char} {s e : Scanner} {taken : List Token} {kind : Kind}
  {found : Match} {move : Move}

/-- Between the states `s` and `e` the tokenizer reads `inside`, and notes the tokens `taken`. -/
structure Stretch (front inside back : List Char) (s e : Scanner) (taken : List Token) : Prop where
  reached : Reached (front ++ (inside ++ back)) s (inside ++ back)
  reached_back : Reached (front ++ (inside ++ back)) e back
  tokens : e.tokens = taken.reverse ++ s.tokens

/-! ## Where a stretch lies -/

/-- The first token of a stretch stands at its start. -/
structure Begins (s : Scanner) (front rest : List Char) (t : Token) : Prop where
  place : t.place = Place.start.advance front
  next : t.kind ≠ .newline → ∃ found move, s.next rest = .token t.kind found move

/-- The last token of a stretch stands at its end. -/
structure Finishes (front inside back : List Char) (s e : Scanner) (t : Token) : Prop where
  stop : t.stop = byteLength (front ++ inside)
  wholeLines : t.kind = .newline → inside.getLast? = some '\n'
  ends : t.kind ≠ .newline → t.kind ≠ .tagName → Ends back e s inside

theorem Notes.begins {rest : List Char} {t : Token} (h : s.Notes rest t)
    (hplace : s.place = Place.start.advance front) : s.Begins front rest t := by
  refine ⟨h.place.trans hplace, fun hkind => ?_⟩
  obtain ⟨found, move, hnext, -⟩ := h.next.resolve_left fun hbreak => hkind hbreak.2
  exact ⟨found, move, hnext⟩

/-- The step that notes the last token ends the stretch. -/
theorem Notes.finishes {u : Scanner} {cs rest : List Char} {t : Token} (h : u.Notes rest t)
    (hne : rest ≠ []) (hreads : Reads rest u s cs)
    (hplace : u.place = Place.start.advance (front ++ cs)) :
    Finishes front (cs ++ rest.take (u.next rest).taken) (rest.drop (u.next rest).taken) s
      (u.step rest) t := by
  refine ⟨?_, fun hkind => ?_, fun hbreak hkind => ?_⟩
  · have hlength : t.length = byteLength (rest.take (u.next rest).taken) := by
      rw [Token.length, h.image]
    have hoffset : t.offset = byteLength (front ++ cs) := by
      rw [Token.offset, h.place, hplace, Place.offset_advance]
      exact Nat.zero_add _
    rw [Token.stop, hoffset, hlength, ← byteLength_append, List.append_assoc]
  · rw [List.getLast?_append, h.getLast?_of_newline hne hkind]
    rfl
  · obtain ⟨found, move, hnext, -⟩ := h.next.resolve_left fun hnewline => hbreak hnewline.2
    have hle := taken_next_le (s := u) hne
    rw [hnext] at hle ⊢
    exact hreads.ends hnext hkind hle

/-- **Every stretch of the tokens stands in a stretch of the source.** -/
theorem exists_stretch {source : String} {pre post : List Token} {first last : Token}
    (h : (tokenize source).tokens = pre ++ (taken ++ post)) (hfirst : first ∈ taken.head?)
    (hlast : last ∈ taken.getLast?) :
    ∃ front inside back s e, source.toList = front ++ (inside ++ back) ∧
      Stretch front inside back s e taken ∧ s.Begins front (inside ++ back) first ∧
      Finishes front inside back s e last := by
  have hfinal : Reached source.toList (start.run source.toList) [] := reached_run .start
  have htokens : (start.run source.toList).tokens = (pre ++ (taken ++ post)).reverse := by
    rw [← h, tokenize, List.reverse_reverse]
  obtain ⟨more, hmore⟩ := List.head?_eq_some_iff.mp hfirst
  obtain ⟨init, hinit⟩ := List.getLast?_eq_some_iff.mp hlast
  -- the states in front of the first token and in front of the last
  have hbefore : (start.run source.toList).tokens =
      post.reverse ++ more.reverse ++ first :: pre.reverse := by rw [htokens, hmore]; simp
  have hbehind : (start.run source.toList).tokens =
      post.reverse ++ last :: (init.reverse ++ pre.reverse) := by rw [htokens, hinit]; simp
  obtain ⟨s, rest, hs, -, hstokens, hsnotes⟩ := hfinal.exists_notes hbefore
  obtain ⟨u, rest', hu, hne', hutokens, hunotes⟩ := hfinal.exists_notes hbehind
  obtain ⟨cs, hcs, hreads⟩ : ∃ cs, rest = cs ++ rest' ∧ Reads rest' u s cs := by
    rcases hu.linear hs with hforward | ⟨cs, hcs, hback⟩
    · exact hforward
    · cases hback with
      | nil => exact ⟨[], hcs.symm, .nil⟩
      | step _ _ hmore =>
        -- behind the last token there are more tokens than in front of the first
        have hlen := hmore.tokens_isSuffix.length_le
        rw [← hcs, hunotes.tokens, hutokens, hstokens] at hlen
        simp only [List.length_cons, List.length_append, List.length_reverse] at hlen
        omega
  obtain ⟨front, hfront, hplace, -⟩ := exists_passed hs
  obtain ⟨passed, hpassed, hplace', -⟩ := exists_passed hu
  have hsplit := List.take_append_drop (u.next rest').taken rest'
  have hinside : cs ++ rest'.take (u.next rest').taken ++ rest'.drop (u.next rest').taken = rest := by
    rw [List.append_assoc, hsplit, hcs]
  have hsame : passed = front ++ cs := by
    rw [← hfront, hcs, ← List.append_assoc] at hpassed
    exact List.append_cancel_right hpassed
  refine ⟨front, cs ++ rest'.take (u.next rest').taken, rest'.drop (u.next rest').taken, s,
    u.step rest', by rw [hinside, hfront], ⟨?_, ?_, ?_⟩, ?_,
    hunotes.finishes hne' hreads (hsame ▸ hplace')⟩
  · rw [hinside, hfront]
    exact hs
  · rw [hinside, hfront]
    exact hu.step hne'
  · rw [hunotes.tokens, hutokens, hstokens, hinit]
    simp
  · rw [hinside]
    exact hsnotes.begins hplace

/-- A stretch on one line holds no line feed. -/
theorem Stretch.not_mem_of_line_eq (h : Stretch front inside back s e taken) {first last : Token}
    (hfirst : first.place = Place.start.advance front) (hlast : last ∈ taken.getLast?)
    (hkind : last.kind ≠ .newline) (hline : first.place.line = last.place.line) :
    '\n' ∉ inside := by
  obtain ⟨passed, hpassed, hplace, -⟩ := exists_passed h.reached_back
  rw [← List.append_assoc] at hpassed
  obtain rfl : passed = front ++ inside := List.append_cancel_right hpassed
  have hhead : last ∈ e.tokens.head? := by
    obtain ⟨init, hinit⟩ := List.getLast?_eq_some_iff.mp hlast
    rw [h.tokens, hinit]
    simp
  have hsame := (h.reached_back.inRow.last last hhead hkind).1
  rw [hplace, Place.advance_append, Place.line_advance, ← hfirst, hline] at hsame
  rw [← List.count_eq_zero]
  omega

/-! ## Stretches that are read by themselves -/

/-- The text `inside` leads from `s` to `e` with nothing behind it, and starts with the same step.
-/
structure Alone (inside back : List Char) (s e : Scanner) : Prop where
  run : s.run inside = e
  next : s.next (inside ++ back) = s.next inside

/-- Behind whole lines the tokenizer stands at a fresh start. -/
theorem Stretch.eq_run (h : Stretch front inside back s e taken) (hfront : WholeLines front) :
    s = start.run front :=
  h.reached.unique (Reached.start.run_append hfront)

/-- **Whole lines are read by themselves.** -/
theorem Stretch.run_of_wholeLines (h : Stretch front inside back s e taken)
    (hinside : WholeLines inside) (hne : inside ≠ []) : Alone inside back s e :=
  ⟨(h.reached.run_append hinside).unique h.reached_back, s.next_append hinside hne back⟩

/-- **A line that declares a commodity is read by itself**, up to any of its tokens. -/
theorem Stretch.run_of_commodity (h : Stretch front inside back s e taken)
    (hfront : WholeLines front) (hends : Ends back e s inside)
    (hnext : s.next (inside ++ back) = .token .commodityKeyword found move)
    (hmore : 1 < taken.length) (hline : '\n' ∉ inside) : Alone inside back s e := by
  have hmodes : s.modes = .start := by
    rw [h.eq_run hfront]
    exact (isBase_run_start hfront).fresh.modes
  have hlt : found.length < inside.length := by
    cases hends with
    | step hlt =>
      rw [hnext] at hlt
      exact hlt
    | last _ _ _ he =>
      -- one step notes one token at most
      have hlen := congrArg List.length h.tokens
      rw [← he, List.length_append, List.length_reverse] at hlen
      rcases s.tokens_step (inside ++ back) with hsame | ⟨t, hnotes⟩
      · rw [hsame] at hlen
        omega
      · rw [hnotes.tokens, List.length_cons] at hlen
        omega
  exact ⟨hends.run_commodity hmodes hnext hlt hline,
    (hends.next_commodity (by rw [hmodes]; rfl) hnext hlt).1⟩

/-- **The text of a stretch has the same tokens by itself**, if what is behind it makes no
difference and its first token opens an item. -/
theorem Stretch.tokens_behind (h : Stretch front inside back s e taken) (hfront : WholeLines front)
    (halone : Alone inside back s e)
    (hnext : s.next (inside ++ back) = .token kind found move) (hopens : kind.opensItem) :
    (tokenize (String.ofList inside)).tokens.map (Token.behind front) = taken := by
  have hs := h.eq_run hfront
  have hbase : IsBase front s := hs ▸ isBase_run_start hfront
  have hnone : ∀ t ∈ start.opened?, t.kind ≠ .indent := by simp [opened?, start]
  have hfirst : start.next inside = .token kind found move := by
    rw [← hnext, halone.next, ← hbase.next_behind grounded_start hnone, hbase.behind_start]
  have hne : kind ≠ .newline := by
    rintro rfl
    exact absurd hopens (by decide)
  -- the first token of the text opens an item
  have hopened : ∀ t ∈ (start.run inside).opened?, t.kind ≠ .indent := by
    cases inside with
    | nil => rwa [run_nil]
    | cons c cs =>
      have hfound : (start.step (c :: cs)).opened? =
          some ⟨kind, String.ofList ((c :: cs).take found.length), .start, found.payload⟩ := by
        simp only [step, hfirst, record, opened?, pass, note, List.reverse_cons, List.find?_append]
        simp [start, hne]
      rw [run_cons]
      intro u hu
      rw [Option.mem_unique hu (opened?_run hfound)]
      rintro rfl
      exact absurd hopens (by decide)
  have hbehind := hbase.run_behind grounded_start hopened
  rw [hbase.behind_start, halone.run] at hbehind
  have htokens : (start.run inside).tokens.map (Token.behind front) = taken.reverse := by
    have happend := h.tokens
    rw [hbehind] at happend
    exact List.append_cancel_right happend
  rw [tokenize, String.toList_ofList, List.map_reverse, htokens, List.reverse_reverse]

end Scanner

end Daybook
