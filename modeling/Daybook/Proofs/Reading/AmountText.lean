import Daybook.Proofs.Reading.Header
import Daybook.Proofs.Written.Amounts

/-!
# The text of an amount

The text of a written amount is put together from its tokens, with one space where something lies
between two of them: layout, or what the tokenizer passed over. Put on a line by itself, it is read
as the same amount again, text included. About `surface_text` and `lower_amount` ([SPEC 4.3]).

* `Token.chunk gap t`: a token with this layout in front of it.
* `shownChunks gap ts`: the tokens as they are shown, with this layout in front.
* `Tree.Amount.InOrder a ts`: the tokens of an amount in the order in which they stand.
* `plainPosting a`: what the line of a posting with this amount says under a first line.

Results:
* `written_shownChunks`, `joinImages_tokensFrom`: what is shown is the text, and has it again.
* `exists_number`: a number of a source has a point or no comma.
* `InOrder.readApart`: **the tokens of an amount stay apart as they are shown.**
* `InOrder.exists_again`: the same words with the same text are an amount that says the same.
* `readWritten_amountTexts`: **the text of an amount is read as the amount.**
-/

namespace Daybook

open Daybook.Tree Lexeme Text

/-! ## Tokens as they are shown -/

/-- The layout that is shown between two tokens. -/
def gapBetween (t u : Token) : List Char := if t.stop < u.offset then [' '] else []

/-- A token with this layout in front of it. -/
def Token.chunk (gap : List Char) (t : Token) : Chunk := ⟨gap, t.kind, t.image.toList, t.payload⟩

/-- Tokens as they are shown, with this layout in front. -/
def shownChunks (gap : List Char) : List Token → List Chunk
  | [] => []
  | [t] => [t.chunk gap]
  | t :: u :: ts => t.chunk gap :: shownChunks (gapBetween t u) (u :: ts)

/-- The two tokens differ at most in their place. -/
structure Token.SameWord (t u : Token) : Prop where
  kind : t.kind = u.kind
  image : t.image = u.image
  payload : t.payload = u.payload

variable {source : String} {gap : List Char} {t u : Token} {ts us vs : List Token} {p : Place}

theorem Token.SameWord.text (h : t.SameWord u) : t.text = u.text := by
  rw [Token.text, Token.text, h.payload, h.image]

theorem gapBetween_mem (t u : Token) : gapBetween t u ∈ manyOf isLayout := by
  unfold gapBetween
  split
  · exact space_mem_layout
  · exact nil_mem_manyOf _

theorem toList_gapBetween (t u : Token) :
    (if t.stop < u.offset then " " else "").toList = gapBetween t u := by
  unfold gapBetween
  split <;> rfl

theorem byteLength_gapBetween_pos (t u : Token) :
    0 < byteLength (gapBetween t u) ↔ t.stop < u.offset := by
  unfold gapBetween
  split
  · next hlt => exact ⟨fun _ => hlt, fun _ => by decide⟩
  · next hle => exact ⟨fun hpos => absurd hpos (Nat.lt_irrefl 0), fun hlt => absurd hlt hle⟩

theorem shownChunks_cons (gap : List Char) (t : Token) (ts : List Token) :
    ∃ more, shownChunks gap (t :: ts) = t.chunk gap :: more := by
  cases ts <;> exact ⟨_, rfl⟩

/-- What is shown is the text of the tokens. -/
theorem written_shownChunks (hne : ts ≠ []) :
    written (shownChunks gap ts) = gap ++ (Written.joinImages ts).toList := by
  induction gap, ts using shownChunks.induct with
  | case1 => exact absurd rfl hne
  | case2 gap t => simp [shownChunks, written, Token.chunk, Written.joinImages]
  | case3 gap t u ts ih =>
    have hmore := ih (List.cons_ne_nil u ts)
    rw [shownChunks, Written.joinImages, String.toList_append, String.toList_append,
      toList_gapBetween]
    simp only [written, List.flatMap_cons, Token.chunk] at hmore ⊢
    rw [hmore]
    simp

/-- The tokens of what is shown are the same but for their places. -/
theorem sameWords_tokensFrom (p : Place) (gap : List Char) (ts : List Token) :
    List.Forall₂ Token.SameWord (tokensFrom p (shownChunks gap ts)) ts := by
  induction gap, ts using shownChunks.induct generalizing p with
  | case1 => exact .nil
  | case2 gap t => exact .cons ⟨rfl, String.ofList_toList, rfl⟩ .nil
  | case3 gap t u ts ih => exact .cons ⟨rfl, String.ofList_toList, rfl⟩ (ih _)

/-- They have the same text. -/
theorem joinImages_tokensFrom (p : Place) (gap : List Char) (ts : List Token) :
    Written.joinImages (tokensFrom p (shownChunks gap ts)) = Written.joinImages ts := by
  induction gap, ts using shownChunks.induct generalizing p with
  | case1 => rfl
  | case2 gap t => exact String.ofList_toList
  | case3 gap t u ts ih =>
    let first : Token := ⟨t.kind, String.ofList t.image.toList, p.advance gap, t.payload⟩
    let q := (p.advance gap).advance t.image.toList
    obtain ⟨more, hmore⟩ := shownChunks_cons (gapBetween t u) u ts
    have hnext := ih q
    rw [hmore] at hnext
    have hgap : first.stop < (q.advance (gapBetween t u)).offset ↔ t.stop < u.offset := by
      have hstop : first.stop = q.offset := by
        simp [first, q, Token.stop, Token.offset, Token.length, Place.offset_advance]
      rw [hstop, Place.offset_advance q, Nat.lt_add_right_iff_pos, byteLength_gapBetween_pos]
    rw [shownChunks, hmore]
    show String.ofList t.image.toList ++
      (if first.stop < (q.advance (gapBetween t u)).offset then " " else "") ++
        Written.joinImages (tokensFrom q (u.chunk (gapBetween t u) :: more)) = _
    rw [hnext, String.ofList_toList, Written.joinImages]
    simp only [hgap]

/-! ## The tokens of amounts in a source -/

/-- Numbers are found by no rule. -/
theorem amountToken?_of_number {mode : Mode} {v : View} {found : Match} {move : Move}
    (h : mode.token? v = some (.number, found, move)) :
    amountToken? v.rest = some (.number, found) := by
  rcases token?_cases h with ⟨rule, hrule, -, hkind, -⟩ | ⟨-, hamount, -⟩
  · have hnone : mode.rules.all (·.kind ≠ .number) := by cases mode <;> rfl
    have hother := List.all_eq_true.mp hnone rule hrule
    exact absurd hkind (by simpa using hother)
  · exact hamount

/-- A minus by itself. -/
theorem chunk_of_dash (h : t ∈ (tokenize source).tokens) (hkind : t.kind = .dash)
    (gap : List Char) : t.chunk gap = .dash gap := by
  obtain ⟨htext, hmeans⟩ := mem_textsWith_of_mem_tokenize h
  rw [hkind] at htext hmeans
  have himage : t.image.toList = ['-'] := htext
  rw [Token.chunk, himage, hkind, hmeans.eq_none rfl, Chunk.dash]

/-- A commodity carries its text without quotes. -/
theorem chunk_of_commodity (h : t ∈ (tokenize source).tokens) (hkind : t.kind = .commodity) :
    t.image.toList ∈ Kind.commodity.texts ∧
      ∀ gap, t.chunk gap = .commodity gap t.image.toList := by
  obtain ⟨htext, hmeans⟩ := mem_textsWith_of_mem_tokenize h
  rw [hkind] at htext hmeans
  refine ⟨htext, fun gap => ?_⟩
  rw [Token.chunk, Chunk.commodity, hkind]
  cases hp : t.payload with
  | none => rw [hp] at hmeans; exact absurd hmeans Bool.false_ne_true
  | some payload =>
    rw [hp] at hmeans
    cases payload with
    | segments names => exact absurd hmeans.1 (by decide)
    | text inner => rw [hmeans.2]

/-- **A number of a source has a point or no comma.** -/
theorem exists_number (h : t ∈ (tokenize source).tokens) (hkind : t.kind = .number) :
    ∃ minus digits, digits ∈ numberText ∧ (',' ∈ digits → '.' ∈ digits) ∧
      ∀ gap, t.chunk gap = .number gap (signText minus) digits := by
  obtain ⟨s, rest, -, hne, hnotes⟩ := Scanner.exists_notes_of_mem_tokenize h
  obtain ⟨found, move, hnext, hpayload, hfound⟩ := hnotes.exists_found hne (by rw [hkind]; decide)
  have hamount : amountToken? rest = some (.number, found) :=
    amountToken?_of_number (hkind ▸ hfound)
  obtain ⟨_, ahead, rfl, ⟨⟨sign, hsign, digits, hdigits, rfl⟩, hmeans⟩, -, hlength⟩ :=
    takes_amountToken? hamount
  have himage : t.image.toList = sign ++ digits := by
    rw [hnotes.image, hnext, Event.taken, ← hlength, List.take_left]
  have hnone : t.payload = none := hpayload.trans (hmeans.eq_none rfl)
  obtain ⟨minus, rfl⟩ : ∃ minus, sign = signText minus := by
    rcases hsign with rfl | rfl
    · exact ⟨false, rfl⟩
    · exact ⟨true, rfl⟩
  refine ⟨minus, digits, hdigits, point_of_amountToken? minus hdigits hamount hlength.symm,
    fun gap => ?_⟩
  rw [Token.chunk, himage, hkind, hnone, Chunk.number]

/-! ## Amounts in order -/

/-- The tokens of an amount in the order in which they stand. -/
inductive Tree.Amount.InOrder : Tree.Amount → List Token → Prop
  | number {n : Token} (hn : n.kind = .number) : InOrder ⟨none, none, n⟩ [n]
  | commodityFirst {c n : Token} (hc : c.kind = .commodity) (hn : n.kind = .number) :
    InOrder ⟨none, some c, n⟩ [c, n]
  | numberFirst {c n : Token} (hc : c.kind = .commodity) (hn : n.kind = .number) :
    InOrder ⟨none, some c, n⟩ [n, c]
  | dash {d c n : Token} (hd : d.kind = .dash) (hc : c.kind = .commodity) (hn : n.kind = .number) :
    InOrder ⟨some d, some c, n⟩ [d, c, n]

theorem Tree.Amount.mem_spellings_iff {a : Tree.Amount} : us ∈ a.spellings ↔ a.InOrder us := by
  constructor
  · intro h
    obtain ⟨dash, commodity, n⟩ := a
    match dash, commodity with
    | none, none =>
      obtain ⟨rfl, hn⟩ := mem_spellKind.mp h
      exact .number hn
    | none, some c =>
      rcases h with ⟨_, ⟨rfl, hc⟩, _, ⟨rfl, hn⟩, rfl⟩ | ⟨_, ⟨rfl, hn⟩, _, ⟨rfl, hc⟩, rfl⟩
      · exact .commodityFirst (of_decide_eq_true hc) (of_decide_eq_true hn)
      · exact .numberFirst (of_decide_eq_true hc) (of_decide_eq_true hn)
    | some d, some c =>
      obtain ⟨_, ⟨_, ⟨rfl, hd⟩, _, ⟨rfl, hc⟩, rfl⟩, _, ⟨rfl, hn⟩, rfl⟩ := h
      exact .dash (of_decide_eq_true hd) (of_decide_eq_true hc) (of_decide_eq_true hn)
    | some d, none => exact h.elim
  · intro h
    cases h with
    | number hn => exact mem_spellKind.mpr ⟨rfl, hn⟩
    | commodityFirst hc hn =>
      exact .inl ⟨_, mem_spellKind.mpr ⟨rfl, hc⟩, _, mem_spellKind.mpr ⟨rfl, hn⟩, rfl⟩
    | numberFirst hc hn =>
      exact .inr ⟨_, mem_spellKind.mpr ⟨rfl, hn⟩, _, mem_spellKind.mpr ⟨rfl, hc⟩, rfl⟩
    | dash hd hc hn =>
      exact ⟨_, ⟨_, mem_spellKind.mpr ⟨rfl, hd⟩, _, mem_spellKind.mpr ⟨rfl, hc⟩, rfl⟩, _,
        mem_spellKind.mpr ⟨rfl, hn⟩, rfl⟩

namespace Tree.Amount.InOrder

variable {a : Tree.Amount}

/-- The text of an amount is that of its tokens in order. -/
theorem text (h : a.InOrder us) (hordered : us.Pairwise fun t u => t.offset < u.offset) :
    Written.amountText a = Written.joinImages us := by
  show Written.joinImages (a.tokens.mergeSort _) = _
  rw [mergeSort_eq_of_perm (a.rearranges us (mem_spellings_iff.mpr h)) hordered]

/-- **Tokens of a source that are an amount stay apart as they are shown.** -/
theorem readApart (h : a.InOrder us) (hus : ∀ t ∈ us, t ∈ (tokenize source).tokens)
    (hgap : gap ∈ manyOf isLayout) : ReadApart ['\n'] (shownChunks gap us) := by
  cases h with
  | @number n hn =>
    obtain ⟨minus, digits, hdigits, hcommas, hnumber⟩ := exists_number (hus n (by simp)) hn
    rw [shownChunks, hnumber]
    exact ⟨readsIn_number hgap minus hdigits hcommas (by rintro _ ⟨⟩; rfl), trivial⟩
  | @commodityFirst c n hc hn =>
    obtain ⟨htext, hcommodity⟩ := chunk_of_commodity (hus c (by simp)) hc
    obtain ⟨minus, digits, hdigits, hcommas, hnumber⟩ := exists_number (hus n (by simp)) hn
    rw [shownChunks, shownChunks, hcommodity, hnumber]
    exact readApart_commodity_number hgap (gapBetween_mem c n) htext hdigits minus hcommas
  | @numberFirst c n hc hn =>
    obtain ⟨htext, hcommodity⟩ := chunk_of_commodity (hus c (by simp)) hc
    obtain ⟨minus, digits, hdigits, hcommas, hnumber⟩ := exists_number (hus n (by simp)) hn
    rw [shownChunks, shownChunks, hcommodity, hnumber]
    exact readApart_number_commodity hgap (gapBetween_mem n c) htext hdigits hcommas minus
  | @dash d c n hd hc hn =>
    obtain ⟨htext, hcommodity⟩ := chunk_of_commodity (hus c (by simp)) hc
    obtain ⟨minus, digits, hdigits, hcommas, hnumber⟩ := exists_number (hus n (by simp)) hn
    rw [shownChunks, shownChunks, shownChunks, chunk_of_dash (hus d (by simp)) hd, hcommodity,
      hnumber]
    exact readApart_dash_number (gapBetween_mem d c) (gapBetween_mem c n) htext hdigits minus hcommas
      hgap

/-- The same words are an amount that says the same, but for its text. -/
theorem exists_sameWords (h : a.InOrder us) (hwords : List.Forall₂ Token.SameWord vs us) :
    ∃ b : Tree.Amount, b.InOrder vs ∧ b.dash.isSome = a.dash.isSome ∧
      b.commodity.map Token.text = a.commodity.map Token.text ∧ b.number.image = a.number.image := by
  cases h with
  | number hn =>
    obtain ⟨n', _, hword, ⟨⟩, rfl⟩ := List.forall₂_cons_right_iff.mp hwords
    exact ⟨_, .number (hword.kind.trans hn), rfl, rfl, hword.image⟩
  | commodityFirst hc hn =>
    obtain ⟨c', _, hfirst, hmore, rfl⟩ := List.forall₂_cons_right_iff.mp hwords
    obtain ⟨n', _, hsecond, ⟨⟩, rfl⟩ := List.forall₂_cons_right_iff.mp hmore
    exact ⟨_, .commodityFirst (hfirst.kind.trans hc) (hsecond.kind.trans hn), rfl,
      congrArg some hfirst.text, hsecond.image⟩
  | numberFirst hc hn =>
    obtain ⟨n', _, hfirst, hmore, rfl⟩ := List.forall₂_cons_right_iff.mp hwords
    obtain ⟨c', _, hsecond, ⟨⟩, rfl⟩ := List.forall₂_cons_right_iff.mp hmore
    exact ⟨_, .numberFirst (hsecond.kind.trans hc) (hfirst.kind.trans hn), rfl,
      congrArg some hsecond.text, hfirst.image⟩
  | dash hd hc hn =>
    obtain ⟨d', _, hfirst, hmore, rfl⟩ := List.forall₂_cons_right_iff.mp hwords
    obtain ⟨c', _, hsecond, hlast, rfl⟩ := List.forall₂_cons_right_iff.mp hmore
    obtain ⟨n', _, hthird, ⟨⟩, rfl⟩ := List.forall₂_cons_right_iff.mp hlast
    exact ⟨_, .dash (hfirst.kind.trans hd) (hsecond.kind.trans hc) (hthird.kind.trans hn), rfl,
      congrArg some hsecond.text, hthird.image⟩

/-- **The same words with the same text are an amount that says the same.** -/
theorem exists_again (h : a.InOrder us) (hwords : List.Forall₂ Token.SameWord vs us)
    (htext : Written.joinImages vs = Written.joinImages us)
    (hus : us.Pairwise fun t u => t.offset < u.offset)
    (hvs : vs.Pairwise fun t u => t.offset < u.offset) :
    ∃ b : Tree.Amount, b.InOrder vs ∧ Written.Amount.ofTree b = Written.Amount.ofTree a := by
  obtain ⟨b, hb, hdash, hcommodity, hnumber⟩ := h.exists_sameWords hwords
  have htexts : Written.amountText b = Written.amountText a := by
    rw [hb.text hvs, h.text hus, htext]
  refine ⟨b, hb, ?_⟩
  simp only [Written.Amount.ofTree, hdash, hnumber, htexts]
  rw [hcommodity]

end Tree.Amount.InOrder

/-! ## Reading the text of an amount -/

/-- What is written by the first line `2000/01/01 x` and under it the line of a posting to the
account `A` with this amount. -/
def plainPosting (a : Written.Amount) : Written.Transaction where
  date := "2000/01/01"
  secondDate := none
  status := .unmarked
  chequeNumber := none
  description := some (.plain "x")
  comment := none
  lines := [.posting ⟨.unmarked, ⟨.real, ["A"]⟩, some a, none, none, none⟩]

/-- The tokens of the line that shows some tokens, if they stay apart. -/
theorem tokenize_shown (hne : us ≠ []) (h : ReadApart ['\n'] (shownChunks [' ', ' '] us)) :
    ∃ p, tokenize ("2000/01/01 x\n  A  " ++ Written.joinImages us ++ "\n") =
      ⟨(tokenize (String.ofList plainLine)).tokens ++ postingTokens p (shownChunks [' ', ' '] us),
        (tokenize (String.ofList plainLine)).faults⟩ := by
  have hwritten : written (shownChunks [' ', ' '] us) =
      [' ', ' '] ++ (Written.joinImages us).toList := written_shownChunks hne
  have hsource : "2000/01/01 x\n  A  " ++ Written.joinImages us ++ "\n" = String.ofList
      (plainLine ++ ([' ', ' '] ++ 'A' :: (written (shownChunks [' ', ' '] us) ++ ['\n']))) := by
    have hdivide : "2000/01/01 x\n  A  ".toList = plainLine ++ [' ', ' ', 'A', ' ', ' '] := by
      decide +kernel
    rw [hwritten, ← String.toList_inj]
    simp [hdivide]
  rw [hsource]
  exact ⟨_, tokenize_posting wholeLines_plainLine h (by rw [hwritten]; rfl)⟩

/-- **An amount that is told by tokens of a source is read from its text.** -/
theorem readWritten_of_told {a : Written.Amount} (h : Told SaysAmount (tokenize source).tokens a) :
    ∃ span, readWritten ("2000/01/01 x\n  A  " ++ a.text ++ "\n") =
      .ok ⟨⟨[⟨.transaction (plainPosting a), span⟩]⟩, [], []⟩ := by
  obtain ⟨us, hsub, tree, hus, rfl⟩ := h
  have horder := Tree.Amount.mem_spellings_iff.mp hus
  have hordered := (pairwise_offset_tokenize source).sublist hsub
  have htext : (Written.Amount.ofTree tree).text = Written.joinImages us := horder.text hordered
  have hne : us ≠ [] := by cases horder <;> exact List.cons_ne_nil _ _
  have hgap : [' ', ' '] ∈ manyOf isLayout := List.all_eq_true.mp (by decide)
  obtain ⟨p, hstream⟩ := tokenize_shown hne (horder.readApart hsub.subset hgap)
  rw [htext]
  let amount := (p.advance [' ', ' ']).advance ['A']
  let vs := tokensFrom amount (shownChunks [' ', ' '] us)
  have hvs : vs.Pairwise fun t u => t.offset < u.offset := by
    have hall := pairwise_offset_tokenize ("2000/01/01 x\n  A  " ++ Written.joinImages us ++ "\n")
    rw [hstream] at hall
    have hline := (List.pairwise_append.mp hall).2.1
    exact (List.pairwise_append.mp (List.pairwise_append.mp hline).1).2.1
  obtain ⟨b, hb, hsame⟩ := horder.exists_again (sameWords_tokensFrom amount [' ', ' '] us)
    (joinImages_tokensFrom amount [' ', ' '] us) hordered hvs
  obtain ⟨span, hread⟩ := readWritten_line hstream
    (postingTokens_mem_spellings (Tree.Amount.mem_spellings_iff.mpr hb))
  refine ⟨span, hread.trans ?_⟩
  rw [← hsame]
  rfl

/-- **The text of an amount is read as the amount**: on the line of a posting nothing of it is
passed over, and sign, number, commodity and text are the same. -/
theorem readWritten_amountTexts {source : String} {r : Reading Written.Journal}
    (h : readWritten source = .ok r) :
    ∀ a ∈ r.result.amounts, ∃ span,
      readWritten ("2000/01/01 x\n  A  " ++ a.text ++ "\n") =
        .ok ⟨⟨[⟨.transaction (plainPosting a), span⟩]⟩, [], []⟩ :=
  fun _ ha => readWritten_of_told (told_of_readWritten (fun _ _ => tells_item) h ha)

/-- A minus, a commodity in quotes and a number, with something between them that is passed over. -/
theorem readWritten_amountTexts_quoted :
    ∃ r, readWritten "P 2024/1/31 X -\"a b\"~1,000.50\n" = .ok r ∧
      r.result.amounts = [⟨.negative, "1,000.50", some "a b", "-\"a b\" 1,000.50"⟩] ∧
      ∃ span, readWritten ("2000/01/01 x\n  A  " ++ "-\"a b\" 1,000.50" ++ "\n") =
        .ok ⟨⟨[⟨.transaction (plainPosting
          ⟨.negative, "1,000.50", some "a b", "-\"a b\" 1,000.50"⟩), span⟩]⟩, [], []⟩ := by
  let d : Token := ⟨.dash, "-", ⟨14, 1, 15⟩, none⟩
  let c : Token := ⟨.commodity, "\"a b\"", ⟨15, 1, 16⟩, some (.text "a b")⟩
  let n : Token := ⟨.number, "1,000.50", ⟨21, 1, 22⟩, none⟩
  let amount : Tree.Amount := ⟨some d, some c, n⟩
  have htree : readTree "P 2024/1/31 X -\"a b\"~1,000.50\n" = ⟨[⟨.price
      ⟨⟨.priceKeyword, "P", ⟨0, 1, 1⟩, none⟩, ⟨.date, "2024/1/31", ⟨2, 1, 3⟩, none⟩,
        ⟨.commodity, "X", ⟨12, 1, 13⟩, some (.text "X")⟩, amount, none,
        ⟨.newline, "\n", ⟨29, 1, 30⟩, none⟩⟩, ⟨0, 30⟩⟩],
      [⟨⟨20, 1, 21⟩, 1, .unexpected .priceDirective⟩], []⟩ := by decide +kernel
  have htext : Written.amountText amount = "-\"a b\" 1,000.50" := by
    have horder : amount.InOrder [d, c, n] := .dash rfl rfl rfl
    rw [horder.text (by decide)]
    decide +kernel
  have hamount : Written.Amount.ofTree amount =
      ⟨.negative, "1,000.50", some "a b", "-\"a b\" 1,000.50"⟩ := by
    have hsplit : Written.splitMinus amount.number.image = (false, "1,000.50") := by decide +kernel
    simp only [Written.Amount.ofTree, hsplit, htext]
    rfl
  have hread : readWritten "P 2024/1/31 X -\"a b\"~1,000.50\n" = .ok ⟨⟨[⟨.price
      ⟨"2024/1/31", "X", .ofTree amount, none⟩, ⟨0, 30⟩⟩]⟩,
      [⟨⟨20, 1, 21⟩, 1, .unexpected .priceDirective⟩], []⟩ := by
    rw [readWritten, htree]
    rfl
  rw [hamount] at hread
  refine ⟨_, hread, rfl, ?_⟩
  exact readWritten_amountTexts hread
    ⟨.negative, "1,000.50", some "a b", "-\"a b\" 1,000.50"⟩ (List.mem_singleton_self _)

end Daybook
