import Daybook.Proofs.Lexeme.Whole
import Daybook.Proofs.Token.Accounts
import Daybook.Proofs.Token.Cut
import Daybook.Proofs.Token.Indented
import Daybook.Proofs.Token.Language

/-!
# The line of a posting, chunk by chunk

Which tokens a line has is not told by its spaces: a commodity may touch its number, and a minus its
number or its commodity. A line with an account and chunks behind it is read as one token for each
chunk, if each of them is taken whole in front of what is behind it.

* `Chunk`: a token with the layout in front of it; `written chunks` is the text of chunks.
* `Chunk.ReadsIn ahead c`: the chunk is taken whole in front of `ahead`.
* `ReadApart after chunks`: each chunk is taken whole in front of the next ones and `after`.
* `Scanner.beyond s chunks modes`: behind chunks, in these modes.
* `postingTokens p chunks`: the tokens of the line, if it starts at `p`.

Results:
* `amountToken?_signed`, `amountToken?_signed_eq_none`: the sign of a number is taken with it, or
  not at all.
* `readsIn_commodity`, `readsIn_number`, `readsIn_dash`: what is taken whole.
* `readApart_commodity`, `readApart_dash`: what may touch the number behind it.
* `readApart_commodity_number`, `readApart_dash_number`, `readApart_number_commodity`: the chunks of
  an amount stay apart.
* `run_beyond`: a chunk is passed where a token comes next behind its layout.
* `run_chunks`: **chunks are read one by one.**
* `tokenize_posting`: **the line of a posting adds its tokens and no fault.**
* `faults_tokenize_comma`: a number with a comma and no point is a fault.
-/

namespace Daybook

open Lexeme Text

/-! ## Chunks -/

/-- A token as it is written, with the layout in front of it. -/
structure Chunk where
  gap : List Char
  kind : Kind
  text : List Char
  payload : Option Payload := none

/-- A commodity. -/
def Chunk.commodity (gap text : List Char) : Chunk :=
  ⟨gap, .commodity, text, some (.text (String.ofList (Kind.commodity.inner text)))⟩

/-- The sign of a number. -/
def signText (minus : Bool) : List Char := if minus then ['-'] else []

/-- A number, with its sign in front of it. -/
def Chunk.number (gap sign digits : List Char) : Chunk := ⟨gap, .number, sign ++ digits, none⟩

/-- A minus by itself. -/
def Chunk.dash (gap : List Char) : Chunk := ⟨gap, .dash, ['-'], none⟩

/-- The text of chunks. -/
def written (chunks : List Chunk) : List Char := chunks.flatMap fun c => c.gap ++ c.text

/-- The tokens of chunks, if the first layout starts at this place. -/
def tokensFrom (p : Place) : List Chunk → List Token
  | [] => []
  | c :: cs =>
    let start := p.advance c.gap
    ⟨c.kind, String.ofList c.text, start, c.payload⟩ :: tokensFrom (start.advance c.text) cs

/-- The tokens of the line of a posting to the account `A`, if the line starts at this place. -/
def postingTokens (p : Place) (chunks : List Chunk) : List Token :=
  let account := p.advance [' ', ' ']
  let amount := account.advance ['A']
  [⟨.indent, "  ", p, none⟩, ⟨.realAccount, "A", account, some (.segments ["A"])⟩] ++
    tokensFrom amount chunks ++ [⟨.newline, "\n", amount.advance (written chunks), none⟩]

theorem written_append (chunks more : List Chunk) :
    written (chunks ++ more) = written chunks ++ written more := List.flatMap_append

theorem tokensFrom_append (p : Place) (chunks more : List Chunk) :
    tokensFrom p (chunks ++ more) =
      tokensFrom p chunks ++ tokensFrom (p.advance (written chunks)) more := by
  induction chunks generalizing p with
  | nil => rfl
  | cons c cs ih =>
    rw [List.cons_append, tokensFrom, tokensFrom, ih]
    simp [written, Place.advance_append]

/-- In front of this text the chunk is taken whole. -/
structure Chunk.ReadsIn (ahead : List Char) (c : Chunk) : Prop where
  gap : c.gap ∈ manyOf isLayout
  token : ∃ hpos, amountToken? (c.text ++ ahead) = some (c.kind, ⟨c.text.length, c.payload, hpos⟩)

/-- Each chunk is taken whole in front of what is behind it. -/
def ReadApart (after : List Char) : List Chunk → Prop
  | [] => True
  | c :: cs => c.ReadsIn (written cs ++ after) ∧ ReadApart after cs

variable {gap text sign ahead after : List Char} {c : Chunk} {chunks : List Chunk}

/-! ## What is taken whole -/

/-- Commodities and numbers start with no sign. -/
theorem not_mem_of_isNameChar {d : Char} (h : isCommodityChar d ∨ isNumberChar d) :
    d ∉ ['-', '@', '(', ')', '=', '*', '"'] := by
  intro hmem
  simp only [List.mem_cons, List.not_mem_nil, or_false] at hmem
  rcases hmem with rfl | rfl | rfl | rfl | rfl | rfl | rfl <;> exact absurd h (by decide)

theorem isCommodityChar_of_isNumberChar {d : Char} (h : isNumberChar d) :
    isCommodityChar d = false := by
  simp only [isNumberChar, Bool.or_eq_true, decide_eq_true_eq] at h
  rcases h with hgrouped | rfl
  · exact Scanner.isCommodityChar_of_isGrouped (by simpa using hgrouped)
  · rfl

/-- Letters are taken whole in front of anything that no commodity goes on with. -/
theorem amountToken?_letters (htext : text ∈ someOf isCommodityChar)
    (hahead : ∀ d ∈ ahead.head?, isCommodityChar d = false) :
    amountToken? (text ++ ahead) = some (.commodity,
      ⟨text.length, some (.text (String.ofList text)), List.length_pos_iff.mpr htext.1⟩) := by
  have hrun : (text ++ ahead).takeWhile isCommodityChar = text := takeWhile_stops htext.2 hahead
  obtain ⟨d, ds, rfl⟩ := List.exists_cons_of_ne_nil htext.1
  have hd := not_mem_of_isNameChar (.inl (htext.2 d List.mem_cons_self))
  rw [List.cons_append] at hrun ⊢
  rw [amountToken?_of_not_mem hd, nameOrNumber?, hrun]
  simp [Match.ofLength]

/-- Quotes are taken whole with what is between them. -/
theorem amountToken?_quotes {inner : List Char} (hinner : inner ∈ someOf isQuotedChar)
    (ahead : List Char) : amountToken? ('"' :: (inner ++ '"' :: ahead)) =
      some (.commodity, .enclosing inner (.text (String.ofList inner))) := by
  simp [amountToken?, quotedCommodity?_append hinner]

/-- What starts like a number is one, or nothing. -/
theorem amountToken?_number {d : Char} {ds : List Char} (hd : isNumberChar d) :
    amountToken? (d :: ds) = (Match.ofLength (numberLength (d :: ds))).map (.number, ·) := by
  have hname : (d :: ds).takeWhile isCommodityChar = [] :=
    List.takeWhile_cons_of_neg (by simp [isCommodityChar_of_isNumberChar hd])
  rw [amountToken?_of_not_mem (not_mem_of_isNameChar (.inr hd))]
  simp [nameOrNumber?, hname, Match.ofLength]

/-- **A commodity is taken whole** in front of anything that no commodity goes on with. -/
theorem readsIn_commodity (hgap : gap ∈ manyOf isLayout) (htext : text ∈ Kind.commodity.texts)
    (hahead : ∀ d ∈ ahead.head?, isCommodityChar d = false) :
    (Chunk.commodity gap text).ReadsIn ahead := by
  refine ⟨hgap, ?_⟩
  rcases htext with hletters | ⟨_, ⟨_, rfl, inner, hinner, rfl⟩, _, rfl, rfl⟩
  · have hinner : Kind.commodity.inner text = text := by
      refine if_neg fun hquote => ?_
      have hchar := hletters.2 '"' (List.mem_of_head? hquote)
      exact absurd hchar (by decide)
    have htoken := amountToken?_letters hletters hahead
    have hpos := List.length_pos_iff.mpr hletters.1
    exact ⟨hpos, by simpa [Chunk.commodity, hinner] using htoken⟩
  · have hinside : Kind.commodity.inner ('"' :: (inner ++ ['"'])) = inner :=
      tail_dropLast_enclosed '"' '"' inner
    have htoken := amountToken?_quotes hinner ahead
    exact ⟨Nat.succ_pos _, by simpa [Chunk.commodity, Match.enclosing, hinside] using htoken⟩

/-- A number is taken with the minus in front of it. -/
theorem amountToken?_signed {digits : List Char} (minus : Bool) (hdigits : digits ∈ numberText)
    (hlength : numberLength (digits ++ ahead) = digits.length) :
    ∃ hpos, amountToken? (signText minus ++ digits ++ ahead) =
      some (.number, ⟨(signText minus ++ digits).length, none, hpos⟩) := by
  obtain ⟨d, ds, rfl, hfirst⟩ := exists_cons_of_mem_numberText hdigits
  have hpos : 0 < (d :: ds).length := Nat.succ_pos _
  cases minus with
  | true =>
    refine ⟨Nat.succ_pos _, ?_⟩
    show amountToken? ('-' :: (d :: ds ++ ahead)) = _
    rw [amountToken?_minus (hlength ▸ hpos)]
    simp only [hlength]
    rfl
  | false =>
    refine ⟨hpos, ?_⟩
    show amountToken? (d :: (ds ++ ahead)) = _
    rw [amountToken?_number (isNumberChar_of_first hfirst), ← List.cons_append, hlength]
    simp [Match.ofLength, signText]

/-- Where no number is taken, the minus in front of its digits is not taken either. -/
theorem amountToken?_signed_eq_none {digits : List Char} (minus : Bool)
    (hdigits : digits ∈ numberText) (hpoint : '.' ∉ digits)
    (hlength : numberLength (digits ++ ahead) = 0) :
    amountToken? (signText minus ++ digits ++ ahead) = none := by
  obtain ⟨d, ds, rfl, hfirst⟩ := exists_cons_of_mem_numberText hdigits
  cases minus with
  | true =>
    have hdigit : d.isDigit := hfirst.resolve_right fun heq => hpoint (heq ▸ List.mem_cons_self)
    show amountToken? ('-' :: (d :: ds ++ ahead)) = none
    rw [amountToken?_dash hlength]
    exact if_pos hdigit
  | false =>
    show amountToken? (d :: (ds ++ ahead)) = none
    rw [amountToken?_number (isNumberChar_of_first hfirst), ← List.cons_append, hlength]
    rfl

/-- **A number is taken whole**, with a minus or without, if it has a point or no comma. -/
theorem readsIn_number {digits : List Char} (hgap : gap ∈ manyOf isLayout) (minus : Bool)
    (hdigits : digits ∈ numberText) (hcommas : ',' ∈ digits → '.' ∈ digits)
    (hahead : ∀ d ∈ ahead.head?, isNumberChar d = false) :
    (Chunk.number gap (signText minus) digits).ReadsIn ahead :=
  ⟨hgap, amountToken?_signed minus hdigits (numberLength_append hdigits hcommas hahead)⟩

/-- **Nothing is taken of a number with a comma and no point**, nor of a minus in front of it. -/
theorem amountToken?_comma {digits : List Char} (minus : Bool) (hdigits : digits ∈ numberText)
    (hcomma : ',' ∈ digits) (hpoint : '.' ∉ digits)
    (hahead : ∀ d ∈ ahead.head?, isNumberChar d = false) :
    amountToken? (signText minus ++ digits ++ ahead) = none :=
  amountToken?_signed_eq_none minus hdigits hpoint
    (numberLength_comma hdigits hcomma hpoint hahead)

/-- A number that is taken has a point or no comma. -/
theorem point_of_amountToken? {digits : List Char} {found : Match} (minus : Bool)
    (hdigits : digits ∈ numberText)
    (h : amountToken? (signText minus ++ digits ++ ahead) = some (.number, found))
    (hlength : found.length = (signText minus ++ digits).length) (hcomma : ',' ∈ digits) :
    '.' ∈ digits := by
  suffices hwhole : numberLength (digits ++ ahead) = digits.length from
    point_of_comma hdigits hwhole hcomma
  obtain ⟨d, ds, rfl, hfirst⟩ := exists_cons_of_mem_numberText hdigits
  cases minus with
  | true =>
    by_cases hpos : 0 < numberLength (d :: ds ++ ahead)
    · have htoken := (amountToken?_minus hpos).symm.trans h
      obtain rfl := (Prod.mk.inj (Option.some.inj htoken)).2
      exact Nat.succ.inj hlength
    · -- only a minus would be taken
      have hdash := (amountToken?_dash (Nat.eq_zero_of_not_pos hpos)).symm.trans h
      split at hdash <;> nomatch hdash
  | false =>
    have htoken := (amountToken?_number (isNumberChar_of_first hfirst)).symm.trans h
    obtain ⟨m, hm, heq⟩ := Option.map_eq_some_iff.mp htoken
    obtain rfl := (Prod.mk.inj heq).2
    exact (length_ofLength hm).symm.trans hlength

/-- A minus is taken by itself where no number is behind it. -/
theorem readsIn_dash (hgap : gap ∈ manyOf isLayout)
    (hahead : ∀ d ∈ ahead.head?, isNumberChar d = false) : (Chunk.dash gap).ReadsIn ahead := by
  have hnot : ∀ d ∈ ahead.head?, d.isDigit = false ∧ d ≠ '.' := fun d hd =>
    (isNumberChar_eq_false_iff.mp (hahead d hd)).imp_right And.right
  have hdigit : ahead.head?.any Char.isDigit = false := by
    simpa [Option.any_eq_false] using fun d hd => (hnot d hd).1
  refine ⟨hgap, Nat.one_pos, ?_⟩
  show amountToken? ('-' :: ahead) = _
  rw [amountToken?_dash (numberLength_of_head hnot), hdigit]
  rfl

/-! ## What touches -/

/-- A number starts with its sign, or as a number without one does. -/
theorem exists_cons_signed {digits : List Char} (minus : Bool) (hdigits : digits ∈ numberText)
    (more : List Char) :
    ∃ d ds, signText minus ++ digits ++ more = d :: ds ∧ (d = '-' ∨ isNumberChar d) := by
  obtain ⟨d, ds, rfl, hfirst⟩ := exists_cons_of_mem_numberText hdigits
  cases minus with
  | true => exact ⟨'-', d :: ds ++ more, rfl, .inl rfl⟩
  | false => exact ⟨d, ds ++ more, rfl, .inr (isNumberChar_of_first hfirst)⟩

/-- No commodity goes on with a number. -/
theorem head?_number {digits : List Char} (minus : Bool) (hdigits : digits ∈ numberText)
    (more : List Char) :
    ∀ d ∈ (signText minus ++ digits ++ more).head?, isCommodityChar d = false := by
  obtain ⟨d, ds, hcons, hd⟩ := exists_cons_signed minus hdigits more
  rw [hcons]
  rintro _ ⟨⟩
  rcases hd with rfl | hnumber
  · rfl
  · exact isCommodityChar_of_isNumberChar hnumber

/-- No number goes on with a commodity. -/
theorem head?_commodity (htext : text ∈ Kind.commodity.texts) (more : List Char) :
    ∀ d ∈ (text ++ more).head?, isNumberChar d = false := by
  rcases htext with hplain | ⟨_, ⟨_, rfl, inner, -, rfl⟩, _, rfl, rfl⟩
  · obtain ⟨d, ds, rfl⟩ := List.exists_cons_of_ne_nil hplain.1
    rintro _ ⟨⟩
    rw [Bool.eq_false_iff]
    intro hnumber
    have hnone := isCommodityChar_of_isNumberChar hnumber
    rw [hplain.2 d List.mem_cons_self] at hnone
    nomatch hnone
  · rintro _ ⟨⟩
    rfl

theorem isCommodityChar_of_isLayout {d : Char} (h : isLayout d) : isCommodityChar d = false := by
  simp only [isLayout, Bool.or_eq_true, decide_eq_true_eq] at h
  rcases h with rfl | rfl <;> rfl

theorem isNumberChar_of_isLayout {d : Char} (h : isLayout d) : isNumberChar d = false := by
  simp only [isLayout, Bool.or_eq_true, decide_eq_true_eq] at h
  rcases h with rfl | rfl <;> rfl

theorem ReadApart.append {more : List Chunk} (h : ReadApart (written more ++ after) chunks)
    (hmore : ReadApart after more) : ReadApart after (chunks ++ more) := by
  induction chunks with
  | nil => exact hmore
  | cons c cs ih =>
    have happend : written cs ++ (written more ++ after) = written (cs ++ more) ++ after := by
      simp [written]
    exact ⟨happend ▸ h.1, ih h.2⟩

/-- A number is the last chunk, if the others stay apart from it. -/
theorem ReadApart.append_number {sign digits : List Char}
    (h : ReadApart (gap ++ (sign ++ digits ++ after)) chunks)
    (hnumber : (Chunk.number gap sign digits).ReadsIn after) :
    ReadApart after (chunks ++ [.number gap sign digits]) := by
  refine ReadApart.append ?_ ⟨hnumber, trivial⟩
  simpa [written, Chunk.number] using h

section

variable {gap' digits : List Char} (hgap : gap ∈ manyOf isLayout) (hgap' : gap' ∈ manyOf isLayout)
  (htext : text ∈ Kind.commodity.texts) (hdigits : digits ∈ numberText) (minus : Bool)

include hgap hgap' htext

/-- A number does not run into the commodity behind it. -/
theorem readApart_number_commodity (hdigits : digits ∈ numberText)
    (hcommas : ',' ∈ digits → '.' ∈ digits) (minus : Bool) : ReadApart ['\n']
    [.number gap (signText minus) digits, .commodity gap' text] := by
  have hbehind : ∀ d ∈ (gap' ++ (text ++ ['\n'])).head?, isNumberChar d = false :=
    head?_layout hgap' (fun _ => isNumberChar_of_isLayout) (head?_commodity htext _)
  refine ⟨readsIn_number hgap minus hdigits hcommas ?_, readsIn_commodity hgap' htext ?_, trivial⟩
  · simpa [written, Chunk.commodity] using hbehind
  · rintro _ ⟨⟩
    rfl

include hdigits

/-- **A commodity does not run into the number behind it**, with layout between them or without. -/
theorem readApart_commodity (ahead : List Char) :
    ReadApart (gap' ++ (signText minus ++ digits ++ ahead)) [.commodity gap text] := by
  have hbehind : ∀ d ∈ (gap' ++ (signText minus ++ digits ++ ahead)).head?,
      isCommodityChar d = false :=
    head?_layout hgap' (fun _ => isCommodityChar_of_isLayout) (head?_number minus hdigits ahead)
  exact ⟨readsIn_commodity hgap htext hbehind, trivial⟩

/-- A minus in front of a commodity stays apart from it. -/
theorem readApart_dash (ahead : List Char) {gap₀ : List Char} (hgap₀ : gap₀ ∈ manyOf isLayout) :
    ReadApart (gap' ++ (signText minus ++ digits ++ ahead)) [.dash gap₀, .commodity gap text] := by
  have hbehind : ∀ d ∈ (gap ++ (text ++ (gap' ++ (signText minus ++ digits ++ ahead)))).head?,
      isNumberChar d = false :=
    head?_layout hgap (fun _ => isNumberChar_of_isLayout) (head?_commodity htext _)
  refine ⟨readsIn_dash hgap₀ ?_, readApart_commodity hgap hgap' htext hdigits minus ahead⟩
  simpa [written, Chunk.commodity] using hbehind

/-- A commodity and a number behind it, up to the end of the line. -/
theorem readApart_commodity_number (hcommas : ',' ∈ digits → '.' ∈ digits) : ReadApart ['\n']
    [.commodity gap text, .number gap' (signText minus) digits] :=
  (readApart_commodity hgap hgap' htext hdigits minus _).append_number
    (readsIn_number hgap' minus hdigits hcommas (by rintro _ ⟨⟩; rfl))

/-- The same with a minus in front. -/
theorem readApart_dash_number (hcommas : ',' ∈ digits → '.' ∈ digits) {gap₀ : List Char}
    (hgap₀ : gap₀ ∈ manyOf isLayout) : ReadApart ['\n']
      [.dash gap₀, .commodity gap text, .number gap' (signText minus) digits] :=
  (readApart_dash hgap hgap' htext hdigits minus _ hgap₀).append_number
    (readsIn_number hgap' minus hdigits hcommas (by rintro _ ⟨⟩; rfl))

end

/-! ## The tokens of a line -/

/-- Layout, line breaks and the sign of a comment: what starts no token of an amount. -/
def noAmount : List Char := [' ', '\t', ';', '\n', '\r']

theorem amountToken?_eq_none {d : Char} (hd : d ∈ noAmount) (ds : List Char) :
    amountToken? (d :: ds) = none := by
  simp only [noAmount, List.mem_cons, List.not_mem_nil, or_false] at hd
  rcases hd with rfl | rfl | rfl | rfl | rfl <;> rfl

theorem isLayout_of_not_mem_noAmount {d : Char} (hd : d ∉ noAmount) : isLayout d = false := by
  simp only [noAmount, List.mem_cons, List.not_mem_nil, or_false, not_or] at hd
  simp [isLayout, hd]

/-- A chunk that is taken whole starts a token. -/
theorem Chunk.ReadsIn.exists_cons (h : c.ReadsIn ahead) :
    ∃ d ds, c.text ++ ahead = d :: ds ∧ d ∉ noAmount := by
  obtain ⟨hpos, htoken⟩ := h.token
  cases hcons : c.text ++ ahead with
  | nil =>
    rw [(List.append_eq_nil_iff.mp hcons).1] at hpos
    exact absurd hpos (Nat.lt_irrefl 0)
  | cons d ds =>
    refine ⟨d, ds, rfl, fun hd => ?_⟩
    rw [hcons, amountToken?_eq_none hd] at htoken
    nomatch htoken

theorem not_mem_noAmount_of_signed {d : Char} (h : d = '-' ∨ isNumberChar d) : d ∉ noAmount := by
  intro hmem
  simp only [noAmount, List.mem_cons, List.not_mem_nil, or_false] at hmem
  rcases hmem with rfl | rfl | rfl | rfl | rfl <;> exact absurd h (by decide)

namespace Scanner

variable {s base : Scanner}

/-- Behind a chunk. -/
def overChunk (s : Scanner) (c : Chunk) : Scanner :=
  ((s.pass c.gap).note c.kind c.text c.payload).pass c.text

/-- Beyond chunks, in these modes. -/
def beyond (s : Scanner) (chunks : List Chunk) (modes : ModeStack) : Scanner :=
  { chunks.foldl overChunk s with modes := modes }

/-- Modes do not matter for what a chunk leaves behind. -/
theorem beyond_modes (s : Scanner) (chunks : List Chunk) (modes modes' : ModeStack) :
    { s with modes := modes }.beyond chunks modes' = s.beyond chunks modes' := by
  induction chunks generalizing s with
  | nil => rfl
  | cons c cs ih => exact ih (s.overChunk c)

theorem beyond_beyond (s : Scanner) (chunks more : List Chunk) (modes modes' : ModeStack) :
    (s.beyond chunks modes).beyond more modes' = s.beyond (chunks ++ more) modes' := by
  have hmore : s.beyond (chunks ++ more) modes' = (chunks.foldl overChunk s).beyond more modes' := by
    rw [beyond, beyond, List.foldl_append]
  rw [hmore]
  exact beyond_modes _ more modes modes'

theorem tokens_beyond (s : Scanner) (chunks : List Chunk) (modes : ModeStack) :
    (s.beyond chunks modes).tokens = (tokensFrom s.place chunks).reverse ++ s.tokens := by
  induction chunks generalizing s with
  | nil => rfl
  | cons c cs ih =>
    have hmore := ih (s.overChunk c)
    rw [tokensFrom, List.reverse_cons, List.append_assoc]
    exact hmore

theorem faults_beyond (s : Scanner) (chunks : List Chunk) (modes : ModeStack) :
    (s.beyond chunks modes).faults = s.faults := by
  induction chunks generalizing s with
  | nil => rfl
  | cons c cs ih => exact ih (s.overChunk c)

theorem place_beyond (s : Scanner) (chunks : List Chunk) (modes : ModeStack) :
    (s.beyond chunks modes).place = s.place.advance (written chunks) := by
  induction chunks generalizing s with
  | nil => rfl
  | cons c cs ih =>
    refine (ih (s.overChunk c)).trans ?_
    simp [written, overChunk, pass, note, Place.advance_append]

theorem pass_nil (s : Scanner) : s.pass [] = s := rfl

/-- Layout between the parts of a line is passed over. -/
theorem run_gap (hmode : s.modes.top ∉ [.lineStart, .lineComment]) (hgap : gap ∈ manyOf isLayout)
    (hahead : ∀ d ∈ ahead.head?, isLayout d = false) :
    s.run (gap ++ ahead) = (s.pass gap).run ahead := by
  by_cases hnil : gap = []
  · rw [hnil, List.nil_append, pass_nil]
  · have hpos := List.length_pos_iff.mpr hnil
    have hlength : s.modes.top.layoutLength (gap ++ ahead) = gap.length := by
      cases h : s.modes.top
      case lineStart | lineComment => simp [h] at hmode
      all_goals exact layoutLength_append hgap hahead
    have hnext : s.next (gap ++ ahead) = .layout gap.length hpos := by
      simp only [next, hlength, hpos, dif_pos]
    have hstep : s.step (gap ++ ahead) = s.pass gap := by
      simp only [step, hnext, record, Event.taken, List.take_left]
    rw [run_of_ne_nil _ (List.append_ne_nil_of_left_ne_nil hnil _), hstep, hnext]
    simp only [Event.taken, List.drop_left]

/-- What comes next in an amount, where no layout, line break or comment does. -/
theorem next_amountLine {d : Char} {ds : List Char} (hmode : s.modes.top = .amountLine)
    (hd : d ∉ noAmount) : s.next (d :: ds) =
      (amountToken? (d :: ds)).elim (.unexpected .amountLine) fun m => .token m.1 m.2 .stay := by
  have hlayout := isLayout_of_not_mem_noAmount hd
  simp only [noAmount, List.mem_cons, List.not_mem_nil, or_false, not_or] at hd
  have hbreak : endsLine d = false := by simp [endsLine, hd]
  have hsign : (s.view (d :: ds)).sign ';' = none := by simp [View.sign, view, hd]
  have hrest : (s.view (d :: ds)).rest = d :: ds := rfl
  rw [next_of_inner (by rw [hmode]; decide) (layoutLength_of_not_isLayout hlayout ds)
    (newlineLength_of_not_endsLine hbreak ds), hmode, token?_amountLine, hsign, hrest]
  cases amountToken? (d :: ds) <;> rfl

/-- Where a token comes next behind the layout, a chunk is passed. -/
theorem run_beyond {found : Match} {move : Move} (hmode : s.modes.top ∉ [.lineStart, .lineComment])
    (hgap : c.gap ∈ manyOf isLayout)
    (hnext : (s.pass c.gap).next (c.text ++ ahead) = .token c.kind found move)
    (hlength : found.length = c.text.length) (hpayload : found.payload = c.payload) :
    s.run (c.gap ++ c.text ++ ahead) = (s.beyond [c] (s.modes.move move)).run ahead := by
  have hpassed : (s.pass c.gap).modes.top ∉ [.lineStart, .lineComment] := hmode
  rw [List.append_assoc, run_gap hmode hgap (isLayout_of_next_token hpassed hnext),
    run_token hnext hlength, hpayload]
  rfl

/-- **A chunk that is taken whole is passed.** -/
theorem run_chunk (hmode : s.modes.top = .amountLine) (h : c.ReadsIn ahead) :
    s.run (c.gap ++ c.text ++ ahead) = (s.beyond [c] s.modes).run ahead := by
  obtain ⟨d, ds, hcons, hd⟩ := h.exists_cons
  obtain ⟨hpos, htoken⟩ := h.token
  have hpassed : (s.pass c.gap).modes.top = .amountLine := hmode
  have hnext : (s.pass c.gap).next (c.text ++ ahead) =
      .token c.kind ⟨c.text.length, c.payload, hpos⟩ .stay := by
    rw [hcons] at htoken ⊢
    rw [next_amountLine hpassed hd, htoken, Option.elim_some]
  exact run_beyond (by simp [hmode]) h.gap hnext rfl rfl

/-- **Chunks are read one by one.** -/
theorem run_chunks (hmode : s.modes.top = .amountLine) (h : ReadApart after chunks) :
    s.run (written chunks ++ after) = (s.beyond chunks s.modes).run after := by
  induction chunks generalizing s with
  | nil => rfl
  | cons c cs ih =>
    have hafter : written (c :: cs) ++ after = c.gap ++ c.text ++ (written cs ++ after) := by
      simp [written]
    have hpassed : (s.beyond [c] s.modes).modes.top = .amountLine := hmode
    rw [hafter, run_chunk hmode h.1, ih hpassed h.2, beyond_beyond]
    rfl

/-- The account `A` is found where its name ends. -/
theorem foundAs_account (hends : nameEnds ahead) : FoundAs ['A'] ahead .realAccount
    ⟨1, some (.segments ["A"]), Nat.one_pos⟩ := by
  have hwhole : StandsWhole ['A'] ahead :=
    standsWhole_cons.mpr ⟨rfl, nameLength_append_iff.mp (nameLength_eq_zero_iff.mpr hends)⟩
  refine .real (List.cons_ne_nil _ _) hwhole fun inner => ⟨?_, ?_⟩ <;>
  · rintro ⟨-, behind, heq, -⟩
    cases heq

/-- Behind the indentation and the account of a posting. -/
def atAmount (base : Scanner) : Scanner where
  before := some 'A'
  place := (base.place.advance [' ', ' ']).advance ['A']
  modes := (base.modes.push .indented).push .amountLine
  tokens := ⟨.realAccount, "A", base.place.advance [' ', ' '], some (.segments ["A"])⟩ ::
    ⟨.indent, "  ", base.place, none⟩ :: base.tokens
  faults := base.faults

theorem run_account (hfresh : base.Fresh) (hends : nameEnds ahead) :
    base.run ([' ', ' '] ++ 'A' :: ahead) = base.atAmount.run ahead := by
  have hlayout : [' ', ' '] ∈ someOf isLayout := ⟨List.cons_ne_nil _ _, by simp [isLayout]⟩
  have hhead : ∀ c ∈ ('A' :: ahead).head?, isLayout c = false := by
    rintro _ ⟨⟩
    rfl
  have hfilled : ¬ ('A' :: ahead = [] ∨ 0 < newlineLength ('A' :: ahead)) :=
    not_or.mpr ⟨List.cons_ne_nil _ _, Nat.lt_irrefl 0⟩
  rw [run_layout hfresh hlayout hhead, overLayout, if_neg hfilled]
  have hlooks (s : Scanner) (hmode : s.modes.top = .indented) :
      s.LooksForAccount (['A'] ++ ahead) := by
    refine ⟨⟨'A', rfl, rfl, by decide⟩, .inr ⟨hmode, ?_, fun c hc => ?_⟩⟩
    · simp [View.formatKeyword, View.keyword, keywordLength, view, Match.ofLength]
    · simp only [List.mem_cons, List.not_mem_nil, or_false] at hc
      rcases hc with rfl | rfl <;> simp [View.postingStatus, keywordLength, view, Match.ofLength]
  exact run_found rfl (hlooks _ rfl) (foundAs_account hends)

/-- The front of the line of a posting is passed. -/
theorem run_front (hfresh : base.Fresh) (h : ReadApart after chunks)
    (hends : nameEnds (written chunks ++ after)) :
    base.run ([' ', ' '] ++ 'A' :: (written chunks ++ after)) =
      (base.atAmount.beyond chunks base.atAmount.modes).run after := by
  rw [run_account hfresh hends, run_chunks rfl h]

/-- A line feed ends the line. -/
theorem run_newline (s : Scanner) : s.run ['\n'] =
    { s.note .newline ['\n'] none with modes := .start }.pass ['\n'] := by
  have hlayout : s.modes.top.layoutLength ['\n'] = 0 := by cases s.modes.top <;> rfl
  have hnext : s.next ['\n'] = .newline 1 Nat.one_pos := by
    simp only [next, hlayout, Nat.lt_irrefl, dif_neg, not_false_eq_true]
    rfl
  rw [run_cons, step, hnext]
  exact run_nil _

/-- **A line of chunks has their tokens**, the line break, and no fault. -/
theorem run_beyond_newline (s : Scanner) (chunks : List Chunk) (modes : ModeStack) :
    let final := (s.beyond chunks modes).run ['\n']
    final.tokens = ⟨.newline, "\n", s.place.advance (written chunks), none⟩ ::
      ((tokensFrom s.place chunks).reverse ++ s.tokens) ∧ final.faults = s.faults := by
  rw [run_newline]
  refine ⟨?_, s.faults_beyond chunks modes⟩
  rw [← s.place_beyond chunks modes, ← s.tokens_beyond chunks modes]
  rfl

/-- **The line of a posting has these tokens and no fault.** -/
theorem run_posting (hfresh : base.Fresh) (h : ReadApart ['\n'] chunks)
    (hends : nameEnds (written chunks ++ ['\n'])) :
    let final := base.run ([' ', ' '] ++ 'A' :: (written chunks ++ ['\n']))
    final.tokens = (postingTokens base.place chunks).reverse ++ base.tokens ∧
      final.faults = base.faults := by
  obtain ⟨htokens, hfaults⟩ := base.atAmount.run_beyond_newline chunks base.atAmount.modes
  rw [run_front hfresh h hends]
  refine ⟨?_, hfaults⟩
  rw [htokens]
  simp [postingTokens, atAmount]

/-! ## Faults -/

/-- A character that is passed over is in a fault. -/
theorem faults_reportMore_ne_nil (s : Scanner) (text : List Char) (mode : Mode) :
    (s.reportMore text mode).faults ≠ [] := by
  obtain ⟨last, faults, -, -, hmore⟩ | hmore := s.reportMore_cases text mode <;> rw [hmore] <;>
    exact List.cons_ne_nil _ _

/-- A fault is not taken back. -/
theorem faults_step_ne_nil (h : s.faults ≠ []) (rest : List Char) : (s.step rest).faults ≠ [] := by
  show (s.record rest (s.next rest)).faults ≠ []
  cases s.next rest with
  | unknownLine => exact List.cons_ne_nil _ _
  | unexpected mode => exact s.faults_reportMore_ne_nil _ mode
  | _ => exact h

theorem faults_run_ne_nil (h : s.faults ≠ []) (rest : List Char) : (s.run rest).faults ≠ [] :=
  run_induction (P := fun s _ => s.faults ≠ []) (fun _ h => faults_step_ne_nil h _) h

/-- **A number with a comma and no point is a fault.** -/
theorem faults_run_comma {digits : List Char} (hmode : s.modes.top = .amountLine)
    (hgap : gap ∈ manyOf isLayout) (minus : Bool) (hdigits : digits ∈ numberText)
    (hcomma : ',' ∈ digits) (hpoint : '.' ∉ digits)
    (hahead : ∀ d ∈ ahead.head?, isNumberChar d = false) :
    (s.run (gap ++ (signText minus ++ digits ++ ahead))).faults ≠ [] := by
  have hnone := amountToken?_comma minus hdigits hcomma hpoint hahead
  obtain ⟨d, ds, hcons, hsigned⟩ := exists_cons_signed minus hdigits ahead
  have hd := not_mem_noAmount_of_signed hsigned
  rw [hcons] at hnone ⊢
  have hhead : ∀ e ∈ (d :: ds).head?, isLayout e = false := by
    rintro _ ⟨⟩
    exact isLayout_of_not_mem_noAmount hd
  have hpassed : (s.pass gap).modes.top = .amountLine := hmode
  have hnext : (s.pass gap).next (d :: ds) = .unexpected .amountLine := by
    rw [next_amountLine hpassed hd, hnone, Option.elim_none]
  rw [run_gap (by simp [hmode]) hgap hhead, run_cons]
  refine faults_run_ne_nil ?_ _
  rw [step, hnext]
  exact faults_reportMore_ne_nil _ _ _

end Scanner

/-- **The line of a posting behind whole lines** adds its tokens to theirs. -/
theorem tokenize_posting {front : List Char} (hfront : WholeLines front)
    (h : ReadApart ['\n'] chunks) (hends : nameEnds (written chunks ++ ['\n'])) :
    tokenize (String.ofList (front ++ ([' ', ' '] ++ 'A' :: (written chunks ++ ['\n'])))) =
      ⟨(tokenize (String.ofList front)).tokens ++
        postingTokens (Scanner.start.run front).place chunks,
        (tokenize (String.ofList front)).faults⟩ := by
  obtain ⟨htokens, hfaults⟩ := Scanner.run_posting (Scanner.fresh_run_start hfront) h hends
  simp only [tokenize, String.toList_ofList, Scanner.run_append _ hfront, htokens, hfaults,
    List.reverse_append, List.reverse_reverse]

/-- **A number with a comma and no point in a posting is a fault**, wherever in its amount it is. -/
theorem faults_tokenize_comma {front digits : List Char} (hfront : WholeLines front)
    (minus : Bool) (hdigits : digits ∈ numberText) (hcomma : ',' ∈ digits) (hpoint : '.' ∉ digits)
    (hahead : ∀ d ∈ ahead.head?, isNumberChar d = false) (hgap : gap ∈ manyOf isLayout)
    (h : ReadApart (gap ++ (signText minus ++ digits ++ ahead)) chunks)
    (hends : nameEnds (written chunks ++ (gap ++ (signText minus ++ digits ++ ahead)))) :
    (tokenize (String.ofList (front ++ ([' ', ' '] ++
      'A' :: (written chunks ++ (gap ++ (signText minus ++ digits ++ ahead))))))).faults ≠ [] := by
  let behind := (Scanner.start.run front).atAmount
  have hmode : (behind.beyond chunks behind.modes).modes.top = .amountLine := rfl
  have hfault := Scanner.faults_run_comma hmode hgap minus hdigits hcomma hpoint hahead
  rw [← Scanner.run_front (Scanner.fresh_run_start hfront) h hends,
    ← Scanner.run_append _ hfront] at hfault
  simpa [tokenize] using hfault

end Daybook
