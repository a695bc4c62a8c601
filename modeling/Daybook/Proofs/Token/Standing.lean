import Daybook.Proofs.Token.Reads
import Daybook.Proofs.Token.Row

/-!
# What the modes say about the line

The mode that the tokenizer is in tells what it has read of the line. In a comment the line has the
sign that opens one, outside it has none. A line that a date opens is read in the modes of a
transaction only, and as long as the description can still have a memo there is no bar.

* `Mode.Allows mode kind move`: what a mode says about a token and where it leads.
* `lineOf ts`: the tokens of the current line, where `ts` are all tokens, the last one first.
* `ModeStack.Fits modes ts`: what holds of the modes and the tokens at any time.

Results:
* `allows_token?`: **every token is allowed by its mode.**
* `Reached.fits`: **the modes fit the tokens wherever the tokenizer comes.**
-/

namespace Daybook

/-- The kinds that stand in inline comments only. -/
def Kind.inComment : Kind → Bool
  | inlineText | tagName | tagColon | tagValue | tagComma => true
  | _ => false

namespace Mode

/-- The modes inside an inline comment. -/
def inComment : Mode → Bool
  | inlineComment | tagValue => true
  | _ => false

theorem inComment_iff {mode : Mode} :
    mode.inComment ↔ mode = .inlineComment ∨ mode = .tagValue := by
  cases mode <;> decide

/-- The modes in which a line that a date opens is read. -/
def inDated : Mode → Bool
  | header | memo | inlineComment | tagValue => true
  | _ => false

end Mode

/-- The mode that is entered. -/
def Move.entered? : Move → Option Mode
  | enter mode => some mode
  | _ => none

/-- The mode that a move leads to. What is left is the value of a tag. -/
def Mode.after (mode : Mode) : Move → Mode
  | .stay => mode
  | .enter inner => inner
  | .leave => .inlineComment

/-! ## What a mode allows -/

/-- What a mode says about a token and where it leads. -/
structure Mode.Allows (mode : Mode) (kind : Kind) (move : Move) : Prop where
  /-- In a comment stands what stands nowhere else. -/
  inComment : kind.inComment = mode.inComment
  semicolon : kind = .semicolon ↔ move = .enter .inlineComment
  pipe : kind = .pipe → mode = .header ∧ move = .enter .memo
  /-- Inside a comment only the value of a tag is entered, and only that is left. -/
  entersTag : mode.inComment → ∀ m ∈ move.entered?, mode = .inlineComment ∧ m = .tagValue
  entered : ∀ m ∈ move.entered?, m = .tagValue → mode = .inlineComment
  left : move = .leave → mode = .tagValue
  /-- A date at the start of a line opens a transaction, and nothing else does. -/
  header : move = .enter .header → mode = .lineStart ∧ kind = .date
  dated : mode = .lineStart → kind = .date → move = .enter .header
  inDated : mode.inDated → ∀ m ∈ move.entered?, m.inDated

instance (mode : Mode) (kind : Kind) (move : Move) : Decidable (mode.Allows kind move) :=
  decidable_of_iff
    (kind.inComment = mode.inComment ∧ (kind = .semicolon ↔ move = .enter .inlineComment) ∧
      (kind = .pipe → mode = .header ∧ move = .enter .memo) ∧
      (mode.inComment → ∀ m ∈ move.entered?, mode = .inlineComment ∧ m = .tagValue) ∧
      (∀ m ∈ move.entered?, m = .tagValue → mode = .inlineComment) ∧
      (move = .leave → mode = .tagValue) ∧
      (move = .enter .header → mode = .lineStart ∧ kind = .date) ∧
      (mode = .lineStart → kind = .date → move = .enter .header) ∧
      (mode.inDated → ∀ m ∈ move.entered?, m.inDated))
    ⟨fun ⟨h₁, h₂, h₃, h₄, h₅, h₆, h₇, h₈, h₉⟩ => ⟨h₁, h₂, h₃, h₄, h₅, h₆, h₇, h₈, h₉⟩,
      fun ⟨h₁, h₂, h₃, h₄, h₅, h₆, h₇, h₈, h₉⟩ => ⟨h₁, h₂, h₃, h₄, h₅, h₆, h₇, h₈, h₉⟩⟩

/-- **Every token is allowed by its mode.** -/
theorem allows_token? {mode : Mode} {v : View} {kind : Kind} {found : Match} {move : Move}
    (h : mode.token? v = some (kind, found, move)) : mode.Allows kind move :=
  of_token? (by cases mode <;> decide) (by cases mode <;> decide) h

/-! ## The current line -/

/-- The tokens of the current line, where these are all tokens, the last one first. -/
def lineOf (ts : List Token) : List Token := (ts.takeWhile (·.kind ≠ .newline)).reverse

variable {t : Token} {ts : List Token}

theorem lineOf_cons (h : t.kind ≠ .newline) : lineOf (t :: ts) = lineOf ts ++ [t] := by
  simp [lineOf, h]

theorem lineOf_eq_nil_iff : lineOf ts = [] ↔ ∀ t ∈ ts.head?, t.kind = .newline := by
  cases ts with
  | nil => simp [lineOf]
  | cons t ts => by_cases h : t.kind = .newline <;> simp [lineOf, h]

/-- The last token is that of the line, unless it ends one. -/
theorem getLast?_lineOf (h : t ∈ ts.head?) (hkind : t.kind ≠ .newline) :
    (lineOf ts).getLast? = some t := by
  obtain ⟨more, rfl⟩ := List.head?_eq_some_iff.mp h
  rw [lineOf_cons hkind, List.getLast?_concat]

/-! ## The modes and the line -/

/-- What holds of the modes and the tokens at any time. -/
structure ModeStack.Fits (modes : ModeStack) (ts : List Token) : Prop where
  /-- The value of a tag stands in a comment. -/
  tagValue : modes.top = .tagValue → ∃ ms, modes.inner = .tagValue :: .inlineComment :: ms
  /-- A comment is open behind its sign and nowhere else. -/
  comment : modes.top.inComment ↔ ∃ u ∈ lineOf ts, u.kind = .semicolon
  /-- A line that a date opens is that of a transaction. -/
  dated : ∀ d ∈ (lineOf ts).head?, d.kind = .date → modes.top.inDated
  header : modes.top = .header → ∃ d ∈ (lineOf ts).head?, d.kind = .date
  /-- In front of the memo there is no bar. -/
  pipe : modes.top = .header → ∀ u ∈ lineOf ts, u.kind ≠ .pipe

namespace ModeStack

variable {modes : ModeStack}

/-- At the start of a line. -/
theorem fits_start (h : ∀ t ∈ ts.head?, t.kind = .newline) : start.Fits ts where
  tagValue htop := absurd htop (by decide)
  comment := by simp [lineOf_eq_nil_iff.mpr h, start, top, Mode.inComment]
  dated := by simp [lineOf_eq_nil_iff.mpr h]
  header htop := absurd htop (by decide)
  pipe htop := absurd htop (by decide)

theorem Fits.top_move (h : modes.Fits ts) {kind : Kind} {move : Move}
    (hallows : modes.top.Allows kind move) : (modes.move move).top = modes.top.after move := by
  cases move with
  | stay | enter => rfl
  | leave =>
    obtain ⟨ms, hms⟩ := h.tagValue (hallows.left rfl)
    simp [ModeStack.move, pop, top, hms, Mode.after]

theorem exists_inner_of_top {mode : Mode} (h : modes.top = mode) (hmode : mode ≠ .lineStart) :
    ∃ ms, modes.inner = mode :: ms := by
  cases hinner : modes.inner with
  | nil => simp [top, hinner, hmode.symm] at h
  | cons m ms =>
    simp only [top, hinner, List.head?_cons, Option.getD_some] at h
    exact ⟨ms, h ▸ rfl⟩

theorem exists_semicolon_lineOf_cons (hkind : t.kind ≠ .newline) :
    (∃ u ∈ lineOf (t :: ts), u.kind = .semicolon) ↔
      (∃ u ∈ lineOf ts, u.kind = .semicolon) ∨ t.kind = .semicolon := by
  simp only [lineOf_cons hkind, List.mem_append, List.mem_singleton, or_and_right, exists_or,
    exists_eq_left]

/-- One more token and its move. -/
theorem Fits.token (h : modes.Fits ts) (hout : modes.top = .lineStart ↔ lineOf ts = [])
    {move : Move}
    (hallows : modes.top.Allows t.kind move) (hkind : t.kind ≠ .newline) :
    (modes.move move).Fits (t :: ts) where
  tagValue := by
    rw [h.top_move hallows]
    intro htop
    cases move with
    | stay => exact h.tagValue htop
    | enter m =>
      have hmode := hallows.entered m rfl htop
      obtain ⟨ms, hms⟩ := exists_inner_of_top hmode (by decide)
      exact ⟨ms, by rw [ModeStack.move, push, hms]; exact congrArg (· :: _) htop⟩
    | leave => cases htop
  comment := by
    rw [h.top_move hallows, exists_semicolon_lineOf_cons hkind, ← h.comment, hallows.semicolon]
    cases move with
    | stay => simp [Mode.after]
    | enter m =>
      simp only [Move.enter.injEq]
      constructor
      · intro hm
        by_cases hopens : m = .inlineComment
        · exact .inr hopens
        · have htag : m = .tagValue := (Mode.inComment_iff.mp hm).resolve_left hopens
          rw [hallows.entered m rfl htag]
          exact .inl rfl
      · rintro (hcomment | rfl)
        · rw [(hallows.entersTag hcomment m rfl).2]
          rfl
        · rfl
    | leave => simp [hallows.left rfl, Mode.inComment, Mode.after]
  dated := by
    rw [h.top_move hallows, lineOf_cons hkind]
    intro d hd hdate
    cases hline : lineOf ts with
    | nil =>
      rw [hline] at hd
      obtain rfl := Option.some.inj hd
      rw [hallows.dated (hout.mpr hline) hdate]
      rfl
    | cons u us =>
      rw [hline] at hd
      have hold := h.dated d (by rw [hline]; exact hd) hdate
      cases move with
      | stay => exact hold
      | enter m => exact hallows.inDated hold m rfl
      | leave => rfl
  header := by
    rw [h.top_move hallows, lineOf_cons hkind]
    intro htop
    cases move with
    | stay =>
      obtain ⟨d, hd, hdate⟩ := h.header htop
      exact ⟨d, List.mem_head?_append_of_mem_head? hd, hdate⟩
    | enter m =>
      obtain ⟨hstart, hdate⟩ := hallows.header (congrArg Move.enter htop)
      rw [hout.mp hstart]
      exact ⟨t, rfl, hdate⟩
    | leave => cases htop
  pipe := by
    rw [h.top_move hallows, lineOf_cons hkind]
    intro htop u hu
    cases move with
    | stay =>
      rcases List.mem_append.mp hu with hold | hnew
      · exact h.pipe htop u hold
      · rw [List.mem_singleton.mp hnew]
        exact fun hpipe => absurd (hallows.pipe hpipe).2 (by simp)
    | enter m =>
      obtain ⟨hstart, hdate⟩ := hallows.header (congrArg Move.enter htop)
      rw [hout.mp hstart, List.nil_append, List.mem_singleton] at hu
      rw [hu, hdate]
      decide
    | leave => cases htop

end ModeStack

namespace Scanner

variable {s : Scanner} {source rest : List Char}

/-- Outside all modes no token has been read of the line. -/
theorem Grounded.top_eq_lineStart_iff (h : s.Grounded) :
    s.modes.top = .lineStart ↔ lineOf s.tokens = [] := by
  rw [h.modes.top_eq_lineStart_iff, lineOf_eq_nil_iff]
  refine ⟨h.outside, fun hall => ?_⟩
  by_contra hne
  obtain ⟨t, ht, hkind⟩ := h.inside hne
  exact hkind (hall t ht)

/-- **The modes fit the tokens wherever the tokenizer comes.** -/
theorem Reached.fits (h : Reached source s rest) : s.modes.Fits s.tokens := by
  induction h with
  | start => exact ModeStack.fits_start (by simp [Scanner.start])
  | @step s rest hreached hne ih =>
    have hcomes := comes_next (s := s) hne
    unfold Scanner.step
    generalize s.next rest = e at hcomes ⊢
    show (s.record rest e).modes.Fits (s.record rest e).tokens
    cases hcomes with
    | layout | unknownLine => exact ih
    | newline => exact ModeStack.fits_start (by simp [record, note])
    | @token kind found move _ hfound =>
      have hkind : kind ≠ .newline := (admits_token? hfound).kind_ne
      exact ih.token (t := ⟨kind, _, _, _⟩) hreached.grounded.top_eq_lineStart_iff
        (allows_token? hfound) hkind
    | unexpected =>
      rw [record, (s.tokens_reportMore _ _).1, (s.tokens_reportMore _ _).2]
      exact ih

end Scanner

end Daybook
