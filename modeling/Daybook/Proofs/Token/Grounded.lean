import Daybook.Proofs.Token.Step

/-!
# Where the tokenizer stands

The stack of modes and the tokens read so far go together: the tokenizer is outside all modes
exactly if the last token is a line break or there is none, and the first token that is no line
break opens an item or indents a line. Behind a line feed the tokenizer is always outside all modes,
whatever stood on the line. About `apply` with the stack of [SPEC 3].

* `Mode.Admits mode kind move`: what a token of a mode can do to the stack.
* `Grounded s`: what holds of the tokenizer at any time.
* `Fresh s`: what holds at the start of a line.

Results:
* `of_token?`: what can be checked of the rules of a mode is true of its tokens.
* `admits_token?`: every token of a mode does to the stack what the mode admits.
* `Grounded.run`: **`Grounded` holds at any time.**
* `fresh_run`: **behind a line feed a line is started afresh.**
-/

namespace Daybook

open Lexeme Text

/-! ## Places behind a text -/

namespace Text.Place

theorem line_advance (p : Place) (cs : List Char) :
    (p.advance cs).line = p.line + cs.count '\n' := by
  induction cs generalizing p with
  | nil => rfl
  | cons c cs ih =>
    rw [advance_cons, ih, next]
    by_cases hc : c = '\n'
    · rw [if_pos hc, hc, List.count_cons_self, Nat.add_assoc, Nat.add_comm 1]
    · rw [if_neg hc, List.count_cons_of_ne hc]

theorem line_le_advance (p : Place) (cs : List Char) : p.line ≤ (p.advance cs).line := by
  rw [line_advance]
  exact Nat.le_add_right _ _

/-- Behind a line feed a line starts. -/
theorem column_advance_break (p : Place) (cs : List Char) :
    (p.advance (cs ++ ['\n'])).column = 1 := by
  rw [advance_append]
  rfl

end Text.Place

/-! ## What a token does to the stack of modes -/

/-- What a token can do to the stack of modes. A token at the start of a line enters a mode, and
only the value of a tag is left in the middle of a line. -/
def Mode.Admits (mode : Mode) (kind : Kind) : Move → Prop
  | .stay => kind ≠ .newline ∧ mode ≠ .lineStart
  | .enter inner =>
    kind ≠ .newline ∧ inner ≠ .lineStart ∧ (inner = .tagValue → mode = .inlineComment) ∧
    (mode = .lineStart → kind.opensItem ∨ kind = .indent)
  | .leave => kind ≠ .newline ∧ mode = .tagValue

instance (mode : Mode) (kind : Kind) : ∀ move, Decidable (mode.Admits kind move)
  | .stay => inferInstanceAs (Decidable (_ ∧ _))
  | .enter _ => inferInstanceAs (Decidable (_ ∧ _))
  | .leave => inferInstanceAs (Decidable (_ ∧ _))

/-- The kinds of which amounts are made. -/
def amountKinds : List Kind :=
  [.dash, .number, .commodity, .atSign, .openParen, .closeParen, .equals, .asterisk]

/-- An amount is made of these. -/
theorem kind_of_amountToken? {cs : List Char} {kind : Kind} {found : Match}
    (h : amountToken? cs = some (kind, found)) : kind ∈ amountKinds := by
  cases amountToken?_cases h with
  | sign hsign =>
    have hkinds : ∀ x ∈ amountSigns, x.2 ∈ amountKinds := by decide
    exact hkinds _ hsign
  | _ => decide

/-- What is true of every rule of a mode, and where amounts are read of their kinds, is true of
every token of the mode. -/
theorem of_token? {mode : Mode} {v : View} {kind : Kind} {found : Match} {move : Move}
    {P : Kind → Move → Prop} (hrules : ∀ r ∈ mode.rules, P r.kind r.move)
    (hamounts : mode.readsAmounts → ∀ k ∈ amountKinds, P k .stay)
    (h : mode.token? v = some (kind, found, move)) : P kind move := by
  rcases token?_cases h with ⟨rule, hrule, -, rfl, rfl⟩ | ⟨hreads, hamount, rfl⟩
  · exact hrules rule hrule
  · exact hamounts hreads kind (kind_of_amountToken? hamount)

/-- **Every token of a mode does to the stack what the mode admits.** -/
theorem admits_token? {mode : Mode} {v : View} {kind : Kind} {found : Match} {move : Move}
    (h : mode.token? v = some (kind, found, move)) : mode.Admits kind move :=
  of_token? (by cases mode <;> decide) (by cases mode <;> decide) h

theorem Mode.Admits.kind_ne {mode : Mode} {kind : Kind} {move : Move} (h : mode.Admits kind move) :
    kind ≠ .newline := by
  cases move <;> exact h.1

/-- A stack as the tokenizer builds it: the start of a line is under all modes, and the value of a
tag stands inside something. -/
structure ModeStack.Sound (s : ModeStack) : Prop where
  inner : ∀ m ∈ s.inner, m ≠ .lineStart
  bottom : s.inner.getLast? ≠ some .tagValue

namespace ModeStack

variable {s : ModeStack}

theorem sound_start : Sound start where
  inner := by simp [start]
  bottom := by simp [start]

/-- Only outside all modes the tokenizer is at the start of a line. -/
theorem Sound.top_eq_lineStart_iff (h : s.Sound) : s.top = .lineStart ↔ s.inner = [] := by
  cases hs : s.inner with
  | nil => simp [top, hs]
  | cons m ms =>
    have hm : m ≠ .lineStart := h.inner m (by rw [hs]; exact List.mem_cons_self)
    simp [top, hs, hm]

/-- **A token keeps the stack sound** and does not end on the outside. -/
theorem Sound.move (h : s.Sound) {kind : Kind} {move : Move} (hadmits : s.top.Admits kind move) :
    (s.move move).Sound ∧ (s.move move).inner ≠ [] := by
  cases move with
  | stay => exact ⟨h, fun hnil => hadmits.2 (h.top_eq_lineStart_iff.mpr hnil)⟩
  | enter m =>
    obtain ⟨-, hm, htag, -⟩ := hadmits
    refine ⟨⟨List.forall_mem_cons.mpr ⟨hm, h.inner⟩, ?_⟩, List.cons_ne_nil _ _⟩
    cases hs : s.inner with
    | nil =>
      -- on the outside no tag is open, so the mode is another
      have htop : s.top = .lineStart := h.top_eq_lineStart_iff.mpr hs
      simp only [ModeStack.move, push, hs, List.getLast?_singleton, ne_eq, Option.some.injEq]
      intro htagValue
      exact absurd (htop.symm.trans (htag htagValue)) (by decide)
    | cons k ks =>
      have hbottom := h.bottom
      rw [hs] at hbottom
      simpa only [ModeStack.move, push, hs, List.getLast?_cons_cons] using hbottom
  | leave =>
    have htop := hadmits.2
    have hbottom := h.bottom
    cases hs : s.inner with
    | nil => simp [top, hs] at htop
    | cons m ms =>
      simp only [top, hs, List.head?_cons, Option.getD_some] at htop
      subst htop
      rw [hs] at hbottom
      cases ms with
      | nil => exact absurd rfl hbottom
      | cons k ks =>
        rw [List.getLast?_cons_cons] at hbottom
        refine ⟨⟨fun m hm => ?_, ?_⟩, ?_⟩
        · rw [ModeStack.move, pop, hs] at hm
          exact h.inner m (by rw [hs]; exact List.mem_cons_of_mem _ hm)
        · rwa [ModeStack.move, pop, hs]
        · rw [ModeStack.move, pop, hs]
          exact List.cons_ne_nil k ks

end ModeStack

/-! ## What holds at any time -/

namespace Scanner

/-- The first token that is no line break. -/
def opened? (s : Scanner) : Option Token := s.tokens.reverse.find? (·.kind ≠ .newline)

/-- What holds of the tokenizer at any time. -/
structure Grounded (s : Scanner) : Prop where
  modes : s.modes.Sound
  /-- Outside all modes the last token is a line break. -/
  outside : s.modes.inner = [] → ∀ t ∈ s.tokens.head?, t.kind = .newline
  /-- Inside a mode there is a last token and it is none. -/
  inside : s.modes.inner ≠ [] → ∃ t ∈ s.tokens.head?, t.kind ≠ .newline
  /-- The first token that is no line break starts a line. -/
  opening : ∀ t ∈ s.opened?, t.kind.opensItem ∨ t.kind = .indent
  /-- Lines are counted from 1. -/
  line_pos : 1 ≤ s.place.line
  /-- Faults do not lie ahead. -/
  line_le : ∀ f ∈ s.faults, f.place.line ≤ s.place.line

variable {s : Scanner} {rest : List Char}

theorem grounded_start : Grounded .start where
  modes := ModeStack.sound_start
  outside _ := by simp [start]
  inside h := absurd rfl h
  opening := by simp [opened?, start]
  line_pos := Nat.le_refl _
  line_le := by simp [start]

/-- Passing a text keeps `Grounded`. -/
theorem Grounded.pass (h : s.Grounded) (text : List Char) : (s.pass text).Grounded where
  modes := h.modes
  outside := h.outside
  inside := h.inside
  opening := h.opening
  line_pos := Nat.le_trans h.line_pos (s.place.line_le_advance text)
  line_le f hf := Nat.le_trans (h.line_le f hf) (s.place.line_le_advance text)

theorem opened?_note (kind : Kind) (image : List Char) (payload : Option Payload) :
    (s.note kind image payload).opened? = s.opened?.or
      (if kind = .newline then none else some ⟨kind, String.ofList image, s.place, payload⟩) := by
  simp only [opened?, note, List.reverse_cons, List.find?_append]
  by_cases hkind : kind = .newline <;> simp [hkind]

theorem tokens_reportMore (s : Scanner) (text : List Char) (mode : Mode) :
    (s.reportMore text mode).tokens = s.tokens ∧ (s.reportMore text mode).modes = s.modes :=
  ⟨by rw [reportMore_eq], by rw [reportMore_eq]⟩

/-- The first token that is no line break stays the same. -/
theorem opened?_record (rest : List Char) (e : Event) {t : Token} (h : t ∈ s.opened?) :
    t ∈ (s.record rest e).opened? := by
  have hnote : ∀ kind image payload, t ∈ (s.note kind image payload).opened? := by
    intro kind image payload
    rw [opened?_note, Option.mem_def.mp h]
    exact Option.mem_def.mpr rfl
  cases e with
  | layout | unknownLine => exact h
  | newline => exact hnote ..
  | token => exact hnote ..
  | unexpected mode =>
    unfold opened?
    rw [record, (s.tokens_reportMore _ mode).1]
    exact h

theorem opened?_run {t : Token} (h : t ∈ s.opened?) : t ∈ (s.run rest).opened? :=
  run_induction (P := fun s _ => t ∈ s.opened?) (fun _ h => opened?_record _ _ h) h

/-- A line break outside of all modes. -/
theorem Grounded.newline (h : s.Grounded) (image : List Char) :
    Grounded { s.note .newline image none with modes := s.modes.reset } where
  modes := ModeStack.sound_start
  outside _ := by simp [note]
  inside hne := absurd rfl hne
  opening t ht := by
    refine h.opening t ?_
    have hnote := opened?_note (s := s) .newline image none
    rw [if_pos rfl, Option.or_none] at hnote
    exact hnote ▸ ht
  line_pos := h.line_pos
  line_le := h.line_le

/-- A token that its mode admits. -/
theorem Grounded.token (h : s.Grounded) {kind : Kind} {move : Move}
    (hadmits : s.modes.top.Admits kind move) (image : List Char) (payload : Option Payload) :
    Grounded { s.note kind image payload with modes := s.modes.move move } where
  modes := (h.modes.move hadmits).1
  outside hnil := absurd hnil (h.modes.move hadmits).2
  inside _ := ⟨_, rfl, hadmits.kind_ne⟩
  opening t ht := by
    have hnote := opened?_note (s := s) kind image payload
    rw [if_neg hadmits.kind_ne] at hnote
    replace ht : t ∈ (s.note kind image payload).opened? := ht
    rw [hnote] at ht
    cases hopened : s.opened? with
    | some u =>
      rw [hopened] at ht
      exact h.opening t (hopened.trans ht)
    | none =>
      rw [hopened] at ht
      obtain rfl : _ = t := Option.some.inj ht
      by_cases hinner : s.modes.inner = []
      · have htop := h.modes.top_eq_lineStart_iff.mpr hinner
        cases move with
        | stay => exact absurd htop hadmits.2
        | enter m => exact hadmits.2.2.2 htop
        | leave => exact absurd (htop.symm.trans hadmits.2) (by decide)
      · -- inside a mode there is a token before this one that is no line break
        obtain ⟨last, hlast, hne⟩ := h.inside hinner
        have hall := List.find?_eq_none.mp hopened last
          (List.mem_reverse.mpr (List.mem_of_mem_head? hlast))
        simp [hne] at hall
  line_pos := h.line_pos
  line_le := h.line_le

/-- A fault at the current place. -/
theorem Grounded.report (h : s.Grounded) (text : List Char) (cause : ScanCause) :
    (s.report text cause).Grounded where
  modes := h.modes
  outside := h.outside
  inside := h.inside
  opening := h.opening
  line_pos := h.line_pos
  line_le := List.forall_mem_cons.mpr ⟨Nat.le_refl _, h.line_le⟩

theorem Grounded.reportMore (h : s.Grounded) (text : List Char) (mode : Mode) :
    (s.reportMore text mode).Grounded := by
  obtain ⟨last, faults, hfaults, -, hmore⟩ | hmore := s.reportMore_cases text mode <;> rw [hmore]
  · have hle := h.line_le
    rw [hfaults, List.forall_mem_cons] at hle
    exact ⟨h.modes, h.outside, h.inside, h.opening, h.line_pos,
      List.forall_mem_cons.mpr ⟨hle.1, hle.2⟩⟩
  · exact h.report ..

/-- A step keeps `Grounded`. -/
theorem Grounded.step (h : s.Grounded) (hne : rest ≠ []) : (s.step rest).Grounded := by
  have hcomes := comes_next (s := s) hne
  unfold Scanner.step
  generalize s.next rest = e at hcomes ⊢
  refine Grounded.pass ?_ _
  cases hcomes with
  | layout => exact h
  | newline => exact h.newline _
  | token _ hfound => exact h.token (admits_token? hfound) ..
  | unknownLine => exact h.report ..
  | unexpected => exact h.reportMore ..

/-- **`Grounded` holds wherever the tokenizer comes.** -/
theorem Reached.grounded {source : List Char} (h : Reached source s rest) : s.Grounded := by
  induction h with
  | start => exact grounded_start
  | step _ hne ih => exact ih.step hne

/-- **`Grounded` holds at any time.** -/
theorem Grounded.run (h : s.Grounded) : (s.run rest).Grounded :=
  run_induction (P := fun s _ => s.Grounded) (fun hne h => h.step hne) h

end Scanner

/-! ## Behind a line feed -/

/-- A text of whole lines: nothing, or something that ends in a line feed. -/
def WholeLines (cs : List Char) : Prop := ∀ c ∈ cs.getLast?, c = '\n'

instance (cs : List Char) : Decidable (WholeLines cs) :=
  decidable_of_iff (cs.getLast?.all (· = '\n')) (by simp [WholeLines, Option.all_eq_true])

variable {as : List Char}

theorem wholeLines_nil : WholeLines [] := by simp [WholeLines]

theorem WholeLines.exists_eq (h : WholeLines as) (hne : as ≠ []) : ∃ line, as = line ++ ['\n'] := by
  refine ⟨as.dropLast, ?_⟩
  have hlast := List.getLast?_eq_some_getLast hne
  rw [← h _ hlast]
  exact (List.dropLast_concat_getLast hne).symm

theorem WholeLines.drop (h : WholeLines as) (n : Nat) : WholeLines (as.drop n) := by
  by_cases hle : as.length ≤ n
  · rw [List.drop_eq_nil_of_le hle]
    exact wholeLines_nil
  · intro c hc
    rw [List.getLast?_drop, if_neg hle] at hc
    exact h c hc

/-- Behind whole lines a line starts. -/
theorem WholeLines.column_advance (h : WholeLines as) : (Place.start.advance as).column = 1 := by
  by_cases hne : as = []
  · rw [hne]
    rfl
  · obtain ⟨line, rfl⟩ := h.exists_eq hne
    exact Place.column_advance_break _ line

namespace Scanner

variable {s : Scanner} {rest : List Char}

/-- At the start of a line, with nothing left of the lines before. -/
structure Fresh (s : Scanner) : Prop where
  before : ∀ c ∈ s.before, c = '\n'
  modes : s.modes = .start
  /-- Faults lie on other lines. -/
  line_lt : ∀ f ∈ s.faults, f.place.line < s.place.line

theorem fresh_start : Fresh .start where
  before := by simp [start]
  modes := rfl
  line_lt := by simp [start]

/-- Passing a text that ends in a line feed, outside all modes. -/
theorem fresh_pass (hmodes : s.modes = .start) (hle : ∀ f ∈ s.faults, f.place.line ≤ s.place.line)
    (line : List Char) : (s.pass (line ++ ['\n'])).Fresh where
  before := by simp [pass]
  modes := hmodes
  line_lt f hf := by
    have hcount : 0 < (line ++ ['\n']).count '\n' := List.count_pos_iff.mpr (by simp)
    have hline := s.place.line_advance (line ++ ['\n'])
    have hf := hle f hf
    simp only [pass]
    omega

/-- What a step takes ends in a line feed only if it takes a line break, with the line in front of
it if that is not recognised. -/
theorem fresh_of_comes (hground : s.Grounded) {e : Event} (h : Comes s rest e) {line : List Char}
    (htaken : rest.take e.taken = line ++ ['\n']) :
    ((s.record rest e).pass (rest.take e.taken)).Fresh := by
  have hmem : '\n' ∈ rest.take e.taken := by rw [htaken]; simp
  rw [htaken]
  suffices hrecord : (s.record rest e).modes = .start ∧
      ∀ f ∈ (s.record rest e).faults, f.place.line ≤ (s.record rest e).place.line from
    fresh_pass hrecord.1 hrecord.2 line
  cases h with
  | layout _ hlayout => exact absurd (hlayout _ hmem) (by decide)
  | newline => exact ⟨rfl, hground.line_le⟩
  | token _ hfound =>
    exact absurd ((onLine_token? hfound).endsLine_eq_false hmem) (by decide)
  | unknownLine hmode =>
    have hinner := hground.modes.top_eq_lineStart_iff.mp hmode
    exact ⟨congrArg ModeStack.mk hinner, (hground.report ..).line_le⟩
  | unexpected _ hrest hbreak =>
    rw [hrest] at hmem
    exact absurd (List.mem_singleton.mp hmem).symm hbreak

/-- **Behind a line feed a line is started afresh.** -/
theorem fresh_run {line : List Char} (h : s.Grounded) : (s.run (line ++ ['\n'])).Fresh := by
  have hstart : s.Grounded ∧ WholeLines (line ++ ['\n']) ∧ (line ++ ['\n'] = [] → s.Fresh) :=
    ⟨h, by simp [WholeLines], by simp⟩
  have hrun := run_induction
    (P := fun s rest => s.Grounded ∧ WholeLines rest ∧ (rest = [] → s.Fresh))
    (fun {s rest} hne hs => ?_) hstart
  · exact hrun.2.2 rfl
  · obtain ⟨hground, hwhole, -⟩ := hs
    refine ⟨hground.step hne, hwhole.drop _, fun hnil => ?_⟩
    have htake : rest.take (s.next rest).taken = rest := by
      rw [← List.append_nil (rest.take _), ← hnil, List.take_append_drop]
    obtain ⟨line, hline⟩ := hwhole.exists_eq hne
    exact fresh_of_comes hground (comes_next hne) (htake.trans hline)

/-- At the start of a source, and behind whole lines of it. -/
theorem fresh_run_start (h : WholeLines as) : (start.run as).Fresh := by
  by_cases hne : as = []
  · rw [hne, run_nil]
    exact fresh_start
  · obtain ⟨line, rfl⟩ := h.exists_eq hne
    exact fresh_run grounded_start

end Scanner

end Daybook
