import Daybook.Proofs.Lexeme.Cut
import Daybook.Proofs.Token.Reads

/-!
# Lines that are cut off behind a token

The declaration of a commodity may lack its line break, and then more may stand behind it on its
line. If the line is cut off there, the same tokens are read: up to the cut every step finds what it
found before. That the cut is behind a token matters, for some steps look ahead. Digits and commas
that form no number are passed over one by one, and free text ends in front of a tag; in both cases
what was looked at holds the next token, so it lies in front of the cut.

* `Ends back e s cs`: in front of `back` the tokenizer reads `cs` in whole steps, the last of which
  finds a token.
* `InDeclaration s`: the modes behind `commodity` or `D`.

Results:
* `Ends.groupedRun_le`, `Ends.keepsTag`: what is looked at is in front of the cut.
* `Ends.next_eq`: **a step does not look behind the cut.**
* `Ends.run_commodity`: **a line that declares a commodity is read by itself** up to a token.
-/

namespace Daybook

open Lexeme Text

variable {cs more : List Char} {c : Char}

/-! ## Amounts -/

/-- The commodity or the number at the front. -/
def nameOrNumber? (cs : List Char) : Option (Kind × Match) :=
  let name := cs.takeWhile isCommodityChar
  match Match.ofLength name.length with
  | some found => some (.commodity, { found with payload := some (.text (String.ofList name)) })
  | none => (Match.ofLength (numberLength cs)).map (.number, ·)

/-- What starts with no sign is a commodity or a number. -/
theorem amountToken?_of_not_mem (hc : c ∉ ['-', '@', '(', ')', '=', '*', '"']) (cs : List Char) :
    amountToken? (c :: cs) = nameOrNumber? (c :: cs) := by
  simp only [List.mem_cons, List.not_mem_nil, or_false, not_or] at hc
  cases hname : Match.ofLength ((c :: cs).takeWhile isCommodityChar).length with
  | none => simp [amountToken?, nameOrNumber?, hc, hname]
  | some found => simp [amountToken?, nameOrNumber?, hc, hname]

theorem nameOrNumber?_cut (hfit : ∀ x ∈ nameOrNumber? (cs ++ more), x.2.length ≤ cs.length)
    (hgrouped : digitRun (cs ++ more) ≠ [] → (groupedRun (cs ++ more)).length ≤ cs.length) :
    nameOrNumber? (cs ++ more) = nameOrNumber? cs := by
  have hname : (cs ++ more).takeWhile isCommodityChar = cs.takeWhile isCommodityChar := by
    refine ofFront_takeWhile _ _ _ (le_of_ofLength fun found hfound => ?_)
    unfold nameOrNumber? at hfit
    simp only [Option.mem_def.mp hfound] at hfit
    exact hfit _ rfl
  unfold nameOrNumber? at hfit ⊢
  simp only [hname] at hfit ⊢
  split
  · rfl
  · next hnone =>
    simp only [hnone] at hfit
    rw [numberLength_cut hgrouped (le_of_ofLength fun found hfound => hfit (.number, found) ?_)]
    rw [Option.mem_def.mp hfound]
    rfl

/-- A minus with a number behind it. -/
theorem amountToken?_minus (hpos : 0 < numberLength cs) :
    amountToken? ('-' :: cs) = some (.number, ⟨numberLength cs + 1, none, Nat.succ_pos _⟩) := by
  simp [amountToken?, Match.ofLength, hpos]

/-- A minus with no number behind it is a sign, unless a digit stands there. -/
theorem amountToken?_dash (hnumber : numberLength cs = 0) :
    amountToken? ('-' :: cs) =
      if cs.head?.any Char.isDigit then none else some (.dash, Match.single) := by
  simp [amountToken?, Match.ofLength, hnumber]

theorem amountToken?_minus_cut
    (hfit : ∀ x ∈ amountToken? ('-' :: (cs ++ more)), x.2.length ≤ cs.length + 1)
    (hgrouped : digitRun (cs ++ more) ≠ [] → (groupedRun (cs ++ more)).length ≤ cs.length) :
    amountToken? ('-' :: (cs ++ more)) = amountToken? ('-' :: cs) := by
  have hnumber : numberLength (cs ++ more) = numberLength cs := by
    refine numberLength_cut hgrouped ?_
    by_cases hpos : 0 < numberLength (cs ++ more)
    · rw [amountToken?_minus hpos] at hfit
      exact Nat.le_of_succ_le_succ (hfit _ rfl)
    · exact Nat.le_trans (Nat.le_of_not_gt hpos) (Nat.zero_le _)
  have hdigit : (cs ++ more).head?.any Char.isDigit = cs.head?.any Char.isDigit := by
    cases cs with
    | cons d cs => rfl
    | nil =>
      cases more with
      | nil => rfl
      | cons d more =>
        -- a digit right behind the cut would be kept
        show d.isDigit = false
        rw [Bool.eq_false_iff]
        intro hd
        have hlen := hgrouped (by simp [digitRun, hd])
        simp [groupedRun, hd] at hlen
  by_cases hpos : 0 < numberLength cs
  · rw [amountToken?_minus (hnumber ▸ hpos), amountToken?_minus hpos]
    simp only [hnumber]
  · have hzero := Nat.eq_zero_of_not_pos hpos
    rw [amountToken?_dash (hnumber.trans hzero), amountToken?_dash hzero, hdigit]

theorem quotedCommodity?_cut {f : List Char → Kind × Match}
    (hf : ∀ inner, (f inner).2.length = inner.length + 2)
    (hfit : ∀ x ∈ (quotedCommodity? (cs ++ more)).map f, x.2.length ≤ cs.length) :
    quotedCommodity? (cs ++ more) = quotedCommodity? cs := by
  refine ofFront_quotedCommodity? _ _ ?_
  cases hquoted : quotedCommodity? (cs ++ more) with
  | none => exact Nat.zero_le _
  | some inner =>
    have hlen := hfit (f inner) (by rw [hquoted]; rfl)
    rwa [hf] at hlen

/-- Part of an amount that fits is the same, if the digits and commas behind it are kept. -/
theorem amountToken?_cut
    (hfit : ∀ x ∈ amountToken? (c :: (cs ++ more)), x.2.length ≤ cs.length + 1)
    (hplain : digitRun (c :: (cs ++ more)) ≠ [] →
      (groupedRun (c :: (cs ++ more))).length ≤ cs.length + 1)
    (hminus : c = '-' → digitRun (cs ++ more) ≠ [] →
      (groupedRun (cs ++ more)).length ≤ cs.length) :
    amountToken? (c :: (cs ++ more)) = amountToken? (c :: cs) := by
  by_cases hc : c ∈ ['-', '@', '(', ')', '=', '*', '"']
  · simp only [List.mem_cons, List.not_mem_nil, or_false] at hc
    rcases hc with rfl | rfl | rfl | rfl | rfl | rfl | rfl
    · exact amountToken?_minus_cut hfit (hminus rfl)
    iterate 5 rfl
    · have hquoted : quotedCommodity? ('"' :: cs ++ more) = quotedCommodity? ('"' :: cs) :=
        quotedCommodity?_cut (fun _ => rfl) hfit
      exact congrArg (Option.map _) hquoted
  · rw [amountToken?_of_not_mem hc] at hfit ⊢
    rw [amountToken?_of_not_mem hc]
    rw [← List.cons_append] at hfit hplain ⊢
    exact nameOrNumber?_cut hfit hplain

namespace Scanner

variable {back rest gap tail : List Char} {e s : Scanner} {n : Nat}

/-! ## Texts that end with a token -/

/-- In front of `back` the tokenizer reads a text in whole steps, the last of which finds a token,
and then it stands in the state `e`. The token is not the name of a tag, for a colon belongs to
it. -/
inductive Ends (back : List Char) (e : Scanner) : Scanner → List Char → Prop
  /-- The last step. -/
  | last {s : Scanner} {cs : List Char} {kind : Kind} {found : Match} {move : Move}
      (hnext : s.next (cs ++ back) = .token kind found move) (hlen : found.length = cs.length)
      (hkind : kind ≠ .tagName) (he : s.step (cs ++ back) = e) : Ends back e s cs
  /-- A step that leaves something of the text. -/
  | step {s : Scanner} {cs : List Char} (hlt : (s.next (cs ++ back)).taken < cs.length)
      (h : Ends back e (s.step (cs ++ back)) (cs.drop (s.next (cs ++ back)).taken)) :
    Ends back e s cs

theorem Ends.taken_le (h : Ends back e s cs) : (s.next (cs ++ back)).taken ≤ cs.length := by
  cases h with
  | last hnext hlen =>
    rw [hnext]
    exact Nat.le_of_eq hlen
  | step hlt => exact Nat.le_of_lt hlt

theorem Ends.ne_nil (h : Ends back e s cs) : cs ≠ [] := by
  rintro rfl
  exact absurd h.taken_le (Nat.not_le_of_gt (s.next _).taken_pos)

/-- Behind a step that finds no token the text goes on. -/
theorem Ends.past (h : Ends back e s cs)
    (hnone : ∀ kind found move, s.next (cs ++ back) ≠ .token kind found move) :
    Ends back e (s.step (cs ++ back)) (cs.drop (s.next (cs ++ back)).taken) := by
  cases h with
  | last hnext => exact absurd hnext (hnone _ _ _)
  | step _ h => exact h

/-- Where whole steps lead to a token, the text ends with it. -/
theorem Reads.ends {t : Scanner} (h : Reads rest t s cs) {kind : Kind} {found : Match} {move : Move}
    (hnext : t.next rest = .token kind found move) (hkind : kind ≠ .tagName)
    (hle : found.length ≤ rest.length) :
    Ends (rest.drop found.length) (t.step rest) s (cs ++ rest.take found.length) := by
  have hsplit := List.take_append_drop found.length rest
  have hlen := List.length_take_of_le hle
  induction h with
  | nil =>
    have hnext' : t.next ([] ++ rest.take found.length ++ rest.drop found.length) =
        .token kind found move := by rw [List.nil_append, hsplit, hnext]
    refine .last hnext' hlen.symm hkind ?_
    rw [List.nil_append, hsplit]
  | @step s cs hne hle' _ ih =>
    have happend : cs ++ rest.take found.length ++ rest.drop found.length = cs ++ rest := by
      rw [List.append_assoc, hsplit]
    have hpos := found.length_pos
    refine .step ?_ ?_
    · rw [happend, List.length_append, hlen]
      omega
    · rw [happend, List.drop_append_of_le_length hle']
      exact ih

/-! ## What comes next inside a line -/

/-- Where no layout and no line break stands, a token comes or an unexpected character. -/
theorem next_of_inner (hmode : s.modes.top ≠ .lineStart) (hlayout : layoutLength rest = 0)
    (hbreak : newlineLength rest = 0) :
    s.next rest = match s.modes.top.token? (s.view rest) with
      | some (kind, found, move) => .token kind found move
      | none => .unexpected s.modes.top := by
  have hnone : ¬ 0 < s.modes.top.layoutLength rest := by
    have hle := layoutLength_mode_le s.modes.top rest
    omega
  cases htoken : s.modes.top.token? (s.view rest) with
  | none =>
    simp only [next, hnone, hbreak, Nat.lt_irrefl, dif_neg, not_false_eq_true, if_neg hmode, htoken]
  | some found =>
    simp only [next, hnone, hbreak, Nat.lt_irrefl, dif_neg, not_false_eq_true, htoken]

/-- A token that the mode finds there comes next. -/
theorem next_of_token? {kind : Kind} {found : Match} {move : Move}
    (hmode : s.modes.top ≠ .lineStart) (hlayout : layoutLength rest = 0)
    (hbreak : newlineLength rest = 0)
    (h : s.modes.top.token? (s.view rest) = some (kind, found, move)) :
    s.next rest = .token kind found move := by rw [next_of_inner hmode hlayout hbreak, h]

theorem layoutLength_of_not_isLayout (hc : isLayout c = false) (cs : List Char) :
    layoutLength (c :: cs) = 0 := by simp [layoutLength, hc]

theorem newlineLength_of_not_endsLine (hc : endsLine c = false) (cs : List Char) :
    newlineLength (c :: cs) = 0 := by
  simp only [endsLine, Bool.or_eq_false_iff, decide_eq_false_iff_not] at hc
  simp [newlineLength, hc.1, hc.2]

/-- Only a line break and a token change the modes. -/
theorem modes_step (s : Scanner) (rest : List Char) :
    (s.step rest).modes = match s.next rest with
      | .newline _ _ => .start
      | .token _ _ move => s.modes.move move
      | _ => s.modes := by
  cases hnext : s.next rest with
  | unexpected mode => simp only [step, pass, hnext, record, (s.tokens_reportMore _ mode).2]
  | _ => simp only [step, pass, hnext, record, report, note, ModeStack.reset]

theorem token?_amountLine (v : View) :
    Mode.amountLine.token? v = match v.sign ';' with
      | some found => some (.semicolon, found, .enter .inlineComment)
      | none => (amountToken? v.rest).map fun (kind, found) => (kind, found, .stay) := by
  simp only [Mode.token?, Mode.rules, List.findSome?_cons, List.findSome?_nil, Rule.token?,
    Rule.inlineComment, Mode.readsAmounts, if_true]
  cases v.sign ';' <;> rfl

/-- In the first line of a transaction a comment or a text comes next where no date and no other
sign stands. -/
theorem token?_header {v : View} {cs : List Char} (hrest : v.rest = c :: cs)
    (hc : c ∉ ['=', '*', '!', '(', '|']) (hdate : isDateChar c = false) :
    Mode.header.token? v = match v.sign ';' with
      | some found => some (.semicolon, found, .enter .inlineComment)
      | none => (v.textUpTo fun c => c = ';' || c = '|').map (.text, ·, .stay) := by
  simp only [List.mem_cons, List.not_mem_nil, or_false, not_or] at hc
  obtain ⟨hequals, hasterisk, hexclamation, hparen, hpipe⟩ := hc
  have hsign : ∀ d ≠ c, v.sign d = none := fun d hd => by simp [View.sign, hrest, hd.symm]
  have hnone : v.date = none := by
    have hrun : dateRun (c :: cs) = [] := List.takeWhile_cons_of_neg (by simp [hdate])
    rw [View.date, hrest, dateLength?, hrun]
    rfl
  have hcheque : v.chequeNumber = none := by
    rw [View.chequeNumber, hrest]
    split
    · next heq => exact absurd (List.cons.inj heq).1 hparen
    · rfl
  simp only [Mode.token?, Mode.rules, List.findSome?_cons, List.findSome?_nil, Rule.token?,
    Rule.after, Rule.inlineComment, View.secondDateSign, View.secondDate, hnone, hcheque,
    hsign _ (Ne.symm hequals), hsign _ (Ne.symm hasterisk), hsign _ (Ne.symm hexclamation),
    hsign _ (Ne.symm hpipe), ite_self, Option.map_none, Mode.readsAmounts]
  cases v.sign ';' with
  | some found => rfl
  | none => cases v.textUpTo fun c => c = ';' || c = '|' <;> rfl

/-- The colon right behind the name of a tag. -/
def tagColon (v : View) : Option Match :=
  if v.follows [.tagName] then if v.touches then v.sign ':' else none else none

theorem token?_inlineComment (v : View) :
    Mode.inlineComment.token? v = match v.tagName with
      | some found => some (.tagName, found, .stay)
      | none => match tagColon v with
        | some found => some (.tagColon, found, .enter .tagValue)
        | none => (Match.ofLength (textRun v.rest).length).map (.inlineText, ·, .stay) := by
  have hcolon : (Rule.after [.tagName] .tagColon (fun v => if v.touches then v.sign ':' else none)
      (.enter .tagValue)).find v = tagColon v := rfl
  simp only [Mode.token?, Mode.rules, List.findSome?_cons, List.findSome?_nil, Rule.token?, hcolon,
    Mode.readsAmounts]
  cases v.tagName with
  | some found => rfl
  | none =>
    cases tagColon v with
    | some found => rfl
    | none => cases Match.ofLength (textRun v.rest).length <;> rfl

theorem token?_tagValue (v : View) :
    Mode.tagValue.token? v = match v.sign ',' with
      | some found => some (.tagComma, found, .leave)
      | none => (v.textUpTo (· = ',')).map (.tagValue, ·, .stay) := by
  simp only [Mode.token?, Mode.rules, List.findSome?_cons, List.findSome?_nil, Rule.token?,
    Mode.readsAmounts]
  cases v.sign ',' with
  | some found => rfl
  | none => cases v.textUpTo (· = ',') <;> rfl

/-! ## Digits and commas -/

theorem toNat_of_isDigit (hc : c.isDigit) : 48 ≤ c.toNat ∧ c.toNat ≤ 57 := by
  simp only [Char.isDigit, Bool.and_eq_true, decide_eq_true_eq] at hc
  exact ⟨UInt32.le_iff_toNat_le.mp hc.1, UInt32.le_iff_toNat_le.mp hc.2⟩

/-- No commodity is written with digits or commas. -/
theorem isCommodityChar_of_isGrouped (hc : c.isDigit || c = ',') : isCommodityChar c = false := by
  have hrange : 44 ≤ c.toNat ∧ c.toNat ≤ 57 := by
    rw [Bool.or_eq_true, decide_eq_true_eq] at hc
    rcases hc with hdigit | rfl
    · have hrange := toNat_of_isDigit hdigit
      omega
    · decide
  have hletters : ∀ r ∈ letterRanges, 57 < r.1 := by decide +kernel
  have hsigns : ∀ r ∈ currencyRanges, r.2 < 44 ∨ 57 < r.1 := by decide +kernel
  rw [Bool.eq_false_iff]
  intro h
  rcases Bool.or_eq_true .. ▸ h with hletter | hsign
  · obtain ⟨r, hr, hlow, hhigh⟩ := exists_range_of_covers hletter
    have hout := hletters r hr
    omega
  · obtain ⟨r, hr, hlow, hhigh⟩ := exists_range_of_covers hsign
    have hout := hsigns r hr
    omega

/-- A digit and a comma are no sign and no layout. -/
theorem not_mem_of_isGrouped (hc : c.isDigit || c = ',') :
    c ∉ ['-', '@', '(', ')', '=', '*', '"', ';', ' ', '\t'] := by
  rw [Bool.or_eq_true, decide_eq_true_eq] at hc
  rcases hc with hdigit | rfl
  · intro hmem
    simp only [List.mem_cons, List.not_mem_nil, or_false] at hmem
    rcases hmem with rfl | rfl | rfl | rfl | rfl | rfl | rfl | rfl | rfl | rfl <;>
      exact absurd hdigit (by decide)
  · decide

/-- A digit or a comma starts a number that takes all digits and commas, or it is passed over. -/
theorem next_of_isGrouped (hmode : s.modes.top = .amountLine) (hc : c.isDigit || c = ',')
    (cs : List Char) :
    (∃ found, s.next (c :: cs) = .token .number found .stay ∧
      (groupedRun (c :: cs)).length ≤ found.length) ∨
        s.next (c :: cs) = .unexpected .amountLine := by
  have hends : endsLine c = false := endsLine_of_isGroupedChar hc
  have hnot := not_mem_of_isGrouped hc
  have hlayout : isLayout c = false := by simp_all [isLayout]
  have hsigns : c ∉ ['-', '@', '(', ')', '=', '*', '"'] := fun hmem => hnot (by simp_all)
  have hname : (c :: cs).takeWhile isCommodityChar = [] := by
    simp [isCommodityChar_of_isGrouped hc]
  have htoken : Mode.amountLine.token? (s.view (c :: cs)) =
      (Match.ofLength (numberLength (c :: cs))).map (.number, ·, .stay) := by
    have hsign : (s.view (c :: cs)).sign ';' = none := if_neg (by simp_all [view])
    rw [token?_amountLine, hsign]
    simp only [view, amountToken?_of_not_mem hsigns, nameOrNumber?, hname]
    simp [Match.ofLength]
  rw [next_of_inner (by simp [hmode]) (layoutLength_of_not_isLayout hlayout cs)
    (newlineLength_of_not_endsLine hends cs), hmode, htoken]
  by_cases hpos : 0 < numberLength (c :: cs)
  · refine .inl ⟨⟨numberLength (c :: cs), none, hpos⟩, ?_, ?_⟩
    · simp [Match.ofLength, hpos]
    · refine groupedRun_length_le ?_ hpos
      intro hdigits
      have hdigit : c.isDigit = false := by
        rw [Bool.eq_false_iff]
        exact fun hdigit => absurd hdigits (by simp [digitRun, hdigit])
      obtain rfl : c = ',' := by simpa [hdigit] using hc
      exact absurd hpos (by simp [numberLength, digitRun, fractionLength])
  · exact .inr (by simp [Match.ofLength, hpos])

/-- **The digits and commas in front are in front of the cut.** They end with the next token. -/
theorem Ends.groupedRun_le (h : Ends back e s cs) (hmode : s.modes.top = .amountLine) :
    (groupedRun (cs ++ back)).length ≤ cs.length := by
  induction cs generalizing s with
  | nil => exact absurd rfl h.ne_nil
  | cons c cs ih =>
    cases hc : c.isDigit || decide (c = ',') with
    | false => simp [groupedRun, hc]
    | true =>
      rw [List.cons_append] at *
      rcases next_of_isGrouped hmode hc (cs ++ back) with ⟨found, hnext, hle⟩ | hnext
      · have htaken := h.taken_le
        rw [List.cons_append, hnext] at htaken
        exact Nat.le_trans hle htaken
      · have hmore := h.past (by simp [hnext])
        rw [List.cons_append, hnext] at hmore
        have hmodes := modes_step s (c :: (cs ++ back))
        rw [hnext] at hmodes
        have hlen := ih hmore (by rw [hmodes, hmode])
        have hrun : groupedRun (c :: (cs ++ back)) = c :: groupedRun (cs ++ back) := by
          simp only [groupedRun, List.takeWhile_cons, hc, if_true]
        rw [hrun]
        exact Nat.succ_le_succ hlen

/-! ## Tags behind free text -/

/-- A tag at the start of a word is what comes next. -/
theorem next_of_tag (hmode : s.modes.top = .inlineComment) (hword : opensWord s.before)
    (htag : tagNameLength? tail = some n) :
    ∃ found, s.next tail = .token .tagName found .stay ∧ found.length = n ∧
      found.payload = none := by
  have hpos := tagNameLength?_pos htag
  obtain ⟨name, after, rfl, hne, hname, rfl⟩ := tagNameLength?_eq_some_iff.mp htag
  obtain ⟨c, name, rfl⟩ := List.exists_cons_of_ne_nil hne
  have hchar := hname c List.mem_cons_self
  have hlayout : isLayout c = false := by
    rw [Bool.eq_false_iff]
    intro hc
    simp [isTagNameChar, isBlank_of_isLayout hc] at hchar
  have hfound : (s.view (c :: name ++ ':' :: after)).tagName =
      some ⟨(c :: name).length, none, hpos⟩ := by
    simp only [View.tagName, view, hword, if_true, htag, Option.bind_some, Match.ofLength, hpos,
      dif_pos]
  refine ⟨⟨(c :: name).length, none, hpos⟩, ?_, rfl, rfl⟩
  rw [List.cons_append] at hfound ⊢
  rw [next_of_inner (by simp [hmode]) (layoutLength_of_not_isLayout hlayout _)
    (newlineLength_of_not_endsLine (endsLine_of_isTagNameChar hchar) _), hmode,
    token?_inlineComment, hfound]

/-- A gap in front of a tag is passed over, and not at once. -/
theorem next_of_gap (hmode : s.modes.top = .inlineComment)
    (hgap : ∀ d ∈ c :: gap, isBlank d ∧ endsLine d = false)
    (hword : opensWord (gap.getLast?.or (some c))) (htag : tagNameLength? tail = some n) :
    (∃ k h, s.next (c :: (gap ++ tail)) = .layout k h ∧ k ≤ gap.length + 1) ∨
      s.next (c :: (gap ++ tail)) = .unexpected .inlineComment := by
  obtain ⟨hblank, hends⟩ := hgap c List.mem_cons_self
  cases hlayout : isLayout c with
  | true =>
    obtain ⟨name, after, rfl, hne, hname, -⟩ := tagNameLength?_eq_some_iff.mp htag
    obtain ⟨d, name, rfl⟩ := List.exists_cons_of_ne_nil hne
    have hd : isLayout d = false := by
      rw [Bool.eq_false_iff]
      intro hd
      have hchar := hname d List.mem_cons_self
      simp [isTagNameChar, isBlank_of_isLayout hd] at hchar
    have hlen : layoutLength (c :: (gap ++ (d :: name ++ ':' :: after))) ≤ gap.length + 1 := by
      rw [← List.cons_append, layoutLength]
      rcases takeWhile_cut isLayout (c :: gap) (d :: name ++ ':' :: after) with ⟨-, hall⟩ | ⟨hlt, hcut⟩
      · rw [hall]
        simp [hd]
      · rw [hcut]
        exact Nat.le_of_lt hlt
    have hpos : 0 < layoutLength (c :: (gap ++ (d :: name ++ ':' :: after))) := by
      simp [layoutLength, hlayout]
    refine .inl ⟨_, hpos, ?_, hlen⟩
    have hmodeLength : s.modes.top.layoutLength (c :: (gap ++ (d :: name ++ ':' :: after))) =
        layoutLength (c :: (gap ++ (d :: name ++ ':' :: after))) := by rw [hmode]; rfl
    simp only [next, hmodeLength, hpos, dif_pos]
  | false =>
    have hname : (s.view (c :: (gap ++ tail))).tagName = none := by
      simp [View.tagName, view, tagNameLength?_of_isBlank hblank]
    have hcolon : tagColon (s.view (c :: (gap ++ tail))) = none := by
      have hne : c ≠ ':' := by
        rintro rfl
        exact absurd hblank (by decide)
      simp [tagColon, View.sign, view, hne]
    have htext : Match.ofLength (textRun (s.view (c :: (gap ++ tail))).rest).length = none :=
      ofLength_eq_none.mpr (List.length_eq_zero_iff.mpr (textRun_gap hgap hword htag))
    refine .inr ?_
    rw [next_of_inner (by simp [hmode]) (layoutLength_of_not_isLayout hlayout _)
      (newlineLength_of_not_endsLine hends _), hmode, token?_inlineComment, hname, hcolon, htext]
    rfl

/-- **A tag behind a gap is in front of the cut**, colon included. -/
theorem Ends.tag_le (h : Ends back e s cs) (hmode : s.modes.top = .inlineComment)
    (hsplit : cs ++ back = gap ++ tail) (hgap : ∀ d ∈ gap, isBlank d ∧ endsLine d = false)
    (hword : opensWord (gap.getLast?.or s.before)) (htag : tagNameLength? tail = some n) :
    gap.length + n + 1 ≤ cs.length := by
  induction hlen : gap.length using Nat.strongRecOn generalizing s cs gap with
  | ind m ih =>
    cases gap with
    | nil =>
      obtain ⟨found, hnext, rfl, -⟩ := next_of_tag hmode hword htag
      rw [List.nil_append] at hsplit
      rw [← hsplit] at hnext
      cases h with
      | last hlast _ hkind =>
        rw [hnext] at hlast
        cases hlast
        exact absurd rfl hkind
      | step hlt =>
        rw [hnext] at hlt
        rw [← hlen, List.length_nil, Nat.zero_add]
        exact hlt
    | cons c gap =>
      have hcomes := next_of_gap hmode hgap (by rwa [getLast?_cons_or] at hword) htag
      rw [← List.cons_append, ← hsplit] at hcomes
      -- `k` characters of the gap are passed over
      obtain ⟨k, htaken, hpos, hle, hnone, hmodes⟩ : ∃ k, (s.next (cs ++ back)).taken = k ∧ 0 < k ∧
          k ≤ (c :: gap).length ∧ (∀ kind found move, s.next (cs ++ back) ≠ .token kind found move) ∧
          (s.step (cs ++ back)).modes = s.modes := by
        have hmodes := modes_step s (cs ++ back)
        rcases hcomes with ⟨k, hk, hnext, hle⟩ | hnext
        · rw [hnext] at hmodes ⊢
          exact ⟨k, rfl, hk, hle, by simp, hmodes⟩
        · rw [hnext] at hmodes ⊢
          exact ⟨1, rfl, Nat.one_pos, Nat.succ_pos _, by simp, hmodes⟩
      have hfit := h.taken_le
      have hmore := h.past hnone
      have hbefore := before_step s (cs ++ back)
      rw [htaken] at hfit hmore hbefore
      have hdrop : cs.drop k ++ back = (c :: gap).drop k ++ tail := by
        rw [← List.drop_append_of_le_length hfit, ← List.drop_append_of_le_length hle, hsplit]
      have hshorter := ih _ ?_ hmore (hmodes ▸ hmode) hdrop
        (fun d hd => hgap d (List.mem_of_mem_drop hd)) ?_ rfl
      · rw [List.length_drop, List.length_drop] at hshorter
        omega
      · rw [← hlen, List.length_drop]
        omega
      · rw [hbefore, hsplit, List.take_append_of_le_length hle, ← Option.or_assoc,
          ← List.getLast?_append, List.take_append_drop]
        exact hword

/-- **A tag that ends free text in front of the cut is in front of it**, colon included. -/
theorem Ends.keepsTag (h : Ends back e s (c :: cs)) (hmode : s.modes.top = .inlineComment)
    (hlayout : layoutLength (c :: (cs ++ back)) = 0) (hends : endsLine c = false)
    (hname : (s.view (c :: (cs ++ back))).tagName = none)
    (hcolon : tagColon (s.view (c :: (cs ++ back))) = none) :
    KeepsTag (untilTag c (cs ++ back)) cs back := by
  intro hlt n htag
  obtain ⟨gap, tail, hgap, hsplit, htag, hgapEnds, hword⟩ := exists_gap_of_tag hends htag
  have hlen := congrArg List.length hgap
  rw [List.length_append, List.length_cons] at hlen
  generalize hrun : textRun (c :: (cs ++ back)) = text at hgap hsplit hlen hword
  cases text with
  | nil =>
    -- no text is found, and what would be one is all gap
    have hall : c :: cs ++ back = gap ++ tail := hsplit
    have hle := h.tag_le hmode hall hgapEnds (hword s.before) htag
    simp only [List.length_nil, List.length_cons] at hlen hle
    omega
  | cons d text =>
    have hpos : 0 < (d :: text).length := Nat.succ_pos _
    have hnext : s.next (c :: (cs ++ back)) =
        .token .inlineText ⟨(d :: text).length, none, hpos⟩ .stay := by
      rw [next_of_inner (by simp [hmode]) hlayout (newlineLength_of_not_endsLine hends _), hmode,
        token?_inlineComment, hname, hcolon]
      simp only [view, hrun, Match.ofLength, hpos, dif_pos, Option.map_some]
    cases h with
    | last hlast hfound =>
      rw [List.cons_append, hnext] at hlast
      cases hlast
      simp only [List.length_cons] at hfound hlen
      omega
    | step hlt h =>
      have hmodes := modes_step s (c :: (cs ++ back))
      have hbefore := before_step s (c :: (cs ++ back))
      rw [List.cons_append, hnext] at hlt h
      rw [hnext] at hmodes hbefore
      simp only [Event.taken] at hlt h hbefore
      have hrest : (c :: cs).drop (d :: text).length ++ back = gap ++ tail := by
        rw [← List.drop_append_of_le_length (Nat.le_of_lt hlt), List.cons_append, hsplit]
        exact List.drop_left' rfl
      have htake : (c :: (cs ++ back)).take (d :: text).length = d :: text := by
        rw [hsplit]
        exact List.take_left' rfl
      have hwordGap : opensWord (gap.getLast?.or (s.step (c :: (cs ++ back))).before) := by
        rw [hbefore, htake, ← Option.or_assoc, ← List.getLast?_append]
        exact hword s.before
      have hle := h.tag_le (hmodes ▸ hmode) hrest hgapEnds hwordGap htag
      simp only [List.length_drop, List.length_cons] at hlen hle hlt
      omega

/-! ## Steps in front of the cut -/

/-- The modes behind `commodity` and `D` on the line. -/
def InDeclaration (s : Scanner) : Prop :=
  s.modes.inner = [.amountLine] ∨ s.modes.inner = [.inlineComment, .amountLine] ∨
    s.modes.inner = [.tagValue, .inlineComment, .amountLine]

theorem InDeclaration.top (h : s.InDeclaration) :
    s.modes.top = .amountLine ∨ s.modes.top = .inlineComment ∨ s.modes.top = .tagValue := by
  unfold ModeStack.top
  rcases h with h | h | h <;> rw [h] <;> simp

theorem InDeclaration.inner (h : s.InDeclaration) : s.modes.top ≠ .lineStart := by
  rcases h.top with htop | htop | htop <;> rw [htop] <;> decide

/-- A step finds the same in front of a cut, if the mode finds the same token. -/
theorem next_eq_of_token? (h : s.InDeclaration) (hle : (s.next (cs ++ back)).taken ≤ cs.length)
    (htoken : layoutLength (cs ++ back) = 0 → newlineLength (cs ++ back) = 0 →
      s.modes.top.token? (s.view (cs ++ back)) = s.modes.top.token? (s.view cs)) :
    s.next (cs ++ back) = s.next cs := by
  have hmode : s.modes.top.layoutLength = layoutLength := by
    rcases h.top with htop | htop | htop <;> rw [htop] <;> rfl
  have hlayout : layoutLength (cs ++ back) = layoutLength cs := by
    refine ofFront_layoutLength cs back ?_
    by_cases hpos : 0 < layoutLength (cs ++ back)
    · simpa only [next, hmode, hpos, dif_pos, Event.taken, id] using hle
    · exact Nat.le_trans (Nat.le_of_not_gt hpos) (Nat.zero_le _)
  by_cases hpos : 0 < layoutLength (cs ++ back)
  · have hpos' := hlayout ▸ hpos
    simp only [next, hmode, hlayout, hpos', dif_pos]
  · have hpos' := hlayout ▸ hpos
    have hbreak : newlineLength (cs ++ back) = newlineLength cs := by
      refine ofFront_newlineLength cs back ?_
      by_cases hnew : 0 < newlineLength (cs ++ back)
      · simpa only [next, hmode, hpos, hnew, dif_pos, dif_neg, not_false_eq_true, Event.taken, id]
          using hle
      · exact Nat.le_trans (Nat.le_of_not_gt hnew) (Nat.zero_le _)
    by_cases hnew : 0 < newlineLength (cs ++ back)
    · have hnew' := hbreak ▸ hnew
      simp only [next, hmode, hlayout, hpos', hbreak, hnew', dif_pos, dif_neg, not_false_eq_true]
    · have hnew' := hbreak ▸ hnew
      have hsame := htoken (Nat.eq_zero_of_not_pos hpos) (Nat.eq_zero_of_not_pos hnew)
      simp only [next, hmode, hlayout, hpos', hbreak, hnew', dif_neg, not_false_eq_true, hsame,
        if_neg h.inner]

/-- A minus in front of digits that form no number is no sign. -/
theorem amountToken?_minus_eq_none (hdigits : digitRun rest ≠ []) (hnumber : numberLength rest = 0) :
    amountToken? ('-' :: rest) = none := by
  cases rest with
  | nil => exact absurd rfl hdigits
  | cons d rest =>
    have hd : d.isDigit := by
      by_contra hd
      exact hdigits (by simp [digitRun, hd])
    rw [amountToken?_dash hnumber, if_pos (by simpa using hd)]

theorem Ends.token?_amountLine_eq (h : Ends back e s (c :: cs)) (hmode : s.modes.top = .amountLine)
    (hlayout : layoutLength (c :: (cs ++ back)) = 0) (hbreak : newlineLength (c :: (cs ++ back)) = 0) :
    Mode.amountLine.token? (s.view (c :: (cs ++ back))) =
      Mode.amountLine.token? (s.view (c :: cs)) := by
  have hsign : (s.view (c :: cs)).sign ';' = (s.view (c :: (cs ++ back))).sign ';' := rfl
  have hnext := next_of_inner (by simp [hmode]) hlayout hbreak (s := s)
  rw [hmode] at hnext
  rw [token?_amountLine] at hnext ⊢
  rw [token?_amountLine, hsign]
  cases hsemicolon : (s.view (c :: (cs ++ back))).sign ';' with
  | some found => rfl
  | none =>
    rw [hsemicolon] at hnext
    have htaken := h.taken_le
    rw [List.cons_append, hnext] at htaken
    refine congrArg (Option.map _) (amountToken?_cut (fun x hx => ?_)
      (fun _ => h.groupedRun_le hmode) ?_)
    · simp only [view, Option.mem_def.mp hx] at htaken
      exact htaken
    · rintro rfl hdigits
      by_cases hpos : 0 < numberLength (cs ++ back)
      · simp only [view, amountToken?_minus hpos] at htaken
        exact Nat.le_trans (groupedRun_length_le hdigits hpos) (Nat.le_of_succ_le_succ htaken)
      · -- the minus is passed over with the digits behind it
        have hnone := amountToken?_minus_eq_none hdigits (Nat.eq_zero_of_not_pos hpos)
        simp only [view, hnone, Option.map_none] at hnext
        have hmore := h.past (by simp [hnext])
        have hmodes := modes_step s ('-' :: (cs ++ back))
        rw [List.cons_append, hnext] at hmore
        rw [hnext] at hmodes
        exact hmore.groupedRun_le (hmodes ▸ hmode)

theorem Ends.token?_inlineComment_eq (h : Ends back e s (c :: cs))
    (hmode : s.modes.top = .inlineComment) (hlayout : layoutLength (c :: (cs ++ back)) = 0)
    (hbreak : newlineLength (c :: (cs ++ back)) = 0) :
    Mode.inlineComment.token? (s.view (c :: (cs ++ back))) =
      Mode.inlineComment.token? (s.view (c :: cs)) := by
  have hcolon : tagColon (s.view (c :: cs)) = tagColon (s.view (c :: (cs ++ back))) := rfl
  have hnext := next_of_inner (by simp [hmode]) hlayout hbreak (s := s)
  rw [hmode, token?_inlineComment] at hnext
  have htaken := h.taken_le
  have hname : (s.view (c :: (cs ++ back))).tagName = (s.view (c :: cs)).tagName := by
    by_cases hword : opensWord s.before
    · have htag : tagNameLength? (c :: (cs ++ back)) = tagNameLength? (c :: cs) := by
        refine ofFront_tagNameLength? (c :: cs) back ?_
        cases htag : tagNameLength? (c :: cs ++ back) with
        | none => exact Nat.zero_le _
        | some n =>
          obtain ⟨found, hfound, rfl, -⟩ := next_of_tag hmode hword htag
          cases h with
          | last hlast _ hkind =>
            rw [hfound] at hlast
            cases hlast
            exact absurd rfl hkind
          | step hlt =>
            rw [hfound] at hlt
            exact hlt
      show (if opensWord s.before then (tagNameLength? (c :: (cs ++ back))).bind Match.ofLength
        else none) = if opensWord s.before then (tagNameLength? (c :: cs)).bind Match.ofLength
        else none
      rw [htag]
    · exact (if_neg hword).trans (if_neg hword).symm
  rw [token?_inlineComment, token?_inlineComment, hcolon, ← hname]
  cases hnone : (s.view (c :: (cs ++ back))).tagName with
  | some found => rfl
  | none =>
    cases hnoColon : tagColon (s.view (c :: (cs ++ back))) with
    | some found => rfl
    | none =>
      rw [hnone, hnoColon] at hnext
      have hrun : textRun (c :: (cs ++ back)) = textRun (c :: cs) := by
        cases hends : endsLine c with
        | true => rw [textRun, textRun, if_pos hends, if_pos hends]
        | false =>
          refine textRun_cut (le_of_ofLength fun found hfound => ?_)
            (h.keepsTag hmode hlayout hends hnone hnoColon)
          rw [List.cons_append, hnext] at htaken
          simp only [view, Option.mem_def.mp hfound] at htaken
          exact htaken
      simp only [view, hrun]

theorem Ends.token?_tagValue_eq (h : Ends back e s (c :: cs)) (hmode : s.modes.top = .tagValue)
    (hlayout : layoutLength (c :: (cs ++ back)) = 0) (hbreak : newlineLength (c :: (cs ++ back)) = 0) :
    Mode.tagValue.token? (s.view (c :: (cs ++ back))) =
      Mode.tagValue.token? (s.view (c :: cs)) := by
  have hsign : (s.view (c :: cs)).sign ',' = (s.view (c :: (cs ++ back))).sign ',' := rfl
  have hnext := next_of_inner (by simp [hmode]) hlayout hbreak (s := s)
  rw [hmode, token?_tagValue] at hnext
  have htaken := h.taken_le
  rw [List.cons_append, hnext] at htaken
  rw [token?_tagValue, token?_tagValue, hsign]
  cases hcomma : (s.view (c :: (cs ++ back))).sign ',' with
  | some found => rfl
  | none =>
    rw [hcomma] at htaken
    have hrun : freeRun (· = ',') (c :: cs ++ back) = freeRun (· = ',') (c :: cs) := by
      refine ofFront_freeRun _ (c :: cs) back (le_of_ofLength fun found hfound => ?_)
      simp only [View.textUpTo, view] at htaken
      rw [List.cons_append] at hfound
      simp only [Option.mem_def.mp hfound] at htaken
      exact htaken
    rw [List.cons_append] at hrun
    simp only [View.textUpTo, view, hrun]

/-- **A step does not look behind the cut.** -/
theorem Ends.next_eq (h : Ends back e s cs) (hmodes : s.InDeclaration) :
    s.next (cs ++ back) = s.next cs := by
  obtain ⟨c, cs, rfl⟩ := List.exists_cons_of_ne_nil h.ne_nil
  refine next_eq_of_token? hmodes h.taken_le fun hlayout hbreak => ?_
  rcases hmodes.top with htop | htop | htop <;> rw [htop]
  · exact h.token?_amountLine_eq htop hlayout hbreak
  · exact h.token?_inlineComment_eq htop hlayout hbreak
  · exact h.token?_tagValue_eq htop hlayout hbreak

/-! ## All steps in front of the cut -/

theorem move_of_token? {mode : Mode} {v : View} {kind : Kind} {found : Match} {move : Move}
    (h : mode.token? v = some (kind, found, move)) :
    move = .stay ∨ move ∈ mode.rules.map Rule.move := by
  rcases token?_cases h with ⟨rule, hrule, -, -, rfl⟩ | ⟨-, -, hstay⟩
  · exact .inr (List.mem_map_of_mem hrule)
  · exact .inl hstay

/-- Up to the end of the line the tokenizer stays in the declaration. -/
theorem InDeclaration.step (h : s.InDeclaration) (hne : rest ≠ [])
    (hline : '\n' ∉ rest.take (s.next rest).taken) : (s.step rest).InDeclaration := by
  have hmodes := modes_step s rest
  have hcomes := comes_next (s := s) hne
  generalize s.next rest = e at hmodes hcomes hline
  cases hcomes with
  | layout =>
    unfold InDeclaration
    rwa [hmodes]
  | newline hrest hbreak hlen =>
    refine absurd ?_ hline
    rw [hrest, Event.taken, ← hlen, List.take_left]
    rcases hbreak with rfl | rfl <;> decide
  | unknownLine hmode => exact absurd hmode h.inner
  | unexpected =>
    unfold InDeclaration
    rwa [hmodes]
  | token _ hfound =>
    have hmove := move_of_token? hfound
    unfold InDeclaration at h ⊢
    simp only at hmodes
    rw [hmodes]
    rcases h with h | h | h <;>
      simp only [ModeStack.top, h, List.head?_cons, Option.getD_some, Mode.rules, Rule.inlineComment,
        Rule.after, List.map_cons, List.map_nil, List.mem_cons, List.not_mem_nil, or_false] at hmove
    · rcases hmove with rfl | rfl <;> simp [ModeStack.move, ModeStack.push, h]
    · rcases hmove with rfl | rfl | rfl | rfl <;> simp [ModeStack.move, ModeStack.push, h]
    · rcases hmove with rfl | rfl | rfl <;> simp [ModeStack.move, ModeStack.pop, h]

/-- **The text in front of the cut is read by itself.** -/
theorem Ends.run_eq (h : Ends back e s cs) (hmodes : s.InDeclaration) (hline : '\n' ∉ cs) :
    s.run cs = e := by
  induction h with
  | @last s cs kind found move hnext hlen hkind he =>
    have hends : Ends back e s cs := .last hnext hlen hkind he
    have hsame := hends.next_eq hmodes
    obtain ⟨c, tail, rfl⟩ := List.exists_cons_of_ne_nil hends.ne_nil
    have hall : (s.next (c :: tail)).taken = (c :: tail).length := by rw [← hsame, hnext]; exact hlen
    rw [run_cons, hall, List.drop_length, run_nil, ← step_of_next hsame (Nat.le_of_eq hall), he]
  | @step s cs hlt hmore ih =>
    have hends : Ends back e s cs := .step hlt hmore
    have hsame := hends.next_eq hmodes
    obtain ⟨c, tail, rfl⟩ := List.exists_cons_of_ne_nil hends.ne_nil
    have hle : (s.next (c :: tail)).taken ≤ (c :: tail).length := hsame ▸ Nat.le_of_lt hlt
    have hstep := step_of_next hsame hle
    rw [run_cons, ← hsame, ← hstep]
    refine ih ?_ fun hmem => hline (List.mem_of_mem_drop hmem)
    rw [hstep]
    exact hmodes.step (List.cons_ne_nil c tail) fun hmem => hline (List.mem_of_mem_take hmem)

theorem token?_lineStart_commodity {v : View} (hstart : v.atLineStart) {d : Char}
    (hd : isLayout d) (hrest : v.rest = "commodity".toList ++ d :: more) :
    Mode.lineStart.token? v =
      some (.commodityKeyword, ⟨9, none, Nat.succ_pos 8⟩, .enter .amountLine) := by
  have hdate : v.date = none := by
    rw [View.date, hrest]
    rfl
  have hprice : v.keyword "P" = none := by
    rw [View.keyword, hrest]
    rfl
  have haccount : v.keyword "account" = none := by
    rw [View.keyword, hrest]
    rfl
  have hfound : v.keyword "commodity" = some ⟨9, none, Nat.succ_pos 8⟩ := by
    rw [View.keyword, hrest, keywordLength_append hd]
    rfl
  simp only [Mode.token?, Mode.rules, List.findSome?_cons, Rule.token?, Rule.atLineStart, hstart,
    if_true, hdate, hprice, haccount, hfound, Option.map_none, Option.map_some]

/-- `commodity` at the start of a line is found whatever is behind it. -/
theorem next_of_commodity (hmode : s.modes.top = .lineStart) (hstart : (s.view []).atLineStart)
    {d : Char} (hd : isLayout d) (more : List Char) :
    s.next ("commodity".toList ++ d :: more) =
      .token .commodityKeyword ⟨9, none, Nat.succ_pos 8⟩ (.enter .amountLine) := by
  have hlayout : emptyLineLength ("commodity".toList ++ d :: more) = 0 := rfl
  have hbreak : newlineLength ("commodity".toList ++ d :: more) = 0 := rfl
  have hfound := token?_lineStart_commodity
    (v := s.view ("commodity".toList ++ d :: more)) hstart hd rfl
  simp only [next, hmode, Mode.layoutLength, hlayout, hbreak, Nat.lt_irrefl, dif_neg,
    not_false_eq_true, hfound]

/-- What a line that declares a commodity starts with. -/
theorem commodity_of_next (hmode : s.modes.top = .lineStart) {found : Match} {move : Move}
    (hnext : s.next rest = .token .commodityKeyword found move) (hne : rest ≠ []) :
    found.length = 9 ∧ (s.view []).atLineStart ∧
      ∃ d more, isLayout d ∧ rest = "commodity".toList ++ d :: more := by
  have hcomes := comes_next (s := s) hne
  rw [hnext] at hcomes
  cases hcomes with
  | token _ hfound =>
    rw [hmode] at hfound
    rcases token?_cases hfound with ⟨rule, hrule, hfind, hkind, -⟩ | ⟨hreads, -⟩
    · obtain rfl : rule = .atLineStart .commodityKeyword (·.keyword "commodity") .amountLine := by
        simp only [Mode.rules, List.mem_cons, List.not_mem_nil, or_false] at hrule
        rcases hrule with rfl | rfl | rfl | rfl | rfl | rfl | rfl <;>
          first | rfl | exact absurd hkind (by decide)
      simp only [Rule.atLineStart] at hfind
      split at hfind
      · next hstart =>
        have hlen := length_ofLength hfind
        obtain ⟨-, d, more, hd, hrest⟩ := keywordLength_pos_iff.mp (hlen ▸ found.length_pos)
        refine ⟨?_, hstart, d, more, hd, hrest⟩
        rw [hlen, show (s.view rest).rest = _ from hrest, keywordLength_append hd]
        rfl
      · cases hfind
    · exact absurd hreads (by decide)

/-- The first step on a line that declares a commodity, if there is more than one. -/
theorem Ends.next_commodity (h : Ends back e s cs) (hmode : s.modes.top = .lineStart)
    {found : Match} {move : Move} (hnext : s.next (cs ++ back) = .token .commodityKeyword found move)
    (hmore : found.length < cs.length) :
    s.next (cs ++ back) = s.next cs ∧ move = .enter .amountLine := by
  obtain ⟨hlen, hstart, d, more, hd, htext⟩ :=
    commodity_of_next hmode hnext (List.append_ne_nil_of_left_ne_nil h.ne_nil back)
  obtain ⟨k, hk⟩ := Nat.exists_eq_add_of_lt (hlen ▸ hmore)
  have hcs : cs = "commodity".toList ++ d :: more.take k := by
    calc cs = (cs ++ back).take cs.length := List.take_left.symm
      _ = ("commodity".toList ++ d :: more).take (9 + k + 1) := by rw [htext, hk]
      _ = "commodity".toList ++ d :: more.take k := by
        exact @List.take_length_add_append _ "commodity".toList _ (k + 1)
  have hfound := next_of_commodity hmode hstart hd more
  rw [← htext, hnext] at hfound
  constructor
  · conv_rhs => rw [hcs]
    rw [htext, next_of_commodity hmode hstart hd, next_of_commodity hmode hstart hd]
  · cases hfound
    rfl

/-- **A line that declares a commodity is read by itself**, up to any of its tokens. -/
theorem Ends.run_commodity (h : Ends back e s cs) (hmodes : s.modes = .start) {found : Match}
    {move : Move} (hnext : s.next (cs ++ back) = .token .commodityKeyword found move)
    (hmore : found.length < cs.length) (hline : '\n' ∉ cs) : s.run cs = e := by
  obtain ⟨hsame, hmove⟩ := h.next_commodity (by rw [hmodes]; rfl) hnext hmore
  have htaken : (s.next (cs ++ back)).taken = found.length := by rw [hnext]; rfl
  have hstep := step_of_next hsame (hsame ▸ htaken ▸ Nat.le_of_lt hmore)
  have hinside : (s.step (cs ++ back)).InDeclaration := by
    refine .inl ?_
    rw [modes_step, hnext, hmodes, hmove]
    rfl
  obtain ⟨c, tail, rfl⟩ := List.exists_cons_of_ne_nil h.ne_nil
  cases h with
  | last hlast hall =>
    rw [hlast] at htaken
    exact absurd (htaken.symm.trans hall) (Nat.ne_of_lt hmore)
  | step _ h =>
    rw [run_cons, ← hsame, ← hstep]
    exact h.run_eq hinside fun hmem => hline (List.mem_of_mem_drop hmem)

end Scanner

end Daybook
