import Daybook.Proofs.Lexeme.Line
import Daybook.Token.Stream

/-!
# Tokens keep to their line

What a rule finds lies in front of the end of the line, and it is the same whatever the line ends
with and whatever stands behind it. So it is for every rule, and with the rules for every mode.

Results:
* `LineFinder find`: both facts about a finder; `lineFinder_of_mem_rules`: every rule has them.
* `amountToken?_cases`: what can be found of an amount.
* `token?_cases`: where a token of a mode comes from.
* `onLine_token?`, `ofLine_token?`: both facts about a mode.
-/

namespace Daybook

open Lexeme Text

variable {n : Nat} {c : Char} {cs line : List Char}

/-! ## Lengths -/

theorem ofLength_eq_some {found : Match} (h : Match.ofLength n = some found) :
    ∃ hpos, found = ⟨n, none, hpos⟩ := by
  unfold Match.ofLength at h
  split at h
  · next hpos => exact ⟨hpos, (Option.some.inj h).symm⟩
  · simp at h

theorem length_ofLength {found : Match} (h : Match.ofLength n = some found) : found.length = n := by
  obtain ⟨-, rfl⟩ := ofLength_eq_some h
  rfl

theorem payload_ofLength {found : Match} (h : Match.ofLength n = some found) :
    found.payload = none := by
  obtain ⟨-, rfl⟩ := ofLength_eq_some h
  rfl

theorem ofLength_eq_none : Match.ofLength n = none ↔ n = 0 := by
  unfold Match.ofLength
  split
  · next h => simp [Nat.ne_of_gt h]
  · next h => simp [Nat.eq_zero_of_not_pos h]

/-- Found lengths that fit. -/
theorem le_of_ofLength {m : Nat} (h : ∀ found ∈ Match.ofLength n, found.length ≤ m) : n ≤ m := by
  unfold Match.ofLength at h
  split at h
  · exact h _ rfl
  · next hzero => omega

/-! ## Amounts -/

theorem onLine_single (hc : endsLine c = false) (cs : List Char) :
    OnLine Match.single.length (c :: cs) := onLine_cons hc (Nat.zero_le _)

/-- The signs of amounts, and the kinds of their tokens. -/
def amountSigns : List (Char × Kind) :=
  [('-', .dash), ('@', .atSign), ('(', .openParen), (')', .closeParen), ('=', .equals),
    ('*', .asterisk)]

/-- What can be found of an amount: a number with a minus or without, a sign, or a commodity with
quotes or without. -/
inductive AmountToken : List Char → Kind → Match → Prop
  | negative {rest : List Char} {number : Match}
      (hnumber : Match.ofLength (numberLength rest) = some number) :
      AmountToken ('-' :: rest) .number ⟨number.length + 1, none, Nat.succ_pos _⟩
  | sign {c : Char} {kind : Kind} (hsign : (c, kind) ∈ amountSigns) (rest : List Char) :
      AmountToken (c :: rest) kind Match.single
  | quoted {cs inner : List Char} (hinner : quotedCommodity? cs = some inner) :
      AmountToken cs .commodity (Match.enclosing inner (.text (String.ofList inner)))
  | commodity {cs : List Char} {name : Match}
      (hname : Match.ofLength (cs.takeWhile isCommodityChar).length = some name) :
      AmountToken cs .commodity
        { name with payload := some (.text (String.ofList (cs.takeWhile isCommodityChar))) }
  | number {cs : List Char} {number : Match}
      (hnumber : Match.ofLength (numberLength cs) = some number) : AmountToken cs .number number

/-- What is found of an amount is one of these. -/
theorem amountToken?_cases {kind : Kind} {found : Match}
    (h : amountToken? cs = some (kind, found)) : AmountToken cs kind found := by
  unfold amountToken? at h
  split at h
  · simp at h
  · next rest =>
    split at h
    · next number hnumber =>
      cases h
      exact .negative hnumber
    · split at h
      · simp at h
      · cases h
        exact .sign (by decide) rest
  iterate 5
    next rest =>
      cases h
      exact .sign (by decide) rest
  · obtain ⟨inner, hinner, heq⟩ := Option.map_eq_some_iff.mp h
    cases heq
    exact .quoted hinner
  · simp only at h
    split at h
    · next name hname =>
      cases h
      exact .commodity hname
    · obtain ⟨number, hnumber, heq⟩ := Option.map_eq_some_iff.mp h
      cases heq
      exact .number hnumber

theorem onLine_amountToken? {kind : Kind} {found : Match}
    (h : amountToken? cs = some (kind, found)) : OnLine found.length cs := by
  cases amountToken?_cases h with
  | @negative rest number hnumber =>
    exact onLine_cons rfl (length_ofLength hnumber ▸ onLine_numberLength rest)
  | sign hsign rest =>
    have hline : ∀ x ∈ amountSigns, endsLine x.1 = false := by decide
    exact onLine_single (hline _ hsign) rest
  | quoted hinner => exact onLine_quotedCommodity? hinner
  | commodity hname =>
    exact length_ofLength hname ▸ onLine_takeWhile (fun _ => endsLine_of_isCommodityChar) cs
  | number hnumber => exact length_ofLength hnumber ▸ onLine_numberLength cs

theorem ofLine_amountToken? : OfLine amountToken? := by
  intro cs
  cases cs with
  | nil => rfl
  | cons c cs =>
    cases hc : endsLine c with
    | true =>
      -- what ends a line starts no amount
      have hname : isCommodityChar c = false := by
        rw [Bool.eq_false_iff]
        exact fun h => absurd (endsLine_of_isCommodityChar h) (by simp [hc])
      have hnumber : numberLength (c :: cs) = 0 := by
        have hline := ofLine_numberLength (c :: cs)
        rw [lineRest_of_endsLine hc] at hline
        rw [← hline]
        rfl
      rw [lineRest_of_endsLine hc]
      simp only [endsLine, Bool.or_eq_true, decide_eq_true_eq] at hc
      rcases hc with rfl | rfl <;> simp [amountToken?, hname, hnumber, Match.ofLength]
    | false =>
      have hnumber := ofLine_numberLength (c :: cs)
      have hquoted := ofLine_quotedCommodity? (c :: cs)
      have hname := takeWhile_lineRest (fun _ => endsLine_of_isCommodityChar) (c :: cs)
      have hdigit := ofLine_head? (fun _ => endsLine_of_isDigit) cs
      rw [lineRest_cons hc] at hnumber hquoted hname ⊢
      unfold amountToken?
      -- one branch for each sign; the last reads a commodity or a number
      split
      · next heq => simp at heq
      · next rest heq =>
        obtain ⟨rfl, rfl⟩ := List.cons.inj heq
        simp only [ofLine_numberLength cs, hdigit]
      iterate 5
        next heq =>
          obtain ⟨rfl, rfl⟩ := List.cons.inj heq
          rfl
      · next heq =>
        obtain ⟨rfl, rfl⟩ := List.cons.inj heq
        simp only [hquoted]
      · next hminus hat hopen hclose hequals hstar hquote =>
        have hne : ∀ {d : Char}, (∀ rest, c :: lineRest cs = d :: rest → False) → c ≠ d :=
          fun h heq => h _ (by rw [heq])
        simp only [hname, hnumber]
        simp [hne hminus, hne hat, hne hopen, hne hclose, hne hequals, hne hstar, hne hquote]

/-! ## Rules -/

/-- What the finder finds keeps to its line, and depends only on what stands in front of the end of
the line. -/
structure LineFinder (find : View → Option Match) : Prop where
  onLine : ∀ {v : View} {found : Match}, find v = some found → OnLine found.length v.rest
  ofLine : ∀ v : View, OfLine fun rest => find { v with rest }

/-- So many characters, if their number keeps to the line. -/
theorem lineFinder_ofLength {f : List Char → Nat} (hon : ∀ cs, OnLine (f cs) cs)
    (hline : OfLine f) : LineFinder fun v => Match.ofLength (f v.rest) where
  onLine h := length_ofLength h ▸ hon _
  ofLine _ := hline.comp Match.ofLength

/-- The same where there may be no answer. -/
theorem lineFinder_bind_ofLength {f : List Char → Option Nat}
    (hon : ∀ {cs n}, f cs = some n → OnLine n cs) (hline : OfLine f) :
    LineFinder fun v => (f v.rest).bind Match.ofLength where
  onLine h := by
    obtain ⟨n, hn, hfound⟩ := Option.bind_eq_some_iff.mp h
    exact length_ofLength hfound ▸ hon hn
  ofLine _ := hline.comp fun n => n.bind Match.ofLength

/-- A finder that is asked only where a test passes that does not look at the rest. -/
theorem LineFinder.guard {find : View → Option Match} (h : LineFinder find) (test : View → Bool)
    (htest : ∀ v rest, test { v with rest } = test v) :
    LineFinder fun v => if test v then find v else none where
  onLine hfound := by
    split at hfound
    · exact h.onLine hfound
    · simp at hfound
  ofLine v cs := by
    have hfind := h.ofLine v cs
    simp only at hfind ⊢
    rw [htest v (lineRest cs), htest v cs, hfind]

theorem lineFinder_sign (hc : endsLine c = false) : LineFinder (·.sign c) where
  onLine {v found} h := by
    unfold View.sign at h
    split at h
    · next hhead =>
      obtain ⟨rest, hrest⟩ := List.head?_eq_some_iff.mp hhead
      rw [hrest, ← Option.some.inj h]
      exact onLine_single hc rest
    · simp at h
  ofLine v cs := by
    have hhead := ofLine_head? (p := (· = c)) (fun d hd => by simp_all) cs
    have hany : ∀ head : Option Char, head = some c ↔ head.any (· = c) := by
      rintro ⟨⟩ <;> simp
    simp only [View.sign, hany, hhead]

theorem lineFinder_keyword {word : String} (hword : !word.toList.any endsLine) :
    LineFinder (·.keyword word) := by
  have hline : ∀ c ∈ word.toList, endsLine c = false := by simpa using hword
  exact lineFinder_ofLength (onLine_keywordLength hline) (ofLine_keywordLength hline)

theorem lineFinder_date : LineFinder View.date :=
  lineFinder_bind_ofLength onLine_dateLength? ofLine_dateLength?

theorem lineFinder_textUpTo (isStop : Char → Bool) : LineFinder (·.textUpTo isStop) :=
  lineFinder_ofLength (fun cs => onLine_freeRun isStop cs)
    ((ofLine_freeRun isStop).comp List.length)

theorem lineFinder_secondDateSign : LineFinder View.secondDateSign := by
  have hsign : LineFinder (·.sign '=') := lineFinder_sign rfl
  exact hsign.guard
    (fun v => v.follows [.date] && v.touches && v.history[1]?.all (·.kind ≠ .equals))
    fun _ _ => rfl

theorem lineFinder_secondDate : LineFinder View.secondDate :=
  lineFinder_date.guard (fun v => v.follows [.equals] && v.touches) fun _ _ => rfl

theorem lineFinder_tagName : LineFinder View.tagName :=
  (lineFinder_bind_ofLength onLine_tagNameLength? ofLine_tagNameLength?).guard
    (fun v => opensWord v.before) fun _ _ => rfl

theorem lineFinder_postingStatus (hc : endsLine c = false) : LineFinder (·.postingStatus c) :=
  (lineFinder_ofLength (onLine_keywordLength (by simpa using hc))
    (ofLine_keywordLength (by simpa using hc))).guard (·.follows [.indent]) fun _ _ => rfl

/-- What stands at the front where a cheque number is found. -/
theorem chequeNumber_eq_some {v : View} {found : Match} (h : v.chequeNumber = some found) :
    ∃ inner ahead, v.rest = '(' :: (inner ++ ')' :: ahead) ∧
      (∀ d ∈ inner, !(d = ')' || endsLine d)) ∧
      found = Match.enclosing inner (.text (String.ofList inner)) := by
  unfold View.chequeNumber at h
  split at h
  · next cs hrest =>
    obtain ⟨hhead, hfound⟩ := Option.ite_none_right_eq_some.mp h
    obtain ⟨ahead, hahead⟩ := List.head?_eq_some_iff.mp hhead
    refine ⟨_, ahead, ?_, fun _ => List.mem_takeWhile_imp, (Option.some.inj hfound).symm⟩
    rw [hrest, ← eq_run_append hahead]
  · simp at h

theorem lineFinder_chequeNumber : LineFinder View.chequeNumber where
  onLine {v found} h := by
    obtain ⟨inner, ahead, hrest, hinner, rfl⟩ := chequeNumber_eq_some h
    rw [hrest]
    refine onLine_enclosed rfl rfl (fun d hd => ?_) ahead
    have hd := hinner d hd
    simp only [Bool.not_eq_true', Bool.or_eq_false_iff] at hd
    exact hd.2
  ofLine v cs := by
    have hinner : ∀ c, (!(c = ')' || endsLine c)) → endsLine c = false := by
      intro c hc
      simp only [Bool.not_eq_true', Bool.or_eq_false_iff] at hc
      exact hc.2
    cases cs with
    | nil => rfl
    | cons c cs =>
      by_cases hc : c = '('
      · subst hc
        have hhead := ofLine_head? (p := (· = ')')) (by rintro c hc; simp_all [endsLine])
          (cs.dropWhile fun c => !(c = ')' || endsLine c))
        have hany : ∀ head : Option Char, head = some ')' ↔ head.any (· = ')') := by
          rintro ⟨⟩ <;> simp
        simp only [lineRest_cons (c := '(') rfl, View.chequeNumber, takeWhile_lineRest hinner,
          drop_run, drop_run_lineRest hinner, hany, hhead]
      · cases hends : endsLine c with
        | true => simp [lineRest_of_endsLine hends, View.chequeNumber, hc]
        | false => simp [lineRest_cons hends, View.chequeNumber, hc]

theorem lineFinder_formatKeyword : LineFinder View.formatKeyword where
  onLine h := by
    obtain ⟨hfound, -⟩ := Option.filter_eq_some_iff.mp h
    exact (lineFinder_keyword (by decide)).onLine hfound
  ofLine v cs := by
    have hfinder : LineFinder (·.keyword "format") := lineFinder_keyword (by decide)
    have hword := hfinder.ofLine v cs
    simp only at hword
    simp only [View.formatKeyword, hword]
    rfl

theorem lineFinder_realAccount : LineFinder View.realAccount where
  onLine h := by
    obtain ⟨found, hfound, rfl⟩ := Option.map_eq_some_iff.mp h
    exact length_ofLength hfound ▸ onLine_nameLength _
  ofLine v cs := by
    simp only [View.realAccount, ofLine_nameLength cs]
    cases hfound : Match.ofLength (nameLength cs) with
    | none => rfl
    | some found =>
      have hlen : found.length = nameLength cs := length_ofLength hfound
      simp only [Option.map_some, hlen, (onLine_nameLength cs).take_lineRest]

theorem lineFinder_enclosedAccount {opening closing : Char} (hopening : endsLine opening = false)
    (hclosing : endsLine closing = false) :
    LineFinder (·.enclosedAccount opening closing) where
  onLine h := by
    obtain ⟨inner, hinner, rfl⟩ := Option.map_eq_some_iff.mp h
    exact onLine_enclosedName? hopening hclosing hinner
  ofLine v := (ofLine_enclosedName? hopening hclosing).comp fun inner =>
    inner.map fun inner => Match.enclosing inner (.segments (pathNames inner))

/-! ## Modes -/

theorem lineFinder_inlineComment : LineFinder Rule.inlineComment.find := lineFinder_sign rfl

theorem lineFinder_accounts {move : Move} {rule : Rule} (h : rule ∈ Rule.accounts move) :
    LineFinder rule.find := by
  simp only [Rule.accounts, List.mem_cons, List.not_mem_nil, or_false] at h
  rcases h with rfl | rfl | rfl
  · exact lineFinder_enclosedAccount rfl rfl
  · exact lineFinder_enclosedAccount rfl rfl
  · exact lineFinder_realAccount

theorem LineFinder.atLineStart {find : View → Option Match} (h : LineFinder find) (kind : Kind)
    (mode : Mode) : LineFinder (Rule.atLineStart kind find mode).find :=
  h.guard View.atLineStart fun _ _ => rfl

theorem LineFinder.after {find : View → Option Match} (h : LineFinder find) (kinds : List Kind)
    (kind : Kind) (move : Move) : LineFinder (Rule.after kinds kind find move).find :=
  h.guard (·.follows kinds) fun _ _ => rfl

/-- The first of two line finders that finds something. -/
theorem LineFinder.orElse {f g : View → Option Match} (hf : LineFinder f) (hg : LineFinder g) :
    LineFinder fun v => f v <|> g v where
  onLine {v found} h := by
    cases hleft : f v with
    | none => rw [hleft] at h; exact hg.onLine h
    | some first => rw [hleft] at h; exact hf.onLine (hleft.trans h)
  ofLine v cs := by
    have hleft := hf.ofLine v cs
    have hright := hg.ofLine v cs
    simp only at hleft hright ⊢
    rw [hleft, hright]

/-- **Every rule keeps to its line.** -/
theorem lineFinder_of_mem_rules {mode : Mode} {rule : Rule} (h : rule ∈ mode.rules) :
    LineFinder rule.find := by
  cases mode <;>
    simp only [Mode.rules, List.mem_cons, List.mem_append, List.not_mem_nil, or_false] at h
  case lineStart =>
    rcases h with rfl | rfl | rfl | rfl | rfl | rfl | rfl
    · exact lineFinder_date.atLineStart ..
    · exact (lineFinder_keyword (by decide)).atLineStart ..
    · exact (lineFinder_keyword (by decide)).atLineStart ..
    · exact (lineFinder_keyword (by decide)).atLineStart ..
    · exact (lineFinder_keyword (by decide)).atLineStart ..
    · exact (lineFinder_ofLength onLine_layoutLength ofLine_layoutLength).atLineStart ..
    · exact ((lineFinder_sign rfl).orElse
        ((lineFinder_sign rfl).orElse (lineFinder_sign rfl))).atLineStart ..
  case header =>
    rcases h with rfl | rfl | rfl | rfl | rfl | rfl | rfl | rfl
    · exact lineFinder_secondDateSign
    · exact lineFinder_secondDate
    · exact (lineFinder_sign rfl).after ..
    · exact (lineFinder_sign rfl).after ..
    · exact lineFinder_chequeNumber.after ..
    · exact lineFinder_inlineComment
    · exact (lineFinder_sign rfl).after ..
    · exact lineFinder_textUpTo _
  case memo =>
    rcases h with rfl | rfl
    · exact lineFinder_inlineComment
    · exact lineFinder_textUpTo _
  case inlineComment =>
    rcases h with rfl | rfl | rfl
    · exact lineFinder_tagName
    · exact ((lineFinder_sign rfl).guard View.touches fun _ _ => rfl).after ..
    · exact lineFinder_ofLength onLine_textRun (ofLine_textRun.comp List.length)
  case tagValue =>
    rcases h with rfl | rfl
    · exact lineFinder_sign rfl
    · exact lineFinder_textUpTo _
  case lineComment =>
    subst h
    exact lineFinder_ofLength onLine_lineRest (ofLine_lineRest.comp List.length)
  case indented =>
    rcases h with (rfl | rfl | rfl | rfl) | h
    · exact lineFinder_inlineComment
    · exact lineFinder_formatKeyword
    · exact lineFinder_postingStatus rfl
    · exact lineFinder_postingStatus rfl
    · exact lineFinder_accounts h
  case amountLine =>
    subst h
    exact lineFinder_inlineComment
  case priceDirective =>
    rcases h with rfl | rfl
    · exact lineFinder_date.after ..
    · exact lineFinder_inlineComment
  case accountDirective =>
    rcases h with rfl | h
    · exact lineFinder_inlineComment
    · exact lineFinder_accounts h

/-- A token of a mode is found by one of its rules or as part of an amount. -/
theorem token?_cases {mode : Mode} {v : View} {kind : Kind} {found : Match} {move : Move}
    (h : mode.token? v = some (kind, found, move)) :
    (∃ rule ∈ mode.rules, rule.find v = some found ∧ rule.kind = kind ∧ rule.move = move) ∨
      mode.readsAmounts ∧ amountToken? v.rest = some (kind, found) ∧ move = .stay := by
  unfold Mode.token? at h
  split at h
  · next token htoken =>
    obtain ⟨rule, hrule, hfound⟩ := List.exists_of_findSome?_eq_some htoken
    obtain ⟨m, hm, heq⟩ := Option.map_eq_some_iff.mp hfound
    cases h
    simp only [Prod.mk.injEq] at heq
    obtain ⟨hkind, rfl, hmove⟩ := heq
    exact .inl ⟨rule, hrule, hm, hkind, hmove⟩
  · split at h
    · next hreads =>
      obtain ⟨⟨k, m⟩, hamount, heq⟩ := Option.map_eq_some_iff.mp h
      simp only [Prod.mk.injEq] at heq
      obtain ⟨rfl, rfl, hmove⟩ := heq
      exact .inr ⟨hreads, hamount, hmove.symm⟩
    · simp at h

/-- **What a mode finds keeps to its line.** -/
theorem onLine_token? {mode : Mode} {v : View} {kind : Kind} {found : Match} {move : Move}
    (h : mode.token? v = some (kind, found, move)) : OnLine found.length v.rest := by
  rcases token?_cases h with ⟨rule, hrule, hfound, -, -⟩ | ⟨-, hamount, -⟩
  · exact (lineFinder_of_mem_rules hrule).onLine hfound
  · exact onLine_amountToken? hamount

/-- Two views in which all rules of a mode find the same. -/
theorem token?_congr {mode : Mode} {v w : View}
    (hrules : ∀ rule ∈ mode.rules, rule.find v = rule.find w)
    (hamount : amountToken? v.rest = amountToken? w.rest) : mode.token? v = mode.token? w := by
  have hsome : mode.rules.findSome? (·.token? v) = mode.rules.findSome? (·.token? w) := by
    generalize mode.rules = rules at hrules
    induction rules with
    | nil => rfl
    | cons rule rules ih =>
      have hrest := ih fun r hr => hrules r (List.mem_cons_of_mem rule hr)
      simp only [List.findSome?_cons, Rule.token?, hrules rule List.mem_cons_self]
      cases rule.find w with
      | none => exact hrest
      | some found => rfl
  simp only [Mode.token?, hsome, hamount]

/-- **What a mode finds depends only on what stands in front of the end of the line.** -/
theorem ofLine_token? (mode : Mode) (v : View) :
    OfLine fun rest => mode.token? { v with rest } := fun cs =>
  token?_congr (fun _ hrule => (lineFinder_of_mem_rules hrule).ofLine v cs) (ofLine_amountToken? cs)

end Daybook
