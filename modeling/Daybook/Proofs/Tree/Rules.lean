import Daybook.Proofs.Tree.Reads

/-!
# What each rule reads

Every rule of the grammar is a chain of combinators, so what it reads follows part by part. One rule
is read more often than this says: a commodity with its own line break, or with lines, may be
followed by an empty line. About the rules from `amount` to `journal_item`.

Results:
* `reads_item`: **an item is read as it is spelled**, if nothing behind it could belong to it.
* `item_complete`: this is so where an empty line or the next item comes behind it.
* `exists_opener`: the first token of an item tells its rule.
-/

namespace Daybook.Tree.Grammar

open Daybook.Tree.Parser RegularExpression

theorem reads_status :
    Reads (fun _ => True) status spellStatus Production.status [] := by
  refine reads_satisfy fun word => ?_
  simp only [Production.status, matches'_add, Language.mem_add, matches'_char]
  constructor
  · rintro (rfl | rfl)
    · exact ⟨.asterisk, rfl, rfl⟩
    · exact ⟨.exclamation, rfl, rfl⟩
  · rintro ⟨kind, rfl, hkind⟩
    simp only [Bool.or_eq_true, decide_eq_true_eq] at hkind
    rcases hkind with rfl | rfl
    · exact .inl rfl
    · exact .inr rfl

theorem reads_account :
    Reads (fun _ => True) account (spell Kind.isAccount) Production.account [] := by
  refine reads_satisfy fun word => ?_
  simp only [Production.account, matches'_add, Language.mem_add, matches'_char]
  constructor
  · rintro ((rfl | rfl) | rfl)
    · exact ⟨.realAccount, rfl, rfl⟩
    · exact ⟨.virtualAccount, rfl, rfl⟩
    · exact ⟨.balancedAccount, rfl, rfl⟩
  · rintro ⟨kind, rfl, hkind⟩
    cases kind
    case realAccount => exact .inl (.inl rfl)
    case virtualAccount => exact .inl (.inr rfl)
    case balancedAccount => exact .inr rfl
    all_goals exact absurd hkind (by decide)

theorem reads_tag :
    Reads (fun _ => True) tag Tag.spellings Production.tag [.tagValue, .tagComma] := by
  refine ((reads_token .tagName).bind Tag.name fun name =>
    (reads_token .tagColon).bind Tag.colon fun colon =>
    ((reads_token .tagValue).maybe rfl).bind Tag.value fun value =>
    ((reads_token .tagComma).maybe rfl).bind Tag.comma fun comma =>
    reads_pure ?_).congr ?_ ?_
  · rintro ⟨⟩
    simp [and_assoc]
  · intro x _
    simp only [Tag.spellings, mul_assoc, mul_one]
  · simp only [Production.tag, matches'_mul, matches'_epsilon, mul_assoc, mul_one]

theorem reads_commentPart :
    Reads (fun _ => True) (orElse (CommentPart.tag <$> tag) (.text <$> token .inlineText))
      CommentPart.spellings (Production.tag + char .inlineText) [.tagValue, .tagComma] := by
  have htag := reads_tag.map CommentPart.tag CommentPart.spellings fun _ => rfl
  have htext := (reads_token .inlineText).map CommentPart.text CommentPart.spellings fun _ => rfl
  refine htag.choice htext rfl rfl ?_
  rintro (t | t) ts <;> simp

theorem reads_comment :
    Reads (fun _ => True) comment Comment.spellings Production.comment
      [.tagName, .inlineText, .tagValue, .tagComma] := by
  refine ((reads_token .semicolon).bind Comment.semicolon fun semicolon =>
    (reads_commentPart.many rfl).bind Comment.parts fun parts =>
    reads_pure ?_).congr ?_ ?_
  · rintro ⟨⟩
    simp
  · intro x _
    simp only [Comment.spellings, mul_one]
  · simp only [Production.comment, matches'_mul, matches'_epsilon, mul_one]

/-- The commodity stands in front of the number. -/
theorem reads_commodityFirst :
    Reads (fun a => a.commodity.isSome) commodityFirst
      (fun a => spellOption (spellKind .dash) a.dash *
        spellKind .commodity (a.commodity.getD a.number) * spellKind .number a.number)
      (Production.optional (char .dash) * char .commodity * char .number) [] := by
  refine (((reads_token .dash).maybe rfl).bind Amount.dash fun dash =>
    (reads_token .commodity).bind (fun a => a.commodity.getD a.number) fun commodity =>
    (reads_token .number).bind Amount.number fun number =>
    reads_pure ?_).congr ?_ ?_
  · rintro ⟨d, - | c, n⟩
    · simp
    · simp [and_assoc]
  · intro x _
    simp only [mul_assoc, mul_one]
  · simp only [matches'_mul, matches'_epsilon, mul_assoc, mul_one]

/-- The commodity stands behind the number or not at all. -/
theorem reads_numberFirst :
    Reads (fun a => a.dash = none) numberFirst
      (fun a => spellKind .number a.number * spellOption (spellKind .commodity) a.commodity)
      (char .number * Production.optional (char .commodity)) [.commodity] := by
  refine ((reads_token .number).bind Amount.number fun number =>
    ((reads_token .commodity).maybe rfl).bind Amount.commodity fun commodity =>
    reads_pure ?_).congr ?_ ?_
  · rintro ⟨d, c, n⟩
    simp only [Amount.mk.injEq, and_assoc]
    exact and_congr_right fun _ => and_comm
  · intro x _
    simp only [mul_one]
  · simp only [matches'_mul, matches'_epsilon, mul_one]

theorem reads_amount :
    Reads (fun _ => True) amount Amount.spellings Production.amount [.commodity] := by
  refine reads_commodityFirst.choice reads_numberFirst rfl rfl ?_
  rintro ⟨- | d, - | c, n⟩ ts <;> simp [Amount.spellings, spellOption, Language.mem_add]

theorem reads_lotSigns :
    Reads (fun _ => True) lotSigns (fun signs => spellLotSigns none signs.1 signs.2)
      Production.lotSigns [.atSign] := by
  refine ((reads_token .atSign).bind Prod.fst fun sign =>
    ((reads_token .atSign).maybe rfl).bind Prod.snd fun second =>
    reads_pure ?_).congr ?_ ?_
  · rintro ⟨⟩
    simp
  · intro x _
    simp only [spellLotSigns, mul_one]
  · simp only [Production.lotSigns, matches'_mul, matches'_epsilon, mul_one]

theorem reads_virtualLotSigns :
    Reads (fun x => x.1.isSome) virtualLotSigns (fun x => spellLotSigns x.1 x.2.1 x.2.2)
      (char .openParen * Production.lotSigns * char .closeParen) [] := by
  refine ((reads_token .openParen).bind
      (fun x : Option (Token × Token) × Token × Option Token => (x.1.map (·.1)).getD x.2.1)
      fun opening =>
    reads_lotSigns.bind Prod.snd fun signs =>
    (reads_token .closeParen).bind
      (fun x : Option (Token × Token) × Token × Option Token => (x.1.map (·.2)).getD x.2.1)
      fun closing =>
    reads_pure ?_).congr ?_ ?_
  · rintro ⟨- | ⟨o, c⟩, signs⟩
    · simp
    · constructor
      · rintro ⟨⟨⟨-, rfl⟩, rfl⟩, rfl⟩
        rfl
      · rintro ⟨⟩
        exact ⟨⟨⟨rfl, rfl⟩, rfl⟩, rfl⟩
  · rintro ⟨- | ⟨o, c⟩, signs⟩ hx
    · simp at hx
    · simp [spellLotSigns, mul_assoc]
  · simp only [matches'_mul, matches'_epsilon, mul_assoc, mul_one]

theorem reads_anyLotSigns :
    Reads (fun _ => True) (orElse virtualLotSigns ((none, ·) <$> lotSigns))
      (fun x => spellLotSigns x.1 x.2.1 x.2.2)
      (char .openParen * Production.lotSigns * char .closeParen + Production.lotSigns)
      [.atSign] := by
  have hbare := reads_lotSigns.map (fun signs => ((none : Option (Token × Token)), signs))
    (fun x => spellLotSigns x.1 x.2.1 x.2.2) fun _ => rfl
  refine reads_virtualLotSigns.choice hbare rfl rfl ?_
  rintro ⟨- | _, _⟩ ts <;> simp

theorem reads_lotPrice :
    Reads (fun _ => True) lotPrice LotPrice.spellings Production.lotPrice [.commodity] := by
  refine (reads_anyLotSigns.bind (fun l => (l.parens, l.sign, l.second))
    fun ⟨parens, sign, second⟩ => reads_amount.bind LotPrice.amount fun amount =>
    reads_pure ?_).congr ?_ ?_
  · rintro ⟨⟩
    simp [and_assoc]
  · intro x _
    simp only [LotPrice.spellings, mul_one]
  · simp only [Production.lotPrice, matches'_mul, matches'_epsilon, mul_one]

theorem reads_assertion :
    Reads (fun _ => True) assertion Assertion.spellings Production.assertion [.commodity] := by
  refine ((reads_token .equals).bind Assertion.sign fun sign =>
    ((reads_token .equals).maybe rfl).bind Assertion.second fun second =>
    ((reads_token .asterisk).maybe rfl).bind Assertion.asterisk fun asterisk =>
    reads_amount.bind Assertion.amount fun amount =>
    reads_pure ?_).congr ?_ ?_
  · rintro ⟨⟩
    simp [and_assoc]
  · intro x _
    simp only [Assertion.spellings, mul_assoc, mul_one]
  · simp only [Production.assertion, matches'_mul, matches'_epsilon, mul_assoc, mul_one]

theorem reads_posting :
    Reads (fun _ => True) posting Posting.spellings Production.posting
      [.dash, .commodity, .number, .openParen, .atSign, .equals, .semicolon, .tagName,
        .inlineText, .tagValue, .tagComma] := by
  refine ((reads_status.maybe rfl).bind Posting.status fun status =>
    reads_account.bind Posting.account fun account =>
    (reads_amount.maybe rfl).bind Posting.amount fun amount =>
    (reads_lotPrice.maybe rfl).bind Posting.lotPrice fun lotPrice =>
    (reads_assertion.maybe rfl).bind Posting.assertion fun assertion =>
    (reads_comment.maybe rfl).bind Posting.comment fun comment =>
    reads_pure ?_).congr ?_ ?_
  · rintro ⟨⟩
    simp [and_assoc]
  · intro x _
    simp only [Posting.spellings, mul_assoc, mul_one]
  · simp only [Production.posting, matches'_mul, matches'_epsilon, mul_assoc, mul_one]

/-- A line with something on it that does not go on at a line break. -/
theorem reads_line {α : Type} {p : Parser α} {s : α → Language Token}
    {P : RegularExpression Kind} {stop : List Kind} (h : Reads (fun _ => True) p s P stop)
    (hstop : .newline ∉ stop := by decide) :
    Reads (fun _ => True) (line p) (Line.spellings s) (Production.line P) [] := by
  have hbreak : ∀ kind ∈ Production.firsts (char .newline * 1), kind ∉ stop := by
    intro kind hkind
    obtain rfl := List.mem_singleton.mp hkind
    exact hstop
  refine ((reads_token .indent).bind Line.indent (fun indent =>
    h.bind Line.body (fun body =>
    (reads_token .newline).bind Line.newline fun newline =>
    reads_pure ?_) hbreak) ?_).congr ?_ ?_ ?_
  · rintro ⟨⟩
    simp [and_assoc]
  · simp
  · intro x _
    simp only [Line.spellings, mul_assoc, mul_one]
  · simp only [Production.line, matches'_mul, matches'_epsilon, mul_assoc, mul_one]
  · simp [matchEpsilon]

theorem reads_secondDate :
    Reads (fun _ => True) secondDate SecondDate.spellings Production.secondDate [] := by
  refine ((reads_token .equals).bind SecondDate.equals fun equals =>
    (reads_token .date).bind SecondDate.date fun date =>
    reads_pure ?_).congr ?_ ?_
  · rintro ⟨⟩
    simp
  · intro x _
    simp only [SecondDate.spellings, mul_one]
  · simp only [Production.secondDate, matches'_mul, matches'_epsilon, mul_one]

theorem reads_memo :
    Reads (fun _ => True) memo Memo.spellings (char .pipe * Production.optional (char .text))
      [.text] := by
  refine ((reads_token .pipe).bind Memo.pipe fun pipe =>
    ((reads_token .text).maybe rfl).bind Memo.text fun text =>
    reads_pure ?_).congr ?_ ?_
  · rintro ⟨⟩
    simp
  · intro x _
    simp only [Memo.spellings, mul_one]
  · simp only [matches'_mul, matches'_epsilon, mul_one]

theorem reads_description :
    Reads (fun _ => True) description Description.spellings Production.description
      [.text, .pipe] := by
  refine ((reads_token .text).bind Description.text fun text =>
    (reads_memo.maybe rfl).bind Description.memo fun memo =>
    reads_pure ?_).congr ?_ ?_
  · rintro ⟨⟩
    simp
  · intro x _
    simp only [Description.spellings, mul_one]
  · simp only [Production.description, matches'_mul, matches'_epsilon, mul_one]

theorem reads_content :
    Reads (fun _ => True) content Content.spellings (Production.posting + Production.comment)
      [.dash, .commodity, .number, .openParen, .atSign, .equals, .semicolon, .tagName,
        .inlineText, .tagValue, .tagComma] := by
  have hposting := reads_posting.map Content.posting Content.spellings fun _ => rfl
  have hcomment := reads_comment.map Content.comment Content.spellings fun _ => rfl
  refine (hposting.choice hcomment rfl rfl ?_).congr (fun _ _ => rfl) rfl
  rintro (p | c) ts <;> simp

theorem reads_transaction :
    Reads (fun _ => True) transaction Transaction.spellings Production.transaction [.indent] := by
  refine ((reads_token .date).bind Transaction.date fun date =>
    (reads_secondDate.maybe rfl).bind Transaction.secondDate fun secondDate =>
    (reads_status.maybe rfl).bind Transaction.status fun status =>
    ((reads_token .chequeNumber).maybe rfl).bind Transaction.chequeNumber fun chequeNumber =>
    (reads_description.maybe rfl).bind Transaction.description fun description =>
    (reads_comment.maybe rfl).bind Transaction.comment fun comment =>
    (reads_token .newline).bind Transaction.newline fun newline =>
    ((reads_line reads_content).many rfl).bind Transaction.lines fun lines =>
    reads_pure ?_).congr ?_ ?_
  · rintro ⟨⟩
    simp [and_assoc]
  · intro x _
    simp only [Transaction.spellings, mul_assoc, mul_one]
  · simp only [Production.transaction, Production.transactionHead, matches'_mul,
      matches'_epsilon, mul_assoc, mul_one]

theorem reads_lineComment :
    Reads (fun _ => True) lineComment LineComment.spellings Production.lineComment [] := by
  refine ((reads_token .commentMarker).bind LineComment.marker fun marker =>
    ((reads_token .commentText).maybe rfl).bind LineComment.text fun text =>
    (reads_token .newline).bind LineComment.newline fun newline =>
    reads_pure ?_).congr ?_ ?_
  · rintro ⟨⟩
    simp [and_assoc]
  · intro x _
    simp only [LineComment.spellings, mul_assoc, mul_one]
  · simp only [Production.lineComment, matches'_mul, matches'_epsilon, mul_assoc, mul_one]

theorem reads_priceDirective :
    Reads (fun _ => True) priceDirective PriceDirective.spellings Production.priceDirective [] := by
  refine ((reads_token .priceKeyword).bind PriceDirective.keyword fun keyword =>
    (reads_token .date).bind PriceDirective.date fun date =>
    (reads_token .commodity).bind PriceDirective.commodity fun commodity =>
    reads_amount.bind PriceDirective.amount fun amount =>
    (reads_comment.maybe rfl).bind PriceDirective.comment fun comment =>
    (reads_token .newline).bind PriceDirective.newline fun newline =>
    reads_pure ?_).congr ?_ ?_
  · rintro ⟨⟩
    simp [and_assoc]
  · intro x _
    simp only [PriceDirective.spellings, mul_assoc, mul_one]
  · simp only [Production.priceDirective, matches'_mul, matches'_epsilon, mul_assoc, mul_one]

theorem reads_accountDirective :
    Reads (fun _ => True) accountDirective AccountDirective.spellings
      Production.accountDirective [.indent] := by
  refine ((reads_token .accountKeyword).bind AccountDirective.keyword fun keyword =>
    ((reads_token .realAccount).orElse_refuse account .virtualAccount).bind
      AccountDirective.account fun account =>
    (reads_comment.maybe rfl).bind AccountDirective.comment fun comment =>
    (reads_token .newline).bind AccountDirective.newline fun newline =>
    ((reads_line reads_comment).many rfl).bind AccountDirective.lines fun lines =>
    reads_pure ?_).congr ?_ ?_
  · rintro ⟨⟩
    simp [and_assoc]
  · intro x _
    simp only [AccountDirective.spellings, mul_assoc, mul_one]
  · simp only [Production.accountDirective, matches'_mul, matches'_epsilon, mul_assoc, mul_one]

/-- A commodity in front of no number is a name. -/
theorem result_amount_of_commodity {t : Token} {ts : List Token} (ht : t.kind = .commodity)
    (hts : Avoids [.number] ts) : (amount (t :: ts)).result = none := by
  have hdash : (maybe (token .dash) (t :: ts)).result = some (none, t :: ts) := by
    have hnext : Avoids ([] ++ Production.firsts (char .dash)) (t :: ts) := by
      simp [Avoids, Production.firsts, ht]
    exact ((reads_token .dash).maybe rfl).complete (a := none) trivial
      ((Language.mem_one []).mpr rfl) hnext
  have hcommodity : (token .commodity (t :: ts)).result = some (t, ts) :=
    (reads_token .commodity).complete trivial (mem_spellKind.mpr ⟨rfl, ht⟩) (by simp [Avoids])
  have hnumber : (token .number ts).result = none := (reads_token .number).fails rfl hts
  have hfirst : (commodityFirst (t :: ts)).result = none := by
    unfold commodityFirst
    rw [result_bind_of_eq hdash, result_bind_of_eq hcommodity, result_bind_of_none hnumber]
  rw [amount, result_orElse_of_none hfirst]
  refine reads_numberFirst.fails rfl ?_
  simp [Avoids, Production.firsts, matchEpsilon, ht]

theorem reads_declaration :
    Reads (fun _ => True) declaration Declaration.spellings
      (Production.amount + char .commodity) [.commodity, .number] := by
  have hamount := reads_amount.map Declaration.amount Declaration.spellings fun _ => rfl
  have hname := (reads_token .commodity).map Declaration.name Declaration.spellings fun _ => rfl
  have hlone : Reads _ (.name <$> token .commodity) Declaration.spellings (char .commodity)
      [.number] := hname.congr (fun _ _ => rfl) rfl (by simp)
  refine (hamount.orElse hlone ?_ ?_).congr (fun _ _ => rfl) rfl
  · rintro d front rest ⟨t, -, rfl⟩ hfront hrest
    obtain ⟨rfl, ht⟩ := mem_spellKind.mp hfront
    exact result_bind_of_none (result_amount_of_commodity ht hrest)
  · rintro (a | t) ts <;> simp

theorem reads_format :
    Reads (fun _ => True) format Format.spellings (char .formatKeyword * Production.amount)
      [.commodity] := by
  refine ((reads_token .formatKeyword).bind Format.keyword fun keyword =>
    reads_amount.bind Format.amount fun amount =>
    reads_pure ?_).congr ?_ ?_
  · rintro ⟨⟩
    simp
  · intro x _
    simp only [Format.spellings, mul_one]
  · simp only [matches'_mul, matches'_epsilon, mul_one]

theorem reads_commodityContent :
    Reads (fun _ => True) commodityContent CommodityContent.spellings
      (char .formatKeyword * Production.amount + Production.comment)
      [.commodity, .tagName, .inlineText, .tagValue, .tagComma] := by
  have hformat := reads_format.map CommodityContent.format CommodityContent.spellings fun _ => rfl
  have hcomment := reads_comment.map CommodityContent.comment CommodityContent.spellings
    fun _ => rfl
  refine (hformat.choice hcomment rfl rfl ?_).congr (fun _ _ => rfl) rfl
  rintro (f | c) ts <;> simp

theorem reads_commodityDirective :
    Reads (fun _ => True) commodityDirective CommodityDirective.spellings
      Production.commodityDirective
      [.commodity, .number, .semicolon, .tagName, .inlineText, .tagValue, .tagComma, .newline,
        .indent] := by
  refine ((reads_token .commodityKeyword).bind CommodityDirective.keyword fun keyword =>
    reads_declaration.bind CommodityDirective.declaration fun declaration =>
    (reads_comment.maybe rfl).bind CommodityDirective.comment fun comment =>
    ((reads_token .newline).maybe rfl).bind CommodityDirective.newline fun newline =>
    ((reads_line reads_commodityContent).many rfl).bind CommodityDirective.lines fun lines =>
    reads_pure ?_).congr ?_ ?_
  · rintro ⟨⟩
    simp [and_assoc]
  · intro x _
    simp only [CommodityDirective.spellings, mul_assoc, mul_one]
  · simp only [Production.commodityDirective, matches'_mul, matches'_epsilon, mul_assoc, mul_one]

theorem reads_defaultDirective :
    Reads (fun _ => True) defaultDirective DefaultDirective.spellings
      Production.defaultDirective [.indent] := by
  refine ((reads_token .defaultKeyword).bind DefaultDirective.keyword fun keyword =>
    reads_amount.bind DefaultDirective.amount fun amount =>
    (reads_comment.maybe rfl).bind DefaultDirective.comment fun comment =>
    (reads_token .newline).bind DefaultDirective.newline fun newline =>
    ((reads_line (reads_comment.orElse_refuse (token .formatKeyword) .formatLine)).many rfl).bind
      DefaultDirective.lines fun lines =>
    reads_pure ?_).congr ?_ ?_
  · rintro ⟨⟩
    simp [and_assoc]
  · intro x _
    simp only [DefaultDirective.spellings, mul_assoc, mul_one]
  · simp only [Production.defaultDirective, matches'_mul, matches'_epsilon, mul_assoc, mul_one]

/-- **An item is read as it is spelled.** -/
theorem reads_item :
    Reads (fun _ => True) item Item.spellings Production.item
      [.commodity, .number, .semicolon, .tagName, .inlineText, .tagValue, .tagComma, .newline,
        .indent] := by
  have htransaction := reads_transaction.map Item.transaction Item.spellings fun _ => rfl
  have hcomment := reads_lineComment.map Item.lineComment Item.spellings fun _ => rfl
  have hprice := reads_priceDirective.map Item.price Item.spellings fun _ => rfl
  have haccount := reads_accountDirective.map Item.account Item.spellings fun _ => rfl
  have hcommodity := reads_commodityDirective.map Item.commodity Item.spellings fun _ => rfl
  have hdefault := reads_defaultDirective.map Item.defaultCommodity Item.spellings fun _ => rfl
  have hmore := hcomment.either (hprice.either (haccount.either
    (hcommodity.either hdefault rfl rfl) rfl rfl) rfl rfl) rfl rfl
  refine (htransaction.choice hmore rfl rfl ?_).congr (fun _ _ => rfl) ?_
  · rintro (t | c | p | a | c | d) ts <;> simp
  · simp only [Production.item, matches'_add, add_assoc]

/-- An item starts with the token that opens it. -/
theorem exists_opener {x : Item} {front : List Token} (h : front ∈ x.spellings) :
    ∃ t us, front = t :: us ∧ t.kind = x.opener := by
  cases x with
  | transaction t => exact reads_transaction.exists_head rfl rfl trivial h
  | lineComment c => exact reads_lineComment.exists_head rfl rfl trivial h
  | price p => exact reads_priceDirective.exists_head rfl rfl trivial h
  | account a => exact reads_accountDirective.exists_head rfl rfl trivial h
  | commodity c => exact reads_commodityDirective.exists_head rfl rfl trivial h
  | defaultCommodity d => exact reads_defaultDirective.exists_head rfl rfl trivial h

/-! ## What may follow an item -/

/-- Content lines start with an indentation. -/
theorem exists_indent_of_mem_lines {α : Type} {s : α → Language Token} {lines : List (Line α)}
    {ts : List Token} (hne : lines ≠ []) (h : ts ∈ spellList (Line.spellings s) lines) :
    ∃ t us, ts = t :: us ∧ t.kind = .indent := by
  obtain ⟨line, more, rfl⟩ := List.exists_cons_of_ne_nil hne
  obtain ⟨_, ⟨_, ⟨i, hi, b, -, rfl⟩, n, -, rfl⟩, v, -, rfl⟩ := h
  obtain ⟨rfl, hkind⟩ := mem_spellKind.mp hi
  exact ⟨line.indent, b ++ n ++ v, by simp, hkind⟩

/-- A commodity directive that has its line break, or lines, may be followed by a line break. -/
theorem commodityDirective_complete {c : CommodityDirective} {front rest : List Token}
    (hfront : front ∈ c.spellings) (hc : c.newline = none → c.lines ≠ [])
    (hrest : Avoids [.indent] rest) :
    (commodityDirective (front ++ rest)).result = some (c, rest) := by
  obtain ⟨_, ⟨_, ⟨_, ⟨k, hk, d, hd, rfl⟩, r, hr, rfl⟩, n, hn, rfl⟩, l, hl, rfl⟩ := hfront
  have hline := reads_line reads_commodityContent
  have hnewline : (maybe (token .newline) (n ++ (l ++ rest))).result =
        some (c.newline, l ++ rest) ∧
      ∀ t ∈ (n ++ (l ++ rest)).head?, t.kind = .newline ∨ t.kind = .indent := by
    cases hnewline : c.newline with
    | none =>
      rw [hnewline] at hn
      obtain ⟨t, l, rfl, ht⟩ := exists_indent_of_mem_lines (hc hnewline) hl
      refine ⟨((reads_token .newline).maybe rfl).complete trivial hn ?_, ?_⟩
      · rintro _ ⟨⟩
        simp [Production.firsts, ht]
      · obtain rfl := (Language.mem_one n).mp hn
        rintro _ ⟨⟩
        exact .inr ht
    | some t =>
      rw [hnewline] at hn
      refine ⟨result_orElse_of_eq (result_bind_of_eq ?_), ?_⟩
      · exact (reads_token .newline).complete trivial hn (by simp [Avoids])
      · obtain ⟨rfl, ht⟩ := mem_spellKind.mp hn
        rintro _ ⟨⟩
        exact .inl ht
  obtain ⟨hresult, hbehind⟩ := hnewline
  have hbreak : Avoids [.commodity, .number, .semicolon, .tagName, .inlineText, .tagValue,
      .tagComma] (n ++ (l ++ rest)) := by
    intro t ht
    rcases hbehind t ht with h | h <;> simp [h]
  have hcomment : Avoids [.commodity, .number] (r ++ (n ++ (l ++ rest))) := by
    refine avoids_append (hbreak.mono (by decide)) fun t ht => ?_
    have hfirst := (reads_comment.maybe rfl).firsts trivial hr t ht
    simp [List.mem_singleton.mp hfirst]
  show (commodityDirective ((((k ++ d) ++ r) ++ n) ++ l ++ rest)).result = _
  simp only [List.append_assoc]
  unfold commodityDirective
  rw [result_bind_of_eq ((reads_token _).complete trivial hk (by simp [Avoids])),
    result_bind_of_eq (reads_declaration.complete trivial hd hcomment),
    result_bind_of_eq ((reads_comment.maybe rfl).complete trivial hr (hbreak.mono (by decide))),
    result_bind_of_eq hresult,
    result_bind_of_eq ((hline.many rfl).complete trivial hl hrest)]
  rfl

/-- **An item is read as it is spelled where an empty line or the next item comes behind it**,
unless the empty line could be its own break. -/
theorem item_complete {x : Item} {front rest : List Token} (hfront : front ∈ x.spellings)
    (hrest : ∀ t ∈ rest.head?, t.kind = .newline ∨ t.kind.opensItem)
    (hx : x.Open → Avoids [.newline] rest) : (item (front ++ rest)).result = some (x, rest) := by
  have hindent : Avoids [.indent] rest := by
    intro t ht
    rcases hrest t ht with h | h
    · simp [h]
    · rw [List.mem_singleton]
      rintro heq
      simp [heq, Kind.opensItem] at h
  obtain ⟨o, us, hopen, ho⟩ := exists_opener hfront
  have hstart {kind : Kind} {kinds : List Kind} (hkind : o.kind = kind) (hkinds : kind ∉ kinds) :
      Avoids kinds (front ++ rest) := by
    rw [hopen]
    rintro _ ⟨⟩
    rwa [hkind]
  have hnever : Avoids [] rest := by simp [Avoids]
  unfold item
  cases x with
  | transaction t => exact reads_transaction.take _ _ trivial hfront hindent
  | lineComment c =>
    replace ho : o.kind = .commentMarker := ho
    rw [reads_transaction.skip _ _ rfl (hstart ho (by decide))]
    exact reads_lineComment.take _ _ trivial hfront hnever
  | price p =>
    replace ho : o.kind = .priceKeyword := ho
    rw [reads_transaction.skip _ _ rfl (hstart ho (by decide)),
      reads_lineComment.skip _ _ rfl (hstart ho (by decide))]
    exact reads_priceDirective.take _ _ trivial hfront hnever
  | account a =>
    replace ho : o.kind = .accountKeyword := ho
    rw [reads_transaction.skip _ _ rfl (hstart ho (by decide)),
      reads_lineComment.skip _ _ rfl (hstart ho (by decide)),
      reads_priceDirective.skip _ _ rfl (hstart ho (by decide))]
    exact reads_accountDirective.take _ _ trivial hfront hindent
  | commodity c =>
    replace ho : o.kind = .commodityKeyword := ho
    rw [reads_transaction.skip _ _ rfl (hstart ho (by decide)),
      reads_lineComment.skip _ _ rfl (hstart ho (by decide)),
      reads_priceDirective.skip _ _ rfl (hstart ho (by decide)),
      reads_accountDirective.skip _ _ rfl (hstart ho (by decide))]
    refine result_orElse_of_eq (result_map_of_eq _ ?_)
    by_cases hopened : c.newline = none ∧ c.lines = []
    · refine reads_commodityDirective.complete trivial hfront fun t ht => ?_
      have hkind := hx hopened t ht
      rcases hrest t ht with h | h
      · simp [h] at hkind
      · revert h hkind
        cases t.kind <;> decide
    · exact commodityDirective_complete hfront (fun h hlines => hopened ⟨h, hlines⟩) hindent
  | defaultCommodity d =>
    replace ho : o.kind = .defaultKeyword := ho
    rw [reads_transaction.skip _ _ rfl (hstart ho (by decide)),
      reads_lineComment.skip _ _ rfl (hstart ho (by decide)),
      reads_priceDirective.skip _ _ rfl (hstart ho (by decide)),
      reads_accountDirective.skip _ _ rfl (hstart ho (by decide)),
      reads_commodityDirective.skip _ _ rfl (hstart ho (by decide))]
    exact result_map_of_eq _ (reads_defaultDirective.complete trivial hfront hindent)

end Daybook.Tree.Grammar
