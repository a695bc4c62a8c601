import Daybook.Proofs.Journal.DefaultYear

/-!
# Why a journal is refused

A journal is refused for one fault, however many there are. Amounts that declare a commodity and
name none are looked for first, in the whole journal; then the items are understood one by one, and
each of them looks for its faults in an order of its own. What the tokenizer and the grammar passed
over refuses nothing. About `lower_to_raw` and `lower_to_cooked_with` ([SPEC 7], [SPEC 12.2]).

* `Tree.Item.declared x`: the amounts of an item that declare a commodity.
* `Tree.Item.LacksCommodity x`: one of them names none.
* `Written.Item.faults year x`: all faults of an item, in the order in which they are looked for.

Results:
* `ofTree_failsWith`: what a tree is refused for.
* `ofWritten_failsWith`: **a written journal is refused for its first fault.**
* `mem_faults_item`: the faults of an item are those of its dates, its numbers and its formats.
* `readJournal_refused`: **exactly when and for what a journal is refused.**
-/

namespace Daybook

/-! ## The faults of a tree -/

namespace Tree

/-- The amount of a declaration. -/
def Declaration.declared : Declaration → List Amount
  | .amount shown => [shown]
  | .name _ => []

/-- The amount of a format. -/
def CommodityContent.declared : CommodityContent → List Amount
  | .format f => [f.amount]
  | .comment _ => []

/-- The amounts of an item that declare a commodity. -/
def Item.declared : Item → List Amount
  | .commodity c => c.declaration.declared ++ c.lines.flatMap (·.body.declared)
  | .defaultCommodity d => [d.amount]
  | .transaction _ | .lineComment _ | .price _ | .account _ => []

/-- An amount of the item declares a commodity and names none. -/
def Item.LacksCommodity (x : Item) : Prop := ∃ a ∈ x.declared, a.commodity = none

/-- The fault of an amount that declares a commodity and names none. -/
def Amount.faults (a : Amount) : List JournalFault :=
  if a.commodity = none then [.missingCommodity] else []

end Tree

namespace Written

/-! ## The faults of written items -/

/-- The fault of a number that is no decimal. -/
def Amount.faults (a : Amount) : List JournalFault :=
  if Decimal.ofChars? (spelledNumber a.number) = none then [.invalidNumber a.value] else []

/-- The fault of a text that is no date. -/
def dateFaults (year : Int) (text : String) : List JournalFault :=
  match Date.resolve text year with
  | .ok _ => []
  | .error fault => [.invalidDate text fault]

/-- The faults of a posting: of its amount, its lot price and its assertion. -/
def Posting.faults (p : Posting) : List JournalFault :=
  p.amount.toList.flatMap Amount.faults ++ p.lotPrice.toList.flatMap (·.amount.faults) ++
    p.assertion.toList.flatMap (·.amount.faults)

/-- The faults of a line under a transaction. -/
def Content.faults : Content → List JournalFault
  | .posting p => p.faults
  | .comment _ => []

/-- The faults of a transaction: of its dates, then of its postings in order. -/
def Transaction.faults (year : Int) (t : Transaction) : List JournalFault :=
  dateFaults year t.date ++ t.secondDate.toList.flatMap (dateFaults year) ++
    t.lines.flatMap Content.faults

/-- The faults of a price: of its date, then of its number. -/
def PriceDirective.faults (year : Int) (p : PriceDirective) : List JournalFault :=
  dateFaults year p.date ++ p.amount.faults

/-- The formats under a commodity. -/
def CommodityDirective.formats (c : CommodityDirective) : List NamedAmount :=
  c.lines.filterMap CommodityContent.format?

/-- The amount that shows the format of a commodity. -/
def CommodityDirective.shown? (c : CommodityDirective) : Option NamedAmount :=
  match c.declaration with
  | .amount shown => some shown
  | .name _ => c.formats.head?

/-- What is wrong with the formats of a commodity: there are too many, there is one beside an
amount, or it is that of another commodity. -/
def CommodityDirective.formatFaults (c : CommodityDirective) : List JournalFault :=
  (if 1 < c.formats.length then [.manyFormats c.declaration.commodity c.formats.length] else []) ++
  (match c.declaration, c.formats with
    | .amount shown, _ :: _ => [.conflictingFormat shown.commodity]
    | _, _ => []) ++
  (match c.declaration, c.formats with
    | .name declared, format :: _ =>
      if format.commodity = declared then [] else [.otherCommodity declared format.commodity]
    | _, _ => [])

/-- The faults of a commodity: of its formats, then of its number. -/
def CommodityDirective.faults (c : CommodityDirective) : List JournalFault :=
  c.formatFaults ++ c.shown?.toList.flatMap (·.toAmount.faults)

/-- The faults of an item, in the order in which they are looked for. -/
def Item.faults (year : Int) : Item → List JournalFault
  | .transaction t => t.faults year
  | .price p => p.faults year
  | .commodity c => c.faults
  | .defaultCommodity d => d.amount.toAmount.faults
  | .lineComment _ | .account _ => []

/-- The faults of a written journal, item by item. -/
def Journal.faults (year : Int) (w : Journal) : List JournalFault :=
  w.items.flatMap fun x => x.value.faults year

end Written

/-! ## What a written journal is refused for -/

theorem decimal_failsWith (a : Written.Amount) : FailsWith (Decimal.ofWritten a) a.faults := by
  unfold Decimal.ofWritten Written.Amount.faults
  cases Decimal.ofChars? (spelledNumber a.number) with
  | none => exact .error _ []
  | some quantity => exact .ok _

theorem amount_failsWith (a : Written.Amount) : FailsWith (Amount.ofWritten a) a.faults :=
  (decimal_failsWith a).bind_pure

theorem optionally_failsWith {α β : Type} {f : α → Except JournalFault β}
    {g : α → List JournalFault} (h : ∀ a, FailsWith (f a) (g a)) (o : Option α) :
    FailsWith (optionally f o) (o.toList.flatMap g) := by
  cases o with
  | none => exact .ok none
  | some a =>
    rw [Option.toList_some, List.flatMap_singleton]
    exact (h a).map some

theorem date_failsWith (year : Int) (text : String) :
    FailsWith (dateOfWritten year text) (Written.dateFaults year text) := by
  unfold dateOfWritten Written.dateFaults
  cases Date.resolve text year with
  | ok date => exact .ok date
  | error fault => exact .error _ []

theorem posting_failsWith (p : Written.Posting) : FailsWith (Posting.ofWritten p) p.faults := by
  have hlot (l : LotPrice Written.Amount) : FailsWith (LotPrice.ofWritten l) l.amount.faults :=
    (amount_failsWith l.amount).bind_pure
  have hassertion (a : Assertion Written.Amount) :
      FailsWith (Assertion.ofWritten a) a.amount.faults := (amount_failsWith a.amount).bind_pure
  rw [Written.Posting.faults, List.append_assoc]
  exact (optionally_failsWith amount_failsWith p.amount).bind fun _ =>
    (optionally_failsWith hlot p.lotPrice).bind fun _ =>
      (optionally_failsWith hassertion p.assertion).bind_pure

theorem line_failsWith (t : Transaction) (line : Written.Content) :
    FailsWith (t.addLine line) line.faults := by
  cases line with
  | posting p => exact (posting_failsWith p).map _
  | comment c => exact .ok _

theorem transaction_failsWith (year : Int) (t : Written.Transaction) :
    FailsWith (Transaction.ofWritten year t) (t.faults year) :=
  ((date_failsWith year t.date).bind fun _ =>
    (optionally_failsWith (date_failsWith year) t.secondDate).bind_pure).bind
      (FailsWith.foldlM line_failsWith t.lines)

theorem price_failsWith (year : Int) (p : Written.PriceDirective) :
    FailsWith (Price.ofWritten year p) (p.faults year) :=
  (date_failsWith year p.date).bind fun _ => (amount_failsWith p.amount).bind_pure

theorem format_failsWith (c : Written.CommodityDirective) :
    FailsWith (formatOf c.declaration c.formats) c.formatFaults := by
  unfold formatOf Written.CommodityDirective.formatFaults
  rcases c.formats with _ | ⟨format, _ | ⟨second, more⟩⟩
  · cases c.declaration with
    | name declared => exact .ok none
    | amount shown => exact .ok (some shown)
  · cases c.declaration with
    | name declared =>
      by_cases hsame : format.commodity = declared
      · simp only [hsame, if_true]
        exact .ok (some format)
      · simp only [hsame, if_false]
        exact .error _ []
    | amount shown => exact .error _ []
  · exact .of_head? (by simp)

/-- The format chosen is that of the declaration, or else the one under it. -/
theorem eq_shown?_of_formatOf {c : Written.CommodityDirective} {shown : Option Written.NamedAmount}
    (h : formatOf c.declaration c.formats = .ok shown) : shown = c.shown? := by
  unfold formatOf at h
  unfold Written.CommodityDirective.shown?
  generalize c.formats = formats at h ⊢
  rcases formats with _ | ⟨format, _ | ⟨second, more⟩⟩
  · generalize c.declaration = declaration at h ⊢
    cases declaration with
    | name declared => exact (Except.ok.inj h).symm
    | amount first => exact (Except.ok.inj h).symm
  · generalize c.declaration = declaration at h ⊢
    cases declaration with
    | name declared =>
      simp only at h
      split at h
      · exact (Except.ok.inj h).symm
      · cases h
    | amount first => cases h
  · cases h

theorem commodity_failsWith (c : Written.CommodityDirective) :
    FailsWith (CommodityEntry.ofWritten c) c.faults :=
  (format_failsWith c).bind_of_eq fun shown hshown => by
    rw [← eq_shown?_of_formatOf hshown]
    exact (optionally_failsWith (fun a : Written.NamedAmount => amount_failsWith a.toAmount)
      shown).bind_pure

theorem item_failsWith (year : Int) (x : Written.Item) :
    FailsWith (Journal.ofItem year x) (x.faults year) := by
  cases x with
  | transaction t => exact (transaction_failsWith year t).map _
  | lineComment c => exact .ok _
  | price p => exact (price_failsWith year p).map _
  | account a => exact .ok _
  | commodity c => exact (commodity_failsWith c).map _
  | defaultCommodity d => exact (amount_failsWith d.amount.toAmount).map _

/-- **A written journal is refused for its first fault.** -/
theorem ofWritten_failsWith (year : Int) (w : Written.Journal) :
    FailsWith (Journal.ofWritten year w) (w.faults year) := by
  rw [Journal.ofWritten_eq]
  exact (FailsWith.mapM w.items fun x => item_failsWith year x.value).map _

/-! ## What the faults are of -/

/-- A fault of a number or of a format. -/
def JournalFault.isOfAmount : JournalFault → Bool
  | missingCommodity | invalidDate .. => false
  | invalidNumber .. | conflictingFormat .. | otherCommodity .. | manyFormats .. => true

variable {fault : JournalFault}

theorem isOfAmount_of_amount {a : Written.Amount} (h : fault ∈ a.faults) : fault.isOfAmount := by
  unfold Written.Amount.faults at h
  split at h
  · rw [List.mem_singleton.mp h]
    rfl
  · exact absurd h List.not_mem_nil

theorem isOfAmount_of_content {c : Written.Content} (h : fault ∈ c.faults) : fault.isOfAmount := by
  cases c with
  | comment c => exact absurd h List.not_mem_nil
  | posting p =>
    simp only [Written.Content.faults, Written.Posting.faults, List.mem_append, List.mem_flatMap]
      at h
    rcases h with (⟨a, -, h⟩ | ⟨l, -, h⟩) | ⟨b, -, h⟩ <;> exact isOfAmount_of_amount h

theorem isOfAmount_of_commodity {c : Written.CommodityDirective} (h : fault ∈ c.faults) :
    fault.isOfAmount := by
  rcases List.mem_append.mp h with hformat | hnumber
  · unfold Written.CommodityDirective.formatFaults at hformat
    rcases c.formats with _ | ⟨format, _ | ⟨second, more⟩⟩ <;> cases c.declaration <;>
      grind [JournalFault.isOfAmount]
  · obtain ⟨shown, -, h⟩ := List.mem_flatMap.mp hnumber
    exact isOfAmount_of_amount h

/-- **The faults of an item are those of its dates, of its numbers and of its formats.** -/
theorem mem_faults_item {year : Int} {x : Written.Item} (h : fault ∈ x.faults year) :
    (∃ text ∈ x.dates, fault ∈ Written.dateFaults year text) ∨ fault.isOfAmount := by
  cases x with
  | transaction t =>
    rcases List.mem_append.mp h with hdates | hlines
    · rcases List.mem_append.mp hdates with hfirst | hsecond
      · exact .inl ⟨t.date, List.mem_cons_self, hfirst⟩
      · obtain ⟨text, htext, hfault⟩ := List.mem_flatMap.mp hsecond
        exact .inl ⟨text, List.mem_cons_of_mem _ htext, hfault⟩
    · obtain ⟨c, -, hfault⟩ := List.mem_flatMap.mp hlines
      exact .inr (isOfAmount_of_content hfault)
  | price p =>
    rcases List.mem_append.mp h with hdate | hnumber
    · exact .inl ⟨p.date, List.mem_cons_self, hdate⟩
    · exact .inr (isOfAmount_of_amount hnumber)
  | commodity c => exact .inr (isOfAmount_of_commodity h)
  | defaultCommodity d => exact .inr (isOfAmount_of_amount h)
  | lineComment _ | account _ => exact absurd h List.not_mem_nil

/-- The fault of a date is that it names no day. -/
theorem mem_dateFaults_iff {year : Int} {text : String} : fault ∈ Written.dateFaults year text ↔
    ∃ cause, Date.resolve text year = .error cause ∧ fault = .invalidDate text cause := by
  unfold Written.dateFaults
  cases Date.resolve text year <;> simp

/-- No fault of a written journal is a missing commodity. -/
theorem not_mem_faults (year : Int) (w : Written.Journal) :
    .missingCommodity ∉ w.faults year := by
  intro h
  obtain ⟨v, -, hfault⟩ := List.mem_flatMap.mp h
  rcases mem_faults_item hfault with ⟨text, -, hdate⟩ | hamount
  · obtain ⟨cause, -, heq⟩ := mem_dateFaults_iff.mp hdate
    nomatch heq
  · nomatch hamount

/-! ## What a tree is refused for -/

theorem named_failsWith (a : Tree.Amount) : FailsWith (Written.NamedAmount.ofTree a) a.faults := by
  have hcommodity : (Written.Amount.ofTree a).commodity = a.commodity.map (·.text) := rfl
  unfold Written.NamedAmount.ofTree Written.Amount.named? Tree.Amount.faults
  rw [hcommodity]
  cases a.commodity with
  | none => exact .error _ []
  | some t => exact .ok _

theorem declaration_failsWith (d : Tree.Declaration) :
    FailsWith (Written.Declaration.ofTree d) (d.declared.flatMap Tree.Amount.faults) := by
  cases d with
  | amount a =>
    rw [Tree.Declaration.declared, List.flatMap_singleton]
    exact (named_failsWith a).map _
  | name t => exact .ok _

theorem content_failsWith (c : Tree.CommodityContent) :
    FailsWith (Written.CommodityContent.ofTree c) (c.declared.flatMap Tree.Amount.faults) := by
  cases c with
  | format f =>
    rw [Tree.CommodityContent.declared, List.flatMap_singleton]
    exact (named_failsWith f.amount).map _
  | comment c => exact .ok _

theorem item_ofTree_failsWith (x : Tree.Item) :
    FailsWith (Written.Item.ofTree x) (x.declared.flatMap Tree.Amount.faults) := by
  cases x with
  | transaction t => exact .ok _
  | lineComment c => exact .ok _
  | price p => exact .ok _
  | account a => exact .ok _
  | commodity c =>
    rw [Tree.Item.declared, List.flatMap_append, List.flatMap_assoc]
    exact FailsWith.map ((declaration_failsWith c.declaration).bind fun _ =>
      (FailsWith.mapM c.lines fun line => content_failsWith line.body).bind_pure) _
  | defaultCommodity d =>
    rw [Tree.Item.declared, List.flatMap_singleton]
    exact FailsWith.map (named_failsWith d.amount).bind_pure _

/-- **A tree is refused if an item lacks a commodity.** -/
theorem ofTree_failsWith (items : List (Located Tree.Item)) :
    FailsWith (Written.Journal.ofTree items)
      (items.flatMap fun x => x.value.declared.flatMap Tree.Amount.faults) :=
  (FailsWith.mapM items fun x => (item_ofTree_failsWith x.value).bind_pure).bind_pure

/-- The faults of a tree are all the same. -/
theorem head?_faults_eq_some_iff (items : List (Located Tree.Item)) (fault : JournalFault) :
    (items.flatMap fun x => x.value.declared.flatMap Tree.Amount.faults).head? = some fault ↔
      fault = .missingCommodity ∧ ∃ x ∈ items, x.value.LacksCommodity := by
  have hmem : ∀ f, f ∈ (items.flatMap fun x => x.value.declared.flatMap Tree.Amount.faults) ↔
      f = .missingCommodity ∧ ∃ x ∈ items, x.value.LacksCommodity := by
    intro f
    simp only [List.mem_flatMap, Tree.Item.LacksCommodity, Tree.Amount.faults,
      List.mem_ite_nil_right, List.mem_singleton]
    constructor
    · rintro ⟨x, hx, a, ha, hnone, rfl⟩
      exact ⟨rfl, x, hx, a, ha, hnone⟩
    · rintro ⟨rfl, x, hx, a, ha, hnone⟩
      exact ⟨x, hx, a, ha, hnone, rfl⟩
  generalize (items.flatMap fun x => x.value.declared.flatMap Tree.Amount.faults) = faults at hmem ⊢
  rw [← hmem]
  refine ⟨List.mem_of_mem_head?, fun hfault => ?_⟩
  obtain ⟨first, rest, rfl⟩ := List.exists_cons_of_ne_nil (List.ne_nil_of_mem hfault)
  have hfirst := (hmem first).mp List.mem_cons_self
  rw [List.head?_cons, hfirst.1, ((hmem fault).mp hfault).1]

/-- **Exactly when and for what a journal is refused.** An amount that declares a commodity and
names none refuses it whatever else is wrong; otherwise the first fault of its items does. What the
tokenizer and the grammar passed over does not. -/
theorem readJournal_refused (year : Int) (source : String) :
    (readJournal year source = .error .missingCommodity ↔
      ∃ x ∈ (readTree source).result, x.value.LacksCommodity) ∧
    ((¬ ∃ x ∈ (readTree source).result, x.value.LacksCommodity) →
      ∃ w, Written.Journal.ofTree (readTree source).result = .ok w ∧
        match w.faults year with
        | [] => ∃ j, readJournal year source = .ok ((readTree source).withResult j)
        | fault :: _ => readJournal year source = .error fault) := by
  have htree := ofTree_failsWith (readTree source).result
  have hhead := head?_faults_eq_some_iff (readTree source).result
  generalize ((readTree source).result.flatMap fun x =>
    x.value.declared.flatMap Tree.Amount.faults) = faults at htree hhead
  unfold readJournal readWritten
  simp only
  generalize Written.Journal.ofTree (readTree source).result = written at htree ⊢
  cases htree with
  | error fault rest =>
    obtain ⟨rfl, hlacks⟩ := (hhead fault).mp rfl
    exact ⟨⟨fun _ => hlacks, fun _ => rfl⟩, fun hnone => absurd hlacks hnone⟩
  | ok w =>
    have hnone : ¬ ∃ x ∈ (readTree source).result, x.value.LacksCommodity := fun hlacks => by
      have hfault := (hhead .missingCommodity).mpr ⟨rfl, hlacks⟩
      cases hfault
    have hmissing := not_mem_faults year w
    have hjournal := ofWritten_failsWith year w
    have hread := hjournal.map (readTree source).withResult
    show (((readTree source).withResult <$> Journal.ofWritten year w) = _ ↔ _) ∧
      (_ → ∃ w', Except.ok w = Except.ok w' ∧
        match w'.faults year with
        | [] => ∃ j, ((readTree source).withResult <$> Journal.ofWritten year w) = _
        | fault :: _ => ((readTree source).withResult <$> Journal.ofWritten year w) = _)
    refine ⟨⟨fun hrefused => ?_, fun hlacks => absurd hlacks hnone⟩, fun _ => ⟨w, rfl, ?_⟩⟩
    · exact absurd (List.mem_of_mem_head? (hread.eq_error_iff.mp hrefused)) hmissing
    · split
      · next hnil =>
        obtain ⟨j, hj⟩ := hjournal.exists_ok_iff.mpr hnil
        exact ⟨j, by rw [hj]; rfl⟩
      · next fault rest hfaults =>
        exact hread.eq_error_iff.mpr (by rw [hfaults]; rfl)

/-- A commodity that is not named refuses the journal, although the date in front of it is no day.
If it is named, the date does. -/
theorem readJournal_refused_date :
    readJournal 2024 "2/30 x\nD 1\n" = .error .missingCommodity ∧
    readJournal 2024 "2/30 x\nD 1 EUR\n" = .error (.invalidDate "2/30" .noSuchDay) := by
  have hlacks : ∃ x ∈ (readTree "2/30 x\nD 1\n").result, x.value.LacksCommodity := by
    unfold Tree.Item.LacksCommodity
    decide +kernel
  have hnone : ¬ ∃ x ∈ (readTree "2/30 x\nD 1 EUR\n").result, x.value.LacksCommodity := by
    unfold Tree.Item.LacksCommodity
    decide +kernel
  refine ⟨(readJournal_refused 2024 _).1.mpr hlacks, ?_⟩
  obtain ⟨w, hw, hfirst⟩ := (readJournal_refused 2024 _).2 hnone
  have hfaults : (Written.Journal.ofTree (readTree "2/30 x\nD 1 EUR\n").result).map
      (Written.Journal.faults 2024) = .ok [.invalidDate "2/30" .noSuchDay] := by decide +kernel
  rw [hw] at hfaults
  rwa [Except.ok.inj hfaults] at hfirst

end Daybook
