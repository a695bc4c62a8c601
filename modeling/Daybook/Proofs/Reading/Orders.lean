import Daybook.Proofs.Journal.Quantity
import Daybook.Proofs.Reading.Header
import Daybook.Proofs.Token.Chunks

/-!
# The orders of an amount

An amount can be written with its commodity in front of its number or behind it, with its sign at
either, and with spaces and tabs between them. The tokens are others each time: a minus by itself in
front of a commodity, but part of the number in front of a number. What is read is the same. About
the orders of [SPEC 4.1] for `amount`, from `lex_atom` to `cook_amount`.

* `amountOrders sign commodity number w₁ w₂`: the ways to write an amount.
* `SpellsAmount x sign number commodity chunks`: the text `x` is these chunks, and they are an
  amount that says this.

Results:
* `exists_front`: each way has chunks in front of its number, whatever the number is.
* `exists_chunks`: each way is read as an amount with this sign, this number and this commodity, if
  the number has a point or no comma.
* `readJournal_amountOrders`: **a posting means the same in each order of its amount**, if its
  number has a point or no comma, and in no order is another number read without a fault.
-/

namespace Daybook

open Daybook.Tree Lexeme Text

/-- The ways to write an amount: with its sign in front of the commodity, in front of the number
behind the commodity, and in front of the number and the commodity behind it. -/
def amountOrders (sign commodity number w₁ w₂ : List Char) : List (List Char) :=
  [sign ++ w₁ ++ commodity ++ w₂ ++ number, commodity ++ w₁ ++ sign ++ number,
    sign ++ number ++ w₁ ++ commodity]

/-- An amount of a tree that says this. -/
def Tree.Amount.Says (a : Tree.Amount) (sign : Written.Sign) (number commodity : List Char) :
    Prop :=
  ∃ text, Written.Amount.ofTree a =
    ⟨sign, String.ofList number, some (String.ofList commodity), text⟩

/-- The chunks are this text and are read as an amount that says this. -/
structure SpellsAmount (text : List Char) (sign : Written.Sign) (number commodity : List Char)
    (chunks : List Chunk) : Prop where
  text : written chunks = [' ', ' '] ++ text
  apart : ReadApart ['\n'] chunks
  amount : ∀ p, ∃ a : Tree.Amount, tokensFrom p chunks ∈ a.spellings ∧ a.Says sign number commodity

variable {year : Int} {number commodity w₁ w₂ text : List Char} {t : Transaction}

/-! ## In front of the number -/

theorem spaces_mem : [' ', ' '] ∈ manyOf isLayout := by
  intro c hc
  simp only [List.mem_cons, List.not_mem_nil, or_false, or_self] at hc
  rw [hc]
  rfl

/-- **Each way has chunks in front of its number**, and what is behind it does not go on with it. -/
theorem exists_front (hnumber : number ∈ numberText) (hcommodity : commodity ∈ Kind.commodity.texts)
    (sign : Written.Sign) (hw₁ : w₁ ∈ manyOf isLayout) (hw₂ : w₂ ∈ manyOf isLayout) {x : List Char}
    (hx : x ∈ amountOrders sign.text.toList commodity number w₁ w₂) :
    ∃ chunks gap minus after, gap ∈ manyOf isLayout ∧
      (∀ d ∈ after.head?, isNumberChar d = false) ∧
      ReadApart (gap ++ (signText minus ++ number ++ after)) chunks ∧
      [' ', ' '] ++ x ++ ['\n'] =
        written chunks ++ (gap ++ (signText minus ++ number ++ after)) := by
  have hbreak : ∀ d ∈ ['\n'].head?, isNumberChar d = false := by
    rintro _ ⟨⟩
    rfl
  have hspaces := List.forall_mem_append.mpr ⟨spaces_mem, hw₁⟩
  have hsign : signText (decide (sign = .negative)) = sign.text.toList := by cases sign <;> rfl
  simp only [amountOrders, List.mem_cons, List.not_mem_nil, or_false] at hx
  rcases hx with rfl | rfl | rfl
  · cases sign with
    | positive =>
      refine ⟨_, w₂, false, ['\n'], hw₂, hbreak,
        readApart_commodity hspaces hw₂ hcommodity hnumber false _, ?_⟩
      simp [written, Chunk.commodity, signText, Written.Sign.text]
    | negative =>
      refine ⟨_, w₂, false, ['\n'], hw₂, hbreak,
        readApart_dash hw₁ hw₂ hcommodity hnumber false _ spaces_mem, ?_⟩
      simp [written, Chunk.commodity, Chunk.dash, signText, Written.Sign.text]
  · refine ⟨_, w₁, decide (sign = .negative), ['\n'], hw₁, hbreak,
      readApart_commodity spaces_mem hw₁ hcommodity hnumber _ _, ?_⟩
    simp [written, Chunk.commodity, hsign]
  · have hbehind : ∀ d ∈ (w₁ ++ (commodity ++ ['\n'])).head?, isNumberChar d = false :=
      head?_layout hw₁ (fun _ => isNumberChar_of_isLayout) (head?_commodity hcommodity _)
    refine ⟨[], [' ', ' '], decide (sign = .negative), _, spaces_mem, hbehind, trivial, ?_⟩
    simp [written, hsign]

/-! ## What the chunks say -/

/-- What an amount says is told by its sign, its number and its commodity. -/
theorem says_of_number {a : Tree.Amount} {c : Token} (minus : Bool) (hnumber : number ∈ numberText)
    (hcommodity : a.commodity = some c) (hc : c.text = String.ofList commodity)
    (himage : a.number.image = String.ofList (signText minus ++ number)) :
    a.Says (Written.signOf a.dash.isSome minus) number commodity := by
  obtain ⟨-, -, hminus⟩ := isNumeral_of_mem_numberText hnumber
  refine ⟨Written.amountText a, ?_⟩
  rw [Written.Amount.ofTree, himage, signText, splitMinus_number hminus, hcommodity,
    Option.map_some, hc]

section

variable (hnumber : number ∈ numberText) (hcommas : ',' ∈ number → '.' ∈ number)
  (hcommodity : commodity ∈ Kind.commodity.texts) (minus : Bool)
  (hw₁ : w₁ ∈ manyOf isLayout) (hw₂ : w₂ ∈ manyOf isLayout)

include hnumber hcommas hcommodity hw₁ hw₂

/-- A commodity and a number behind it. -/
theorem spells_commodity_number : SpellsAmount (w₁ ++ commodity ++ w₂ ++ signText minus ++ number)
    (Written.signOf false minus) number (Kind.commodity.inner commodity)
    [.commodity ([' ', ' '] ++ w₁) commodity, .number w₂ (signText minus) number] where
  text := by simp [written, Chunk.commodity, Chunk.number]
  apart := readApart_commodity_number (List.forall_mem_append.mpr ⟨spaces_mem, hw₁⟩) hw₂ hcommodity
    hnumber minus hcommas
  amount p := by
    refine ⟨⟨none, some _, _⟩, .inl ⟨[_], ⟨rfl, ?_⟩, [_], ⟨rfl, ?_⟩, rfl⟩, ?_⟩
    · rfl
    · rfl
    · exact says_of_number minus hnumber rfl rfl rfl

/-- A minus, a commodity and a number behind it. -/
theorem spells_dash : SpellsAmount (['-'] ++ w₁ ++ commodity ++ w₂ ++ number) .negative number
    (Kind.commodity.inner commodity)
    [.dash [' ', ' '], .commodity w₁ commodity, .number w₂ (signText false) number] where
  text := by simp [written, Chunk.dash, Chunk.commodity, Chunk.number, signText]
  apart := readApart_dash_number hw₁ hw₂ hcommodity hnumber false hcommas spaces_mem
  amount p := by
    refine ⟨⟨some _, some _, _⟩,
      ⟨_, ⟨[_], ⟨rfl, ?_⟩, [_], ⟨rfl, ?_⟩, rfl⟩, [_], ⟨rfl, ?_⟩, rfl⟩, ?_⟩
    · rfl
    · rfl
    · rfl
    · exact says_of_number false hnumber rfl rfl rfl

omit hw₂

/-- A number and a commodity behind it. -/
theorem spells_number_commodity : SpellsAmount (signText minus ++ number ++ w₁ ++ commodity)
    (Written.signOf false minus) number (Kind.commodity.inner commodity)
    [.number [' ', ' '] (signText minus) number, .commodity w₁ commodity] where
  text := by simp [written, Chunk.commodity, Chunk.number]
  apart := readApart_number_commodity spaces_mem hw₁ hcommodity hnumber hcommas minus
  amount p := by
    refine ⟨⟨none, some _, _⟩, .inr ⟨[_], ⟨rfl, ?_⟩, [_], ⟨rfl, ?_⟩, rfl⟩, ?_⟩
    · rfl
    · rfl
    · exact says_of_number minus hnumber rfl rfl rfl

end

/-- **Each way is read as the amount.** -/
theorem exists_chunks (hnumber : number ∈ numberText) (hcommas : ',' ∈ number → '.' ∈ number)
    (hcommodity : commodity ∈ Kind.commodity.texts) (sign : Written.Sign)
    (hw₁ : w₁ ∈ manyOf isLayout) (hw₂ : w₂ ∈ manyOf isLayout) {x : List Char}
    (hx : x ∈ amountOrders sign.text.toList commodity number w₁ w₂) :
    ∃ chunks, SpellsAmount x sign number (Kind.commodity.inner commodity) chunks := by
  have hnone : [] ∈ manyOf isLayout := fun c hc => absurd hc List.not_mem_nil
  have hsecond (minus : Bool) :=
    spells_commodity_number hnumber hcommas hcommodity minus hnone hw₁
  have hthird (minus : Bool) := spells_number_commodity hnumber hcommas hcommodity minus hw₁
  simp only [amountOrders, List.mem_cons, List.not_mem_nil, or_false] at hx
  cases sign with
  | positive =>
    rcases hx with rfl | rfl | rfl
    · have hfirst := spells_commodity_number hnumber hcommas hcommodity false hw₁ hw₂
      rw [show signText false = [] from rfl, List.append_nil] at hfirst
      exact ⟨_, hfirst⟩
    · exact ⟨_, hsecond false⟩
    · exact ⟨_, hthird false⟩
  | negative =>
    rcases hx with rfl | rfl | rfl
    · exact ⟨_, spells_dash hnumber hcommas hcommodity hw₁ hw₂⟩
    · exact ⟨_, hsecond true⟩
    · exact ⟨_, hthird true⟩

/-! ## What a posting means -/

section

variable {x : List Char}

/-- The line of a posting with an amount that is written like this. -/
def amountLine (x : List Char) : List Char := "  A  ".toList ++ x ++ ['\n']

theorem amountLine_eq {rest : List Char} (h : [' ', ' '] ++ x ++ ['\n'] = rest) :
    amountLine x = [' ', ' '] ++ 'A' :: rest := by
  rw [← h]
  rfl

/-- Behind the account of a posting its name ends. -/
theorem nameEnds_amountLine {rest : List Char} (h : [' ', ' '] ++ x ++ ['\n'] = rest) :
    nameEnds rest := by
  rw [← h]
  rfl

/-- A number with a comma and no point is not read without a fault. -/
theorem scanFaults_of_comma (hnumber : number ∈ numberText) (hcomma : ',' ∈ number)
    (hpoint : '.' ∉ number) (hcommodity : commodity ∈ Kind.commodity.texts) (sign : Written.Sign)
    (hw₁ : w₁ ∈ manyOf isLayout) (hw₂ : w₂ ∈ manyOf isLayout)
    (hx : x ∈ amountOrders sign.text.toList commodity number w₁ w₂) :
    (readTree (String.ofList (text ++ ['\n'] ++ amountLine x))).scanFaults ≠ [] := by
  obtain ⟨chunks, gap, minus, after, hgap, hafter, hapart, hsource⟩ :=
    exists_front hnumber hcommodity sign hw₁ hw₂ hx
  have hfront : WholeLines (text ++ ['\n']) := by simp [WholeLines]
  rw [amountLine_eq hsource]
  exact faults_tokenize_comma hfront minus hnumber hcomma hpoint hafter hgap hapart
    (nameEnds_amountLine hsource)

/-- The amount is read without a fault, if its number has a point or no comma. -/
theorem readJournal_of_orders (hline : '\n' ∉ text)
    (hheader : readJournal year (String.ofList (text ++ ['\n'])) = .ok ⟨.ofTransaction t, [], []⟩)
    (hnumber : number ∈ numberText) (hcommas : ',' ∈ number → '.' ∈ number)
    (hcommodity : commodity ∈ Kind.commodity.texts) (sign : Written.Sign)
    (hw₁ : w₁ ∈ manyOf isLayout) (hw₂ : w₂ ∈ manyOf isLayout)
    (hx : x ∈ amountOrders sign.text.toList commodity number w₁ w₂) :
    readJournal year (String.ofList (text ++ ['\n'] ++ amountLine x)) =
      (fun a => ⟨.ofTransaction { t with postings := [postingOf a] }, [], []⟩) <$>
        Amount.ofWritten ⟨sign, String.ofList number,
          some (String.ofList (Kind.commodity.inner commodity)), ""⟩ := by
  obtain ⟨chunks, hchunks, hapart, hamount⟩ :=
    exists_chunks hnumber hcommas hcommodity sign hw₁ hw₂ hx
  have hsource : [' ', ' '] ++ x ++ ['\n'] = written chunks ++ ['\n'] := by rw [hchunks]
  have hmeans : ∀ p, ∃ a : Tree.Amount, tokensFrom p chunks ∈ a.spellings ∧
      Amount.ofWritten (.ofTree a) = Amount.ofWritten ⟨sign, String.ofList number,
        some (String.ofList (Kind.commodity.inner commodity)), ""⟩ := by
    intro p
    obtain ⟨a, ha, amountText, hmeaning⟩ := hamount p
    -- the text of an amount does not count
    exact ⟨a, ha, by rw [hmeaning]; rfl⟩
  rw [amountLine_eq hsource]
  exact readJournal_posting hline hheader hapart (nameEnds_amountLine hsource) hmeans

end

/-- **A posting means the same in each order of its amount**, if the number has a point or no comma:
the quantity of the number with the sign, and the commodity without quotes. If the number cannot be
held, it is refused with its sign in each order. A number with a comma and no point is read without
a fault in none of them. -/
theorem readJournal_amountOrders (year : Int) {text number commodity w₁ w₂ x : List Char}
    {t : Transaction} (sign : Written.Sign) (hline : '\n' ∉ text)
    (hheader : readJournal year (String.ofList (text ++ ['\n'])) = .ok ⟨.ofTransaction t, [], []⟩)
    (hnumber : number ∈ numberText) (hcommodity : commodity ∈ Kind.commodity.texts)
    (hw₁ : w₁ ∈ manyOf isLayout) (hw₂ : w₂ ∈ manyOf isLayout)
    (hx : x ∈ amountOrders sign.text.toList commodity number w₁ w₂) :
    ((',' ∈ number → '.' ∈ number) →
      readJournal year (String.ofList (text ++ ['\n'] ++ ("  A  ".toList ++ x ++ ['\n']))) =
        match Decimal.ofChars? (spelledNumber (String.ofList number)) with
        | some q => .ok ⟨.ofTransaction { t with postings := [⟨.unmarked, ⟨.real, ["A"]⟩,
            some ⟨if sign = .negative then q.negate else q,
              some (String.ofList (Kind.commodity.inner commodity))⟩, none, none, []⟩] }, [], []⟩
        | none => .error (.invalidNumber (sign.text ++ String.ofList number))) ∧
    (',' ∈ number → '.' ∉ number → (readTree (String.ofList
      (text ++ ['\n'] ++ ("  A  ".toList ++ x ++ ['\n'])))).scanFaults ≠ []) := by
  constructor
  · intro hcommas
    refine (readJournal_of_orders hline hheader hnumber hcommas hcommodity sign hw₁ hw₂ hx).trans ?_
    cases hq : Decimal.ofChars? (spelledNumber (String.ofList number)) with
    | none =>
      simp only [Amount.ofWritten, Decimal.ofWritten, hq]
      rfl
    | some q =>
      simp only [Amount.ofWritten, Decimal.ofWritten, hq]
      rfl
  · intro hcomma hpoint
    exact scanFaults_of_comma hnumber hcomma hpoint hcommodity sign hw₁ hw₂ hx

/-- A minus and a tab in front of a commodity in quotes that touches its number. -/
theorem readJournal_amountOrders_quoted :
    readJournal 2024 "2020/01/01 x\n  A  -\t\"A B\"1,234.50\n" = .ok ⟨.ofTransaction
      { Transaction.blank ⟨2020, 1, 1, by decide⟩ (.plain "x") with postings :=
        [⟨.unmarked, ⟨.real, ["A"]⟩, some ⟨⟨true, 123450, 2, by decide, by decide⟩, some "A B"⟩,
          none, none, []⟩] }, [], []⟩ := by
  have hgrouped : "1,234".toList ∈ oneOf Char.isDigit * manyOf fun c => c.isDigit || c = ',' :=
    ⟨['1'], ⟨'1', rfl, rfl⟩, ",234".toList, List.all_eq_true.mp (by decide), rfl⟩
  have hplaces : "50".toList ∈ someOf Char.isDigit :=
    ⟨List.cons_ne_nil _ _, List.all_eq_true.mp (by decide)⟩
  have hnumber : "1,234.50".toList ∈ numberText :=
    ⟨_, ⟨_, .inr hgrouped, _, .inr rfl, rfl⟩, _, hplaces, rfl⟩
  have hinner : "A B".toList ∈ someOf isQuotedChar :=
    ⟨List.cons_ne_nil _ _, List.all_eq_true.mp (by decide)⟩
  have hcommodity : "\"A B\"".toList ∈ Kind.commodity.texts := .inr (mem_enclosed hinner)
  have htab : ['\t'] ∈ manyOf isLayout := List.all_eq_true.mp (by decide)
  have hnone : [] ∈ manyOf isLayout := fun c hc => absurd hc List.not_mem_nil
  have hline : '\n' ∉ "2020/01/01 x".toList := by decide
  have hheader : readJournal 2024 (String.ofList ("2020/01/01 x".toList ++ ['\n'])) =
      .ok ⟨.ofTransaction (.blank ⟨2020, 1, 1, by decide⟩ (.plain "x")), [], []⟩ := by
    decide +kernel
  obtain ⟨hread, -⟩ := readJournal_amountOrders 2024 .negative hline hheader hnumber hcommodity htab
    hnone List.mem_cons_self
  exact (hread (by decide)).trans (by decide +kernel)

/-- A number with a comma and no point is passed over up to the comma, and what is behind it
counts. -/
theorem readJournal_comma :
    let number := "1,000".toList
    number ∈ numberText ∧ ['$'] ∈ Kind.commodity.texts ∧
      "$1,000".toList ∈ amountOrders Written.Sign.positive.text.toList ['$'] number [] [] ∧
      ∃ r, readJournal 2024 "2020/01/01 x\n  A  $1,000\n" = .ok r ∧
        r.scanFaults = [⟨⟨19, 2, 7⟩, 2, .unexpected .amountLine⟩] ∧
        r.result.transactions.map (·.postings) = [[⟨.unmarked, ⟨.real, ["A"]⟩,
          some ⟨⟨false, 0, 0, by decide, by decide⟩, some "$"⟩, none, none, []⟩]] := by
  have hgrouped : "1,".toList ∈ oneOf Char.isDigit * manyOf fun c => c.isDigit || c = ',' :=
    ⟨['1'], ⟨'1', rfl, rfl⟩, [','], List.all_eq_true.mp (by decide), rfl⟩
  have hdigits : "000".toList ∈ someOf Char.isDigit :=
    ⟨List.cons_ne_nil _ _, List.all_eq_true.mp (by decide)⟩
  have hnumber : "1,000".toList ∈ numberText :=
    ⟨_, ⟨_, .inr hgrouped, _, .inl rfl, rfl⟩, _, hdigits, rfl⟩
  have hcommodity : ['$'] ∈ Kind.commodity.texts :=
    .inl ⟨List.cons_ne_nil _ _, List.all_eq_true.mp (by decide)⟩
  have hread : readJournal 2024 "2020/01/01 x\n  A  $1,000\n" = .ok ⟨.ofTransaction
      { Transaction.blank ⟨2020, 1, 1, by decide⟩ (.plain "x") with postings :=
        [⟨.unmarked, ⟨.real, ["A"]⟩, some ⟨⟨false, 0, 0, by decide, by decide⟩, some "$"⟩,
          none, none, []⟩] }, [⟨⟨19, 2, 7⟩, 2, .unexpected .amountLine⟩], []⟩ := by
    decide +kernel
  exact ⟨hnumber, hcommodity, List.mem_cons_self, _, hread, rfl, rfl⟩

end Daybook
