import Daybook.Proofs.Journal.DefaultYear
import Daybook.Proofs.Reading.Kept
import Daybook.Proofs.Token.Chunks
import Daybook.Proofs.Token.Lines

/-!
# The first line of a transaction, and a posting under it

A source of one line that is read as a transaction has one item, and the line is its first line.
What such an item means is known if its tokens are, and so is what it means with a posting line
under it.

Results:
* `oneLine_tokenize`: in a source of one line only the last token is a line break.
* `exists_header`: **what is read as a transaction is the first line of one.**
* `readJournal_transaction`: the journal of a source whose tokens are a transaction.
* `ofWritten_posting`: a posting under the first line is added to what it means.
* `readJournal_posting`: **a posting under the first line is read as its amount is.**
* `readWritten_line`, `readJournal_line`: what a line adds under `2000/01/01 x`.
-/

namespace Daybook

open Daybook.Tree Lexeme

variable {year : Int} {text : List Char} {ts us pre post : List Token} {u : Token} {t : Transaction}
  {tree : Tree.Transaction}

/-! ## Sources of one line -/

/-- All tokens of a line are on it. -/
theorem line_of_mem_tokenize (hline : '\n' ∉ text) :
    ∀ t ∈ (tokenize (String.ofList (text ++ ['\n']))).tokens, t.place.line = 1 := by
  intro t ht
  obtain ⟨s, rest, hreached, hne, hnotes⟩ := Scanner.exists_notes_of_mem_tokenize ht
  obtain ⟨passed, hpassed, hplace, -⟩ := Scanner.exists_passed hreached
  rw [String.toList_ofList] at hpassed
  have hfront : '\n' ∉ passed := by
    rcases List.prefix_concat_iff.mp ⟨rest, hpassed⟩ with hall | hfront
    · rw [hall] at hpassed
      exact absurd (List.append_right_eq_self.mp hpassed) hne
    · exact fun hmem => hline (hfront.subset hmem)
  rw [hnotes.place, hplace]
  exact (Text.Place.start.advance_inLine hfront).1

/-- Only the last token is a line break. -/
def OneLine (ts : List Token) : Prop :=
  ∀ pre u post, ts = pre ++ u :: post → u.kind = .newline → post = []

/-- **In a source of one line only the last token is a line break.** -/
theorem oneLine_tokenize (hline : '\n' ∉ text) :
    OneLine (tokenize (String.ofList (text ++ ['\n']))).tokens := by
  intro pre u post h hu
  have hlines := line_of_mem_tokenize hline
  have hordered := pairwise_line_tokenize (String.ofList (text ++ ['\n']))
  rw [h] at hlines hordered
  cases post with
  | nil => rfl
  | cons v post =>
    have hlt := ((List.pairwise_cons.mp (List.pairwise_append.mp hordered).2.1).1 v
      List.mem_cons_self).2 hu
    have hsame := (hlines u (by simp)).trans (hlines v (by simp)).symm
    exact absurd hsame (Nat.ne_of_lt hlt)

theorem OneLine.eq_nil_of_closed {front rest : List Token} (h : OneLine (front ++ rest))
    (hclosed : Closed front) (hne : front ≠ []) : rest = [] := by
  obtain ⟨init, u, rfl⟩ := (List.eq_nil_or_concat' front).resolve_left hne
  refine h init u rest (by simp) (hclosed u ?_)
  simp

/-! ## The first line of a transaction -/

theorem Tree.Derives.eq_nil {C : Item → List Token → Prop} {xs : List (Located Item)}
    (h : Derives C ts xs) (hts : ts = []) : xs = [] := by
  cases h with
  | nil => rfl
  | blank => exact absurd hts (List.cons_ne_nil _ _)
  | item hfront =>
    obtain ⟨u, us, rfl, -⟩ := Grammar.exists_opener hfront
    exact absurd hts (List.cons_ne_nil _ _)

/-- What means a transaction is one. -/
theorem exists_of_meansItem {x : Located Item} (h : MeansItem year x (.ofTransaction t)) :
    ∃ tree, x.value = .transaction tree ∧ Transaction.ofWritten year (.ofTree tree) = .ok t := by
  obtain ⟨w, hw, hmeans⟩ := h
  obtain ⟨hdate, hother⟩ := lists_transactions w _ hmeans
  by_cases hkind : w.opener = .date
  · obtain ⟨t', ht', written, rfl, hwritten⟩ := hdate hkind
    obtain ⟨tree, htree, rfl⟩ := exists_transaction hw
    obtain rfl := (List.cons.inj ht').1
    exact ⟨tree, htree, hwritten⟩
  · exact absurd (hother hkind) (List.cons_ne_nil t [])

/-- A commodity that is declared is in the journal. -/
theorem commodities_ne_nil {x : Item} {part : Journal} {parts : List Journal} {span : Span}
    (hopen : x.Open) (hx : MeansItem year ⟨x, span⟩ part) :
    (Journal.concat (part :: parts)).commodities ≠ [] := by
  obtain ⟨w, hw, hitem⟩ := hx
  have hopener : w.opener = .commodityKeyword := by
    rw [opener_ofTree hw]
    cases x with
    | commodity c => rfl
    | _ => exact hopen.elim
  obtain ⟨c, hc, -⟩ := (lists_commodities w part hitem).1 hopener
  show part.commodities ++ (Journal.concat parts).commodities ≠ []
  rw [hc]
  exact List.cons_ne_nil _ _

/-- Items on one line that mean a transaction are this transaction. -/
theorem exists_of_settled {xs : List (Located Item)} {parts : List Journal} (hone : OneLine ts)
    (h : Settled ts xs) (hparts : List.Forall₂ (MeansItem year) xs parts)
    (hmeans : .ofTransaction t = Journal.concat parts) :
    ∃ tree : Tree.Transaction, ts ∈ tree.spellings ∧
      Transaction.ofWritten year (.ofTree tree) = .ok t := by
  have hnone : ¬ .ofTransaction t = Journal.concat [] := fun heq =>
    absurd (congrArg Journal.transactions heq) (List.cons_ne_nil _ _)
  cases h with
  | nil =>
    cases hparts
    exact absurd hmeans hnone
  | @blank u ts _ hu h =>
    obtain rfl := h.eq_nil (hone [] u ts rfl hu)
    cases hparts
    exact absurd hmeans hnone
  | @item x front rest xs hfront _ h =>
    cases hparts with
    | @cons _ part _ parts hx hparts =>
      rcases closed_or_open hfront with hclosed | hopen
      · obtain ⟨u, us, hcons, -⟩ := Grammar.exists_opener hfront
        obtain rfl := hone.eq_nil_of_closed hclosed (by simp [hcons])
        obtain rfl := h.eq_nil rfl
        cases hparts
        have hpart : part = .ofTransaction t := by
          rw [hmeans]
          exact (Journal.append_empty part).symm
        obtain ⟨tree, rfl, ht⟩ := exists_of_meansItem (hpart ▸ hx)
        rw [List.append_nil]
        exact ⟨tree, hfront, ht⟩
      · have hnil : (Journal.concat (part :: parts)).commodities = [] := by
          rw [← hmeans]
          rfl
        exact absurd hnil (commodities_ne_nil hopen hx)

/-- A transaction on one line has no lines under it. -/
theorem OneLine.lines_eq_nil (h : OneLine ts) (hts : ts ∈ tree.spellings) : tree.lines = [] := by
  obtain ⟨_, ⟨front, -, _, ⟨rfl, hbreak⟩, rfl⟩, ls, hls, rfl⟩ := hts
  by_contra hne
  obtain ⟨v, vs, rfl, -⟩ := Grammar.exists_indent_of_mem_lines hne hls
  have hnil := h front tree.newline (v :: vs) (by simp) (of_decide_eq_true hbreak)
  exact absurd hnil (List.cons_ne_nil v vs)

/-- **What is read as a transaction is the first line of one.** -/
theorem exists_header (hline : '\n' ∉ text)
    (h : readJournal year (String.ofList (text ++ ['\n'])) = .ok ⟨.ofTransaction t, [], []⟩) :
    (tokenize (String.ofList (text ++ ['\n']))).faults = [] ∧
    ∃ tree : Tree.Transaction,
      (tokenize (String.ofList (text ++ ['\n']))).tokens ∈ tree.spellings ∧ tree.lines = [] ∧
        Transaction.ofWritten year (.ofTree tree) = .ok t := by
  obtain ⟨hmeans, hscan, hparse⟩ := readJournal_eq_ok_iff.mp h
  have hone := oneLine_tokenize hline
  obtain ⟨parts, hparts, hconcat⟩ := means_iff.mp hmeans
  obtain ⟨tree, hspelled, ht⟩ :=
    exists_of_settled hone (settled_iff.mpr ⟨hparse.symm, rfl⟩) hparts hconcat
  exact ⟨hscan.symm, tree, hspelled, hone.lines_eq_nil hspelled, ht⟩

/-! ## A line under it -/

/-- A line under the first line. -/
theorem mem_spellings_line {line : Line Tree.Content} (hts : ts ∈ tree.spellings)
    (hlines : tree.lines = []) (hus : us ∈ line.spellings Tree.Content.spellings) :
    ts ++ us ∈ Tree.Transaction.spellings { tree with lines := [line] } := by
  obtain ⟨front, hfront, ls, hls, rfl⟩ := hts
  rw [hlines] at hls
  obtain rfl := (Language.mem_one ls).mp hls
  refine ⟨front, hfront, us, ⟨us, hus, [], rfl, ?_⟩, ?_⟩ <;> simp

/-- A posting with an amount and nothing else. -/
theorem mem_spellings_posting {account : Token} {a : Tree.Amount}
    (haccount : account.kind.isAccount) (hus : us ∈ a.spellings) :
    account :: us ∈ Tree.Posting.spellings ⟨none, account, some a, none, none, none⟩ := by
  have hposting : [account] ++ us ∈ spell Kind.isAccount account * a.spellings :=
    Language.append_mem_mul ⟨rfl, haccount⟩ hus
  simpa [Tree.Posting.spellings, spellOption] using hposting

/-- What a posting under the first line adds. -/
theorem ofWritten_posting {w : Written.Transaction} (hlines : w.lines = [])
    (h : Transaction.ofWritten year w = .ok t) (p : Written.Posting) :
    Transaction.ofWritten year { w with lines := [.posting p] } =
      (fun q => { t with postings := [q] }) <$> Posting.ofWritten p := by
  obtain ⟨u, hheader, hu⟩ := bind_eq_ok.mp h
  rw [hlines] at hu
  obtain rfl := Except.ok.inj hu
  have hnone : u.postings = [] := by
    obtain ⟨date, -, hmore⟩ := bind_eq_ok.mp hheader
    obtain ⟨secondDate, -, hrest⟩ := bind_eq_ok.mp hmore
    exact Except.ok.inj hrest ▸ rfl
  calc Transaction.ofWritten year { w with lines := [.posting p] }
      = (Transaction.ofHeader year w >>= [.posting p].foldlM Transaction.addLine) := rfl
    _ = (u.addLine (.posting p) >>= pure) := by
        rw [hheader]
        rfl
    _ = u.addPosting <$> Posting.ofWritten p := bind_pure _
    _ = (fun q => { u with postings := [q] }) <$> Posting.ofWritten p := by
        unfold Transaction.addPosting
        rw [hnone]
        rfl

theorem concat_singleton (j : Journal) : Journal.concat [j] = j := Journal.append_empty j

/-- A written journal with one transaction means this transaction. -/
theorem ofWritten_singleton (year : Int) (w : Written.Transaction) (span : Span) :
    Journal.ofWritten year ⟨[⟨.transaction w, span⟩]⟩ =
      Journal.ofTransaction <$> Transaction.ofWritten year w := by
  simp [Journal.ofWritten_eq, Journal.ofItem, concat_singleton]

/-- The written journal of a source whose tokens are a transaction. -/
theorem readWritten_transaction {source : String} (hfaults : (tokenize source).faults = [])
    (htokens : (tokenize source).tokens ∈ tree.spellings) : readWritten source = .ok
      ⟨⟨[⟨.transaction (.ofTree tree), spanOf (tokenize source).tokens⟩]⟩, [], []⟩ := by
  have hsettled : Settled (tokenize source).tokens
      [⟨.transaction tree, spanOf (tokenize source).tokens⟩] := by
    have hitem : Settled ((tokenize source).tokens ++ []) _ :=
      .item (x := .transaction tree) htokens False.elim .nil
    rwa [List.append_nil] at hitem
  obtain ⟨hclean, hitems⟩ := settled_iff.mp hsettled
  have hwritten : ∀ span, Written.Journal.ofTree [⟨.transaction tree, span⟩] =
      .ok ⟨[⟨.transaction (.ofTree tree), span⟩]⟩ := fun span => by
    simp [Written.Journal.ofTree, Written.Item.ofTree]
  unfold readWritten readTree
  simp only [hfaults, hclean, hitems, hwritten]
  rfl

/-- **The journal of a source whose tokens are a transaction.** -/
theorem readJournal_transaction {source : String} (hfaults : (tokenize source).faults = [])
    (htokens : (tokenize source).tokens ∈ tree.spellings) :
    readJournal year source =
      (fun t => ⟨.ofTransaction t, [], []⟩) <$> Transaction.ofWritten year (.ofTree tree) := by
  unfold readJournal
  rw [readWritten_transaction hfaults htokens]
  show Reading.withResult _ <$> Journal.ofWritten year ⟨[⟨.transaction (.ofTree tree), _⟩]⟩ = _
  rw [ofWritten_singleton, Functor.map_map]
  rfl

/-- The line of a posting to the account `A`, as it is in a tree. -/
def postingLine (p : Text.Place) (chunks : List Chunk) (a : Tree.Amount) : Line Tree.Content :=
  let account := p.advance [' ', ' ']
  let amount := account.advance ['A']
  ⟨⟨.indent, "  ", p, none⟩,
    .posting ⟨none, ⟨.realAccount, "A", account, some (.segments ["A"])⟩, some a, none, none, none⟩,
    ⟨.newline, "\n", amount.advance (written chunks), none⟩⟩

theorem postingTokens_mem_spellings {p : Text.Place} {chunks : List Chunk} {a : Tree.Amount}
    (ha : tokensFrom ((p.advance [' ', ' ']).advance ['A']) chunks ∈ a.spellings) :
    postingTokens p chunks ∈ (postingLine p chunks a).spellings Tree.Content.spellings := by
  let account : Token := ⟨.realAccount, "A", p.advance [' ', ' '], some (.segments ["A"])⟩
  have haccount : account.kind.isAccount := rfl
  have hposting := mem_spellings_posting haccount ha
  exact ⟨_, ⟨[_], ⟨rfl, rfl⟩, _, hposting, rfl⟩, [_], ⟨rfl, rfl⟩, rfl⟩

/-- The posting to the account `A` with this amount. -/
def postingOf (a : Amount) : Posting := ⟨.unmarked, ⟨.real, ["A"]⟩, some a, none, none, []⟩

theorem ofWritten_amount (a : Written.Amount) :
    Posting.ofWritten ⟨.unmarked, ⟨.real, ["A"]⟩, some a, none, none, none⟩ =
      postingOf <$> Amount.ofWritten a := by
  unfold Posting.ofWritten
  simp only [optionally]
  cases Amount.ofWritten a <;> rfl

/-- **A posting under the first line is added to what it means**, and nothing is passed over. -/
theorem readJournal_posting {chunks : List Chunk} {meaning : Except JournalFault Amount}
    (hline : '\n' ∉ text)
    (hheader : readJournal year (String.ofList (text ++ ['\n'])) = .ok ⟨.ofTransaction t, [], []⟩)
    (hapart : ReadApart ['\n'] chunks) (hends : nameEnds (written chunks ++ ['\n']))
    (hmeans : ∀ p, ∃ a : Tree.Amount, tokensFrom p chunks ∈ a.spellings ∧
      Amount.ofWritten (.ofTree a) = meaning) :
    readJournal year (String.ofList
        (text ++ ['\n'] ++ ([' ', ' '] ++ 'A' :: (written chunks ++ ['\n'])))) =
      (fun a => ⟨.ofTransaction { t with postings := [postingOf a] }, [], []⟩) <$> meaning := by
  obtain ⟨hclean, tree, hspelled, hlines, ht⟩ := exists_header hline hheader
  have hfront : WholeLines (text ++ ['\n']) := by simp [WholeLines]
  have hstream := tokenize_posting hfront hapart hends
  generalize (Scanner.start.run (text ++ ['\n'])).place = p at hstream
  obtain ⟨a, ha, rfl⟩ := hmeans ((p.advance [' ', ' ']).advance ['A'])
  have htokens := mem_spellings_line hspelled hlines (postingTokens_mem_spellings ha)
  have hlines' : (Written.Transaction.ofTree tree).lines = [] := by
    simp [Written.Transaction.ofTree, hlines]
  rw [readJournal_transaction (by rw [hstream]; exact hclean) (by rw [hstream]; exact htokens)]
  show _ <$> Transaction.ofWritten year { Written.Transaction.ofTree tree with
    lines := [.posting ⟨.unmarked, ⟨.real, ["A"]⟩, some (.ofTree a), none, none, none⟩] } = _
  rw [ofWritten_posting hlines' ht, ofWritten_amount, Functor.map_map, Functor.map_map]

/-! ## A line under `2000/01/01 x` -/

/-- The first line `2000/01/01 x`, as it is in a tree. -/
def plainHeader : Tree.Transaction where
  date := ⟨.date, "2000/01/01", ⟨0, 1, 1⟩, none⟩
  secondDate := none
  status := none
  chequeNumber := none
  description := some ⟨⟨.text, "x", ⟨11, 1, 12⟩, none⟩, none⟩
  comment := none
  newline := ⟨.newline, "\n", ⟨12, 1, 13⟩, none⟩
  lines := []

/-- Its text. -/
def plainLine : List Char := "2000/01/01 x\n".toList

theorem wholeLines_plainLine : WholeLines plainLine := by decide +kernel

theorem tokenize_plainLine : tokenize (String.ofList plainLine) =
    ⟨[⟨.date, "2000/01/01", ⟨0, 1, 1⟩, none⟩, ⟨.text, "x", ⟨11, 1, 12⟩, none⟩,
      ⟨.newline, "\n", ⟨12, 1, 13⟩, none⟩], []⟩ := by decide +kernel

/-- The tokens of the line with a comment or without. -/
theorem mem_spellings_plainHeader (comment : Option Tree.Comment) {newline : Token}
    (hus : us ∈ spellOption Tree.Comment.spellings comment) (hnewline : newline.kind = .newline) :
    ⟨.date, "2000/01/01", ⟨0, 1, 1⟩, none⟩ :: ⟨.text, "x", ⟨11, 1, 12⟩, none⟩ :: (us ++ [newline]) ∈
      Tree.Transaction.spellings { plainHeader with comment := comment, newline := newline } := by
  have hline : [plainHeader.date] ++ [⟨.text, "x", ⟨11, 1, 12⟩, none⟩] ++ us ++ [newline] ∈
      spellKind .date plainHeader.date * spellKind .text ⟨.text, "x", ⟨11, 1, 12⟩, none⟩ *
        spellOption Tree.Comment.spellings comment * spellKind .newline newline :=
    Language.append_mem_mul (Language.append_mem_mul (Language.append_mem_mul ⟨rfl, rfl⟩ ⟨rfl, rfl⟩)
      hus) (mem_spellKind.mpr ⟨rfl, hnewline⟩)
  simpa [Tree.Transaction.spellings, Tree.Description.spellings, plainHeader, spellOption, spellList]
    using hline

theorem plainHeader_spellings :
    (tokenize (String.ofList plainLine)).tokens ∈ plainHeader.spellings := by
  have hnone : [] ∈ spellOption Tree.Comment.spellings none := rfl
  rw [tokenize_plainLine]
  exact mem_spellings_plainHeader none hnone rfl

/-- What the first line means does not depend on the year. -/
theorem ofWritten_plainHeader (year : Int) : Transaction.ofWritten year (.ofTree plainHeader) =
    .ok (.blank ⟨2000, 1, 1, by decide⟩ (.plain "x")) := by
  have hyear : ¬ IsYearless "2000/01/01" := by decide +kernel
  have hdate : dateOfWritten year "2000/01/01" = .ok ⟨2000, 1, 1, by decide⟩ :=
    (dateOfWritten_congr hyear).trans (b := dateOfWritten 2000 "2000/01/01") (by decide +kernel)
  unfold Transaction.ofWritten Transaction.ofHeader
  simp only [Written.Transaction.ofTree, plainHeader, hdate]
  rfl

section

variable {source : String} {line : Line Tree.Content}
  (htokens : tokenize source = ⟨(tokenize (String.ofList plainLine)).tokens ++ us,
    (tokenize (String.ofList plainLine)).faults⟩)
  (hus : us ∈ line.spellings Tree.Content.spellings)

include htokens hus

/-- **What a line under the first line adds to the written journal.** -/
theorem readWritten_line : ∃ span, readWritten source = .ok
    ⟨⟨[⟨.transaction { Written.Transaction.ofTree plainHeader with
      lines := [.ofTree line.body] }, span⟩]⟩, [], []⟩ := by
  have hclean : (tokenize source).faults = [] := by rw [htokens, tokenize_plainLine]
  have hspelled := mem_spellings_line plainHeader_spellings rfl hus
  exact ⟨_, readWritten_transaction hclean (by rw [htokens]; exact hspelled)⟩

/-- **What a posting under the first line adds to the journal.** -/
theorem readJournal_line {p : Tree.Posting} {q : Posting} (hbody : line.body = .posting p)
    (hq : Posting.ofWritten (.ofTree p) = .ok q) :
    readJournal year source = .ok ⟨.ofTransaction
      { Transaction.blank ⟨2000, 1, 1, by decide⟩ (.plain "x") with postings := [q] }, [], []⟩ := by
  obtain ⟨span, hread⟩ := readWritten_line htokens hus
  unfold readJournal
  rw [hread, hbody]
  show Reading.withResult _ <$> Journal.ofWritten year ⟨[⟨.transaction
    { Written.Transaction.ofTree plainHeader with lines := [.posting (.ofTree p)] }, _⟩]⟩ = _
  rw [ofWritten_singleton, ofWritten_posting rfl (ofWritten_plainHeader year), hq]
  rfl

end

end Daybook
