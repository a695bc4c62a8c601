import Daybook.Proofs.Reading.Header

/-!
# Accounts as they are shown

An account of a journal is shown as it was written: a path is its names with colons between them, in
the brackets of its kind. What is shown is read as the same account again, on a line with nothing
behind it. About `parse_to_cooked_with` and the `Display` of accounts ([SPEC 11.4]).

* `TokenStream.accounts stream s`: the account tokens within a span.
* `ShowsAccounts stream w j`: the accounts of a journal are shown as they are written.
* `pendingTokens p kind image payload`: the tokens of the line of a posting with a status and
  nothing behind its account; `pendingLine` is this line in a tree, and `pendingTo a` the posting.

Results:
* `showsAccounts_of_parts`: **accounts are shown as they are written.**
* `tokenize_pending`: the line of such a posting has its tokens and no fault.
* `readJournal_pending`: **an account is read as it is shown.**
* `readJournal_shows_accounts`: **accounts are shown as they are written, and read as they are
  shown.**
-/

namespace Daybook

open Daybook.Tree Lexeme Text

/-! ## The accounts of an item -/

/-- The account tokens within a span. -/
def TokenStream.accounts (stream : TokenStream) (s : Span) : List Token :=
  (stream.within s).filter (·.kind.isAccount)

/-- The accounts of a journal are shown as they are written, and no path is empty. -/
structure ShowsAccounts (stream : TokenStream) (w : Written.Journal) (j : Journal) : Prop where
  /-- The accounts of postings, one for each account token of the transaction. -/
  transactions : List.Forall₂ (fun v t =>
      t.postings.map (·.account.text) = (stream.accounts v.span).map Token.image ∧
        ∀ p ∈ t.postings, p.account.path ≠ [])
    (w.openedBy .date) j.transactions
  /-- The accounts that are declared, one for each declaration. -/
  accounts : List.Forall₂ (fun v a =>
      [pathText a.path] = (stream.accounts v.span).map Token.image ∧ a.path ≠ [])
    (w.openedBy .accountKeyword) j.accounts

variable {year : Int} {source : String} {ts : List Token} {s : Span}

/-- The accounts on lines of postings are all accounts. -/
theorem map_account_postingLines (ts : List Token) :
    (postingLines ts).map PostingLine.account = ts.filter (·.kind.isAccount) := by
  induction ts with
  | nil => rfl
  | cons t ts ih =>
    rw [postingLines]
    by_cases haccount : t.kind.isAccount
    · rw [if_pos haccount, List.map_cons, ih, List.filter_cons, if_pos haccount]
    · rw [if_neg haccount, ih, List.filter_cons, if_neg haccount]

theorem mem_of_mem_accounts {u : Token} (h : u ∈ (tokenize source).accounts s) :
    u ∈ (tokenize source).tokens ∧ u.kind.isAccount := by
  obtain ⟨hwithin, hkind⟩ := List.mem_filter.mp h
  exact ⟨List.mem_of_mem_filter hwithin, hkind⟩

theorem path_account_ne_nil (u : Token) : u.account.path ≠ [] := pathNames_ne_nil _

/-- Accounts are shown as their tokens are written. -/
theorem map_text_accounts (source : String) (s : Span) :
    ((tokenize source).accounts s).map (·.account.text) =
      ((tokenize source).accounts s).map Token.image :=
  List.map_congr_left fun _ hu => text_account (mem_of_mem_accounts hu).1 (mem_of_mem_accounts hu).2

/-- What says a declaration of an account is one. -/
theorem exists_accountDirective {x : Tree.Item} {u : Written.AccountDirective}
    (h : Written.Item.ofTree x = .ok (.account u)) :
    ∃ tree, x = .account tree ∧ Written.AccountDirective.ofTree tree = u := by
  cases x with
  | account tree =>
    cases h
    exact ⟨tree, rfl, rfl⟩
  | commodity c =>
    obtain ⟨_, -, heq⟩ := map_eq_ok.mp h
    nomatch heq
  | defaultCommodity d =>
    obtain ⟨_, -, heq⟩ := map_eq_ok.mp h
    nomatch heq
  | _ => nomatch h

/-- The account of a declaration is the only one in it. -/
theorem filter_isAccount_of_spellings {a : Tree.AccountDirective} (hts : ts ∈ a.spellings) :
    ts.filter (·.kind.isAccount) = [a.account] ∧ a.account.kind = .realAccount := by
  obtain ⟨_, ⟨_, ⟨_, ⟨_, ⟨rfl, hkeyword⟩, _, ⟨rfl, haccount⟩, rfl⟩, co, hco, rfl⟩, _, ⟨rfl, hbreak⟩,
    rfl⟩, ls, hls, rfl⟩ := hts
  have hcomment := forall_kind (Q := fun kind => kind.isAccount = false)
    ((Grammar.reads_comment.maybe rfl).spells _ co hco) (by decide)
  have hlines := forall_kind (Q := fun kind => kind.isAccount = false)
    (((Grammar.reads_line Grammar.reads_comment).many rfl).spells _ ls hls) (by decide)
  have hnone : ∀ us : List Token, (∀ t ∈ us, t.kind.isAccount = false) →
      us.filter (·.kind.isAccount) = [] := fun us hus =>
    List.filter_eq_nil_iff.mpr fun t ht => by simp [hus t ht]
  have hkinds : a.keyword.kind = .accountKeyword ∧ a.account.kind = .realAccount ∧
      a.newline.kind = .newline :=
    ⟨of_decide_eq_true hkeyword, of_decide_eq_true haccount, of_decide_eq_true hbreak⟩
  refine ⟨?_, hkinds.2.1⟩
  simp only [List.filter_append, hnone _ hcomment, hnone _ hlines]
  simp [hkinds, Kind.isAccount]

/-- The accounts of postings are those that are written. -/
theorem map_account_of_outlines {t : Transaction} (h : t.postings.map Posting.outline =
      (postingLines ((tokenize source).within s)).map PostingLine.outline) :
    t.postings.map Posting.account = ((tokenize source).accounts s).map Token.account := by
  have haccounts := congrArg (List.map Outline.account) h
  rw [List.map_map, List.map_map] at haccounts
  rw [TokenStream.accounts, ← map_account_postingLines, List.map_map]
  exact haccounts

/-- The account of a posting is that of a token. -/
theorem exists_token_of_map {t : Transaction}
    (h : t.postings.map Posting.account = ((tokenize source).accounts s).map Token.account) :
    ∀ p ∈ t.postings,
      ∃ u ∈ (tokenize source).tokens, u.kind.isAccount ∧ p.account = u.account := by
  intro p hp
  have hmem : p.account ∈ t.postings.map Posting.account := List.mem_map_of_mem hp
  rw [h] at hmem
  obtain ⟨u, hu, heq⟩ := List.mem_map.mp hmem
  obtain ⟨hin, hkind⟩ := mem_of_mem_accounts hu
  exact ⟨u, hin, hkind, heq.symm⟩

/-- An account is declared by the path that is written. -/
theorem path_of_declaration {x : Located Tree.Item} {u : Written.AccountDirective}
    (hx : x ∈ (Tree.ofTokens (tokenize source).tokens).items)
    (hu : Written.Item.ofTree x.value = .ok (.account u)) :
    [pathText u.path] = ((tokenize source).accounts x.span).map Token.image ∧ u.path ≠ [] := by
  obtain ⟨tree, htree, rfl⟩ := exists_accountDirective hu
  have hspelled := within_mem_spellings hx
  rw [htree] at hspelled
  obtain ⟨hfilter, hkind⟩ := filter_isAccount_of_spellings hspelled
  have haccounts : (tokenize source).accounts x.span = [tree.account] := hfilter
  obtain ⟨hmem, haccount⟩ := mem_of_mem_accounts (haccounts ▸ List.mem_singleton_self tree.account)
  have hsame : (⟨.real, tree.account.segments⟩ : Account) = tree.account.account := by
    rw [← accountOfTree_of_mem_tokenize hmem haccount, Written.accountOfTree, hkind]
  have htext : pathText tree.account.segments = tree.account.image :=
    (congrArg Account.text hsame).trans (text_account hmem haccount)
  have hpath : tree.account.segments ≠ [] := by
    rw [show tree.account.segments = tree.account.account.path from congrArg Account.path hsame]
    exact path_account_ne_nil _
  rw [haccounts, List.map_singleton, ← htext]
  exact ⟨rfl, hpath⟩

/-- **The accounts of a journal are shown as they are written**, and those of postings are the
accounts of tokens. -/
theorem showsAccounts_of_parts {w : Written.Journal} {parts : List Journal}
    (hwritten : List.Forall₂ (fun x v => Written.Item.ofTree x.value = .ok v.value ∧ v.span = x.span)
      (Tree.ofTokens (tokenize source).tokens).items w.items)
    (hparts : List.Forall₂ (fun v part => Journal.ofItem year v.value = .ok part) w.items parts) :
    ShowsAccounts (tokenize source) w (Journal.concat parts) ∧
      ∀ t ∈ (Journal.concat parts).transactions, ∀ p ∈ t.postings,
        ∃ u ∈ (tokenize source).tokens, u.kind.isAccount ∧ p.account = u.account := by
  have htransactions := (forall₂_transactions hwritten hparts).imp fun v t h =>
    map_account_of_outlines h.2
  have hlisted := forall₂_concat lists_accounts rfl (fun _ _ => rfl) hparts
  have hpaths : ∀ v ∈ w.openedBy .accountKeyword, ∀ a : AccountEntry,
      (∃ u, v.value = .account u ∧ AccountEntry.ofWritten u = a) →
        [pathText a.path] = ((tokenize source).accounts v.span).map Token.image ∧ a.path ≠ [] := by
    rintro v hv a ⟨u, hu, rfl⟩
    obtain ⟨x, hx, hsays, hspan⟩ := exists_of_mem_right hwritten (List.mem_of_mem_filter hv)
    rw [hspan]
    exact path_of_declaration hx (hu ▸ hsays)
  constructor
  · constructor
    · refine htransactions.imp fun v t h => ⟨?_, fun p hp => ?_⟩
      · have htexts := congrArg (List.map Account.text) h
        rw [List.map_map, List.map_map] at htexts
        exact htexts.trans (map_text_accounts source v.span)
      · obtain ⟨u, -, -, hu⟩ := exists_token_of_map h p hp
        exact hu ▸ path_account_ne_nil u
    · exact ((List.forall₂_and_left _ _).mpr ⟨hpaths, hlisted⟩).imp fun v a h => h.1 a h.2
  · intro t ht
    obtain ⟨v, -, h⟩ := exists_of_mem_right htransactions ht
    exact exists_token_of_map h

/-! ## A line with a status and an account -/

/-- The tokens of the line of a posting with a status and nothing behind its account, if the line
starts at this place. -/
def pendingTokens (p : Place) (kind : Kind) (image : List Char) (payload : Option Payload) :
    List Token :=
  let status := p.advance [' ', ' ']
  let account := (status.advance ['!']).advance [' ']
  [⟨.indent, "  ", p, none⟩, ⟨.exclamation, "!", status, none⟩,
    ⟨kind, String.ofList image, account, payload⟩,
    ⟨.newline, "\n", account.advance image, none⟩]

section

variable {base s : Scanner} {kind : Kind} {image front ahead : List Char} {found : Match}

namespace Scanner

/-- Right behind the indentation an exclamation mark with a space is a status. -/
theorem next_exclamation (hmode : s.modes.top = .indented)
    (hindent : (s.view ('!' :: ' ' :: ahead)).follows [.indent]) :
    s.next ('!' :: ' ' :: ahead) = .token .exclamation Match.single .stay := by
  have hrest : (s.view ('!' :: ' ' :: ahead)).rest = '!' :: ' ' :: ahead := rfl
  rw [next_of_inner (by rw [hmode]; decide) rfl rfl, hmode]
  generalize s.view ('!' :: ' ' :: ahead) = v at hindent hrest
  have hsign : v.sign ';' = none := by simp [View.sign, hrest]
  have hformat : v.formatKeyword = none := by
    simp [View.formatKeyword, View.keyword, keywordLength, hrest, Match.ofLength]
  have hcleared : v.postingStatus '*' = none := by
    simp [View.postingStatus, keywordLength, hrest, Match.ofLength]
  have hpending : v.postingStatus '!' = some Match.single := by
    simp [View.postingStatus, keywordLength, hindent, hrest, Match.ofLength, isLayout, Match.single]
  simp [Mode.token?, Mode.rules, Rule.token?, Rule.inlineComment, hsign, hformat, hcleared, hpending]

/-- Behind the status of a posting. -/
def overStatus (s : Scanner) : Scanner := ((s.note .exclamation ['!'] none).pass ['!']).pass [' ']

/-- The status of a posting is passed. -/
theorem run_status (hmode : s.modes.top = .indented) (hindent : s.tokens.head?.any (·.kind = .indent))
    (hahead : ∀ d ∈ ahead.head?, isLayout d = false) :
    s.run ('!' :: ' ' :: ahead) = s.overStatus.run ahead := by
  have hnext : s.next (['!'] ++ ' ' :: ahead) = .token .exclamation Match.single .stay :=
    next_exclamation hmode (by simpa [View.follows, view] using hindent)
  have hinner : ((s.note .exclamation ['!'] none).pass ['!']).modes.top ∉
      [.lineStart, .lineComment] := by
    show s.modes.top ∉ _
    simp [hmode]
  exact (run_token hnext rfl).trans (run_gap hinner space_mem_layout hahead)

/-- Behind the status of a posting an account is looked for. -/
theorem looksForAccount_overStatus (hmode : s.modes.top = .indented)
    (hopener : (s.tokens.map (·.kind)).find? Kind.opensItem = some .date)
    (hstarts : ∃ c ∈ ahead.head?, isNameChar c ∧ c ≠ ' ') :
    s.overStatus.LooksForAccount ahead := by
  refine ⟨hstarts, .inr ⟨hmode, ?_, fun c _ => ?_⟩⟩
  · have hdate : (s.overStatus.view ahead).opener? = some .date := hopener
    simp [View.formatKeyword, hdate]
  · have hstatus : (s.overStatus.view ahead).follows [.indent] = false := rfl
    rw [View.postingStatus, hstatus]
    rfl

/-- **The line of a posting with a status has these tokens and no fault.** -/
theorem run_pending (hfresh : base.Fresh)
    (hopener : (base.tokens.map (·.kind)).find? Kind.opensItem = some .date)
    (hfirst : ∀ c ∈ image.head?, isLayout c = false) (h : FoundAs image ['\n'] kind found) :
    let final := base.run ([' ', ' '] ++ '!' :: ' ' :: (image ++ ['\n']))
    final.tokens = (pendingTokens base.place kind image found.payload).reverse ++ base.tokens ∧
      final.faults = base.faults := by
  have hlayout : [' ', ' '] ∈ someOf isLayout := ⟨List.cons_ne_nil _ _, by simp [isLayout]⟩
  have hhead : ∀ c ∈ ('!' :: ' ' :: (image ++ ['\n'])).head?, isLayout c = false := by
    rintro _ ⟨⟩
    rfl
  have hfilled : ¬ ('!' :: ' ' :: (image ++ ['\n']) = [] ∨
      0 < newlineLength ('!' :: ' ' :: (image ++ ['\n']))) :=
    not_or.mpr ⟨List.cons_ne_nil _ _, Nat.lt_irrefl 0⟩
  obtain ⟨c, cs, hcons, hchar⟩ := h.starts
  have hhead' : (image ++ ['\n']).head? = some c := by rw [hcons]; rfl
  have hc : isLayout c = false := hfirst c (by rw [hcons]; rfl)
  have hstarts : ∃ c ∈ (image ++ ['\n']).head?, isNameChar c ∧ c ≠ ' ' :=
    ⟨c, hhead', hchar, by rintro rfl; cases hc⟩
  have hmore : ∀ d ∈ (image ++ ['\n']).head?, isLayout d = false := by
    rw [hhead']
    rintro _ ⟨⟩
    exact hc
  rw [run_layout hfresh hlayout hhead, overLayout, if_neg hfilled]
  generalize hs : Scanner.pass _ [' ', ' '] = s
  have hmode : s.modes.top = .indented := by
    rw [← hs]
    rfl
  have htokens : s.tokens = ⟨.indent, "  ", base.place, none⟩ :: base.tokens := by
    rw [← hs]
    rfl
  have hlooks : s.overStatus.LooksForAccount (image ++ ['\n']) :=
    looksForAccount_overStatus hmode (htokens ▸ hopener) hstarts
  have hstatus : s.overStatus.modes.top = .indented := hmode
  rw [run_status hmode (htokens ▸ rfl) hmore, run_found hstatus hlooks h, run_newline, ← hs]
  exact ⟨rfl, rfl⟩

end Scanner

end

/-- **The line of such a posting under the first line of a transaction** adds its tokens to theirs.
-/
theorem tokenize_pending {front image : List Char} {kind : Kind} {found : Match}
    (hfront : WholeLines front)
    (hopener : ((tokenize (String.ofList front)).tokens.reverse.map (·.kind)).find? Kind.opensItem =
      some .date)
    (hfirst : ∀ c ∈ image.head?, isLayout c = false) (h : FoundAs image ['\n'] kind found) :
    tokenize (String.ofList (front ++ ([' ', ' '] ++ '!' :: ' ' :: (image ++ ['\n'])))) =
      ⟨(tokenize (String.ofList front)).tokens ++
        pendingTokens (Scanner.start.run front).place kind image found.payload,
        (tokenize (String.ofList front)).faults⟩ := by
  have hbase : ((Scanner.start.run front).tokens.map (·.kind)).find? Kind.opensItem = some .date := by
    simpa [tokenize] using hopener
  obtain ⟨htokens, hfaults⟩ :=
    Scanner.run_pending (Scanner.fresh_run_start hfront) hbase hfirst h
  simp only [tokenize, String.toList_ofList, Scanner.run_append _ hfront, htokens, hfaults,
    List.reverse_append, List.reverse_reverse]

/-! ## An account as it is shown -/

/-- The line of a posting with a status and nothing behind its account, as it is in a tree. -/
def pendingLine (p : Place) (kind : Kind) (image : List Char) (payload : Option Payload) :
    Line Tree.Content :=
  let status := p.advance [' ', ' ']
  let account := (status.advance ['!']).advance [' ']
  ⟨⟨.indent, "  ", p, none⟩,
    .posting ⟨some ⟨.exclamation, "!", status, none⟩,
      ⟨kind, String.ofList image, account, payload⟩, none, none, none, none⟩,
    ⟨.newline, "\n", account.advance image, none⟩⟩

theorem pendingTokens_mem_spellings {kind : Kind} (hkind : kind.isAccount) (p : Place)
    (image : List Char) (payload : Option Payload) : pendingTokens p kind image payload ∈
      (pendingLine p kind image payload).spellings Tree.Content.spellings := by
  let status : Token := ⟨.exclamation, "!", p.advance [' ', ' '], none⟩
  let account : Token :=
    ⟨kind, String.ofList image, ((p.advance [' ', ' ']).advance ['!']).advance [' '], payload⟩
  have hposting : [status] ++ [account] ∈
      Tree.Posting.spellings ⟨some status, account, none, none, none, none⟩ := by
    have hboth : [status] ++ [account] ∈ spellStatus status * spell Kind.isAccount account :=
      Language.append_mem_mul ⟨rfl, rfl⟩ ⟨rfl, hkind⟩
    simpa [Tree.Posting.spellings, spellOption] using hboth
  exact ⟨_, ⟨[_], ⟨rfl, rfl⟩, _, hposting, rfl⟩, [_], ⟨rfl, rfl⟩, rfl⟩

/-- The posting with a status to this account, and nothing else. -/
def pendingTo (a : Account) : Posting := ⟨.pending, a, none, none, none, []⟩

/-- **An account is read as it is shown**, if it does not end in a space. -/
theorem readJournal_pending {u : Token} (year : Int) (hmem : u ∈ (tokenize source).tokens)
    (hkind : u.kind.isAccount) (hlast : u.account.text.toList.getLast? ≠ some ' ') :
    readJournal year ("2000/01/01 x\n  ! " ++ u.account.text ++ "\n") = .ok ⟨.ofTransaction
      { Transaction.blank ⟨2000, 1, 1, by decide⟩ (.plain "x") with
        postings := [pendingTo u.account] }, [], []⟩ := by
  obtain ⟨s, rest, -, hne, hnotes⟩ := Scanner.exists_notes_of_mem_tokenize hmem
  obtain ⟨ahead, found, rfl, hfound, hpayload, hfirst⟩ := hnotes.foundAs hne hkind
  rw [text_account hmem hkind] at hlast ⊢
  have hagain : FoundAs u.image.toList ['\n'] u.kind found :=
    hfound.again hlast (.line rfl []) (closesOnlyAs_newline ahead)
  have hfirst : ∀ c ∈ u.image.toList.head?, isLayout c = false := fun c hc =>
    hfirst c (List.mem_head?_append_of_mem_head? hc)
  have hsource : "2000/01/01 x\n  ! " ++ u.image ++ "\n" =
      String.ofList (plainLine ++ ([' ', ' '] ++ '!' :: ' ' :: (u.image.toList ++ ['\n']))) := by
    have hdivide : "2000/01/01 x\n  ! ".toList = plainLine ++ [' ', ' ', '!', ' '] := by
      decide +kernel
    rw [← String.toList_inj]
    simp [hdivide]
  have hstream := tokenize_pending wholeLines_plainLine (by rw [tokenize_plainLine]; decide) hfirst
    hagain
  rw [← hpayload, ← hsource] at hstream
  generalize (Scanner.start.run plainLine).place = p at hstream
  have haccount : Posting.ofWritten (.ofTree
      ⟨some ⟨.exclamation, "!", p.advance [' ', ' '], none⟩,
        ⟨u.kind, String.ofList u.image.toList, ((p.advance [' ', ' ']).advance ['!']).advance [' '],
          u.payload⟩, none, none, none, none⟩) = .ok (pendingTo u.account) := by
    rw [← accountOfTree_of_mem_tokenize hmem hkind]
    rfl
  exact readJournal_line hstream
    (pendingTokens_mem_spellings hkind p u.image.toList u.payload) rfl haccount

/-- **Accounts are shown as they are written, and read as they are shown.** -/
theorem readJournal_shows_accounts (year : Int) {source : String} {r : Reading Journal}
    (h : readJournal year source = .ok r) :
    ∃ w, readWritten source = .ok (r.withResult w) ∧
      ShowsAccounts (tokenize source) w r.result ∧
      ∀ t ∈ r.result.transactions, ∀ p ∈ t.postings, p.account.text.toList.getLast? ≠ some ' ' →
        ∀ year', readJournal year' ("2000/01/01 x\n  ! " ++ p.account.text ++ "\n") =
          .ok ⟨.ofTransaction { Transaction.blank ⟨2000, 1, 1, by decide⟩ (.plain "x") with
            postings := [pendingTo p.account] }, [], []⟩ := by
  obtain ⟨reading, hreading, hr⟩ := bind_eq_ok.mp h
  obtain ⟨j, hj, rfl⟩ := map_eq_ok.mp hr
  obtain ⟨w, hw, rfl⟩ := map_eq_ok.mp hreading
  obtain ⟨parts, hparts, rfl⟩ := ofWritten_eq_ok_iff.mp hj
  obtain ⟨hshows, htokens⟩ := showsAccounts_of_parts (written_ofTree_eq_ok_iff.mp hw) hparts
  refine ⟨w, hreading, hshows, fun t ht p hp hlast year' => ?_⟩
  obtain ⟨u, hmem, hkind, haccount⟩ := htokens t ht p hp
  rw [haccount] at hlast ⊢
  exact readJournal_pending year' hmem hkind hlast

/-- A declared account and a virtual one, with layout behind both. -/
theorem readJournal_shows_accounts_virtual :
    ∃ r, readJournal 2024 "account E:F  \n1/31 x\n (A:B)  1\n" = .ok r ∧
      (∃ w, readWritten "account E:F  \n1/31 x\n (A:B)  1\n" = .ok (r.withResult w) ∧
        ShowsAccounts (tokenize "account E:F  \n1/31 x\n (A:B)  1\n") w r.result) ∧
      r.result.accounts.map (pathText ·.path) = ["E:F"] ∧
      r.result.transactions.map (·.postings.map (·.account)) = [[⟨.virtual, ["A", "B"]⟩]] ∧
      readJournal 2025 ("2000/01/01 x\n  ! " ++ (⟨.virtual, ["A", "B"]⟩ : Account).text ++ "\n") =
        .ok ⟨.ofTransaction { Transaction.blank ⟨2000, 1, 1, by decide⟩ (.plain "x") with
          postings := [pendingTo ⟨.virtual, ["A", "B"]⟩] }, [], []⟩ := by
  have hread : readJournal 2024 "account E:F  \n1/31 x\n (A:B)  1\n" = .ok {
      result := {
        transactions := [{
          date := ⟨2024, 1, 31, by decide⟩
          secondDate := none
          status := .unmarked
          chequeNumber := none
          description := .plain "x"
          postings := [⟨.unmarked, ⟨.virtual, ["A", "B"]⟩,
            some ⟨⟨false, 1, 0, by decide, by decide⟩, none⟩, none, none, []⟩]
          tags := [] }]
        accounts := [⟨["E", "F"], []⟩]
        prices := []
        commodities := []
        defaultCommodity := none }
      scanFaults := []
      parseFaults := [] } := by decide +kernel
  obtain ⟨w, hw, hshows, hagain⟩ := readJournal_shows_accounts 2024 hread
  refine ⟨_, hread, ⟨w, hw, hshows⟩, rfl, rfl, ?_⟩
  exact hagain _ (List.mem_singleton_self _) _ (List.mem_singleton_self _) (by decide +kernel) 2025

end Daybook
