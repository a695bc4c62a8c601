import Daybook.Proofs.Reading.Append
import Daybook.Proofs.Tree.Opening
import Daybook.Proofs.Tree.Partition
import Daybook.Proofs.Tree.Spans
import Daybook.Proofs.Written.Postings
import Daybook.Proofs.Written.Tells

/-!
# Nothing written is lost

What a source says is in its journal, in the order in which it is written. Every line that opens an
item is an item, every item has its entry in the list of its kind, and a transaction has a posting
for each account on its lines. The last default commodity counts. About `parse_to_cooked_with`
(invariants 1 and 2 of [SPEC 3], [SPEC 8]).

* `Written.Journal.openedBy w kind`: the items that open with a token of this kind.
* `Keeps year stream w j`: the tokens of a source are kept in its written journal, and those in the
  journal.

Results:
* `forall₂_openings`: the tokens that start items start those that are read.
* `told_of_ofTree`: what the items say is told by tokens of the source.
* `forall₂_concat`: **each item has its entry in its list.**
* `readJournal_keeps`: **nothing written is lost or put in another order.**
-/

namespace Daybook

open Daybook.Tree

/-- The kind of token that opens an item like this. -/
def Written.Item.opener : Written.Item → Kind
  | transaction _ => .date
  | lineComment _ => .commentMarker
  | price _ => .priceKeyword
  | account _ => .accountKeyword
  | commodity _ => .commodityKeyword
  | defaultCommodity _ => .defaultKeyword

/-- The items that open with a token of this kind. -/
def Written.Journal.openedBy (w : Written.Journal) (kind : Kind) : List (Located Written.Item) :=
  w.items.filter (·.value.opener = kind)

/-- The tokens of a source are kept in its written journal, and the items of that in the journal. -/
structure Keeps (year : Int) (stream : TokenStream) (w : Written.Journal) (j : Journal) : Prop where
  /-- The tokens that start items are the starts of the items, each of its kind. -/
  items : List.Forall₂ (fun t v => v.value.opener = t.kind ∧ v.span.start = t.offset)
    (stream.tokens.filter Token.StartsItem) w.items
  /-- Each transaction is there, with a posting for each account that is written in it. -/
  transactions : List.Forall₂ (fun v t =>
      (∃ u, v.value = .transaction u ∧ Transaction.ofWritten year u = .ok t) ∧
        t.postings.map Posting.outline =
          (postingLines (stream.within v.span)).map PostingLine.outline)
    (w.openedBy .date) j.transactions
  /-- Each account that is declared is there. -/
  accounts : List.Forall₂ (fun v a => ∃ u, v.value = .account u ∧ AccountEntry.ofWritten u = a)
    (w.openedBy .accountKeyword) j.accounts
  /-- Each price is there. -/
  prices : List.Forall₂ (fun v p => ∃ u, v.value = .price u ∧ Price.ofWritten year u = .ok p)
    (w.openedBy .priceKeyword) j.prices
  /-- Each commodity that is declared is there. -/
  commodities : List.Forall₂ (fun v c =>
      ∃ u, v.value = .commodity u ∧ CommodityEntry.ofWritten u = .ok c)
    (w.openedBy .commodityKeyword) j.commodities
  /-- The last default commodity is there, if there is any. -/
  defaultCommodity : Option.Rel (fun v a =>
      ∃ u, v.value = .defaultCommodity u ∧ Amount.ofWritten u.amount.toAmount = .ok a)
    (w.openedBy .defaultKeyword).getLast? j.defaultCommodity

variable {year : Int} {source : String} {segs : List Segment} {taken : List Token}

/-! ## Where items open -/

/-- The segment is an empty line, or an item whose first token and no other starts an item. -/
def Tree.Segment.Opening : Segment → Prop
  | .blank n => n.kind = .newline
  | .item x taken => ∃ t us, taken = t :: us ∧ t.kind = x.opener ∧ t.StartsItem ∧
      ∀ u ∈ us, ¬ u.StartsItem
  | .broken _ _ => False

/-- Without a fault there are empty lines and items only. -/
theorem opening_of_mem_segments (hclean : (Tree.ofTokens (tokenize source).tokens).faults = [])
    {s : Segment} (hs : s ∈ segments (tokenize source).tokens) : s.Opening := by
  cases s with
  | blank n => exact kind_of_mem_segments hs
  | broken region failure =>
    have hnone := List.filterMap_eq_nil_iff.mp (ofTokens_faults_eq_nil_iff.mp hclean) _ hs
    simp [Segment.failure?] at hnone
  | item x taken =>
    obtain ⟨as, bs, hsplit⟩ := List.append_of_mem hs
    obtain ⟨t, us, rfl, hkind, hstarts⟩ := startsItem_of_segments hsplit
    obtain ⟨pre, post, hinfix⟩ := isInfix_of_mem_segments hs
    have hchain := isChain_tokenize source
    rw [← hinfix] at hchain
    refine ⟨t, us, rfl, hkind, hstarts, not_startsItem_of_mem_tail
      hchain.left_of_append.right_of_append (fun u hu => ?_) (mem_spellings_of_mem_segments hs)⟩
    exact column_pos_tokenize source u (isInfix_of_mem_segments hs |>.subset hu)

/-- **The tokens that start items start those that are read.** -/
theorem forall₂_openings (h : ∀ s ∈ segs, s.Opening) :
    List.Forall₂ (fun t x => t.kind = x.value.opener ∧ t.offset = x.span.start)
      ((segs.flatMap Segment.tokens).filter Token.StartsItem) (segs.filterMap Segment.item?) := by
  induction segs with
  | nil => exact .nil
  | cons s segs ih =>
    obtain ⟨hs, hmore⟩ := List.forall_mem_cons.mp h
    rw [List.flatMap_cons, List.filter_append]
    cases s with
    | blank n =>
      have hnone : [n].filter Token.StartsItem = [] := by
        have hopens : ¬ n.StartsItem := by
          rintro ⟨hopens, -⟩
          rw [show n.kind = .newline from hs] at hopens
          exact absurd hopens (by decide)
        simp [hopens]
      show List.Forall₂ _ ([n].filter Token.StartsItem ++ _) _
      rw [hnone]
      exact ih hmore
    | item x taken =>
      obtain ⟨t, us, rfl, hkind, hstarts, hothers⟩ := hs
      have hfirst : (t :: us).filter Token.StartsItem = [t] := by
        rw [List.filter_cons_of_pos (by simpa using hstarts),
          List.filter_eq_nil_iff.mpr (by simpa using hothers)]
      show List.Forall₂ _ ((t :: us).filter Token.StartsItem ++ _) _
      rw [hfirst]
      exact .cons ⟨hkind, (start_spanOf t us).symm⟩ (ih hmore)
    | broken => exact hs.elim

/-! ## What each item means -/

/-- What a tree says opens with the same token. -/
theorem opener_ofTree {x : Tree.Item} {v : Written.Item} (h : Written.Item.ofTree x = .ok v) :
    v.opener = x.opener := by
  cases x with
  | commodity c =>
    obtain ⟨_, -, rfl⟩ := map_eq_ok.mp h
    rfl
  | defaultCommodity d =>
    obtain ⟨_, -, rfl⟩ := map_eq_ok.mp h
    rfl
  | _ =>
    cases h
    rfl

/-- What an item that opens with `kind` means is one entry of a list of the journal, and what others
mean is none. -/
def Lists {α : Type} (year : Int) (kind : Kind) (entries : Journal → List α)
    (r : Written.Item → α → Prop) : Prop :=
  ∀ (v : Written.Item) (j : Journal), Journal.ofItem year v = .ok j →
    (v.opener = kind → ∃ a, entries j = [a] ∧ r v a) ∧ (v.opener ≠ kind → entries j = [])

/-- **Each item has its entry in its list**, in order. -/
theorem forall₂_concat {α : Type} {kind : Kind} {entries : Journal → List α}
    {r : Written.Item → α → Prop} (hlists : Lists year kind entries r)
    (hempty : entries .empty = []) (happend : ∀ j k, entries (j ++ k) = entries j ++ entries k)
    {items : List (Located Written.Item)} {parts : List Journal}
    (h : List.Forall₂ (fun v part => Journal.ofItem year v.value = .ok part) items parts) :
    List.Forall₂ (fun v a => r v.value a) (items.filter (·.value.opener = kind))
      (entries (Journal.concat parts)) := by
  induction h with
  | nil =>
    show List.Forall₂ _ [] (entries .empty)
    rw [hempty]
    exact .nil
  | @cons v part items parts hv _ ih =>
    obtain ⟨hsame, hother⟩ := hlists v.value part hv
    show List.Forall₂ _ _ (entries (part ++ Journal.concat parts))
    rw [happend]
    by_cases hkind : v.value.opener = kind
    · obtain ⟨a, ha, hr⟩ := hsame hkind
      rw [List.filter_cons_of_pos (by simpa using hkind), ha]
      exact .cons hr ih
    · rw [List.filter_cons_of_neg (by simpa using hkind), hother hkind]
      exact ih

/-- What an item means. -/
inductive MeansEntry (year : Int) : Written.Item → Journal → Prop
  | transaction {u : Written.Transaction} {t : Transaction}
      (h : Transaction.ofWritten year u = .ok t) : MeansEntry year (.transaction u) (.ofTransaction t)
  | lineComment {c : Written.LineComment} : MeansEntry year (.lineComment c) .empty
  | price {u : Written.PriceDirective} {p : Price} (h : Price.ofWritten year u = .ok p) :
      MeansEntry year (.price u) (.ofPrice p)
  | account {u : Written.AccountDirective} :
      MeansEntry year (.account u) (.ofAccount (AccountEntry.ofWritten u))
  | commodity {u : Written.CommodityDirective} {c : CommodityEntry}
      (h : CommodityEntry.ofWritten u = .ok c) : MeansEntry year (.commodity u) (.ofCommodity c)
  | defaultCommodity {u : Written.DefaultDirective} {a : Amount}
      (h : Amount.ofWritten u.amount.toAmount = .ok a) :
      MeansEntry year (.defaultCommodity u) (.ofDefault a)

theorem meansEntry_of_ofItem {v : Written.Item} {j : Journal} (h : Journal.ofItem year v = .ok j) :
    MeansEntry year v j := by
  cases v with
  | transaction u =>
    obtain ⟨t, ht, rfl⟩ := map_eq_ok.mp h
    exact .transaction ht
  | lineComment c =>
    cases h
    exact .lineComment
  | price u =>
    obtain ⟨p, hp, rfl⟩ := map_eq_ok.mp h
    exact .price hp
  | account u =>
    cases h
    exact .account
  | commodity u =>
    obtain ⟨c, hc, rfl⟩ := map_eq_ok.mp h
    exact .commodity hc
  | defaultCommodity u =>
    obtain ⟨a, ha, rfl⟩ := map_eq_ok.mp h
    exact .defaultCommodity ha

theorem lists_transactions : Lists year .date Journal.transactions fun v t =>
    ∃ u, v = .transaction u ∧ Transaction.ofWritten year u = .ok t := by
  intro v j h
  cases meansEntry_of_ofItem h with
  | transaction ht => exact ⟨fun _ => ⟨_, rfl, _, rfl, ht⟩, fun hne => absurd rfl hne⟩
  | _ => exact ⟨fun heq => (nomatch heq), fun _ => rfl⟩

theorem lists_accounts : Lists year .accountKeyword Journal.accounts fun v a =>
    ∃ u, v = .account u ∧ AccountEntry.ofWritten u = a := by
  intro v j h
  cases meansEntry_of_ofItem h with
  | account => exact ⟨fun _ => ⟨_, rfl, _, rfl, rfl⟩, fun hne => absurd rfl hne⟩
  | _ => exact ⟨fun heq => (nomatch heq), fun _ => rfl⟩

theorem lists_prices : Lists year .priceKeyword Journal.prices fun v p =>
    ∃ u, v = .price u ∧ Price.ofWritten year u = .ok p := by
  intro v j h
  cases meansEntry_of_ofItem h with
  | price hp => exact ⟨fun _ => ⟨_, rfl, _, rfl, hp⟩, fun hne => absurd rfl hne⟩
  | _ => exact ⟨fun heq => (nomatch heq), fun _ => rfl⟩

theorem lists_commodities : Lists year .commodityKeyword Journal.commodities fun v c =>
    ∃ u, v = .commodity u ∧ CommodityEntry.ofWritten u = .ok c := by
  intro v j h
  cases meansEntry_of_ofItem h with
  | commodity hc => exact ⟨fun _ => ⟨_, rfl, _, rfl, hc⟩, fun hne => absurd rfl hne⟩
  | _ => exact ⟨fun heq => (nomatch heq), fun _ => rfl⟩

/-- The default commodities, of which there is one at most in what an item means. -/
theorem lists_defaultCommodity :
    Lists year .defaultKeyword (fun j => j.defaultCommodity.toList) fun v a =>
      ∃ u, v = .defaultCommodity u ∧ Amount.ofWritten u.amount.toAmount = .ok a := by
  intro v j h
  cases meansEntry_of_ofItem h with
  | defaultCommodity ha => exact ⟨fun _ => ⟨_, rfl, _, rfl, ha⟩, fun hne => absurd rfl hne⟩
  | _ => exact ⟨fun heq => (nomatch heq), fun _ => rfl⟩

/-- **The last default commodity counts.** -/
theorem rel_defaultCommodity {items : List (Located Written.Item)} {parts : List Journal}
    (h : List.Forall₂ (fun v part => Journal.ofItem year v.value = .ok part) items parts) :
    Option.Rel (fun v a => ∃ u, v.value = .defaultCommodity u ∧
        Amount.ofWritten u.amount.toAmount = .ok a)
      (items.filter (·.value.opener = .defaultKeyword)).getLast?
      (Journal.concat parts).defaultCommodity := by
  induction h with
  | nil => exact .none
  | @cons v part items parts hv _ ih =>
    obtain ⟨hsame, hother⟩ := lists_defaultCommodity v.value part hv
    show Option.Rel _ _ ((Journal.concat parts).defaultCommodity.or part.defaultCommodity)
    by_cases hkind : v.value.opener = .defaultKeyword
    · obtain ⟨a, ha, hr⟩ := hsame hkind
      rw [List.filter_cons_of_pos (by simpa using hkind), List.getLast?_cons,
        Option.toList_eq_singleton_iff.mp ha]
      -- a later one counts if there is any
      generalize (items.filter (·.value.opener = .defaultKeyword)).getLast? = last at ih
      generalize (Journal.concat parts).defaultCommodity = amount at ih
      cases ih with
      | none => exact .some hr
      | some hlater => exact .some hlater
    · rw [List.filter_cons_of_neg (by simpa using hkind), Option.toList_eq_nil_iff.mp (hother hkind),
        Option.or_none]
      exact ih

/-! ## Postings -/

/-- What says a transaction is one. -/
theorem exists_transaction {x : Tree.Item} {u : Written.Transaction}
    (h : Written.Item.ofTree x = .ok (.transaction u)) :
    ∃ tree, x = .transaction tree ∧ Written.Transaction.ofTree tree = u := by
  cases x with
  | transaction tree =>
    cases h
    exact ⟨tree, rfl, rfl⟩
  | commodity c =>
    obtain ⟨_, -, heq⟩ := map_eq_ok.mp h
    nomatch heq
  | defaultCommodity d =>
    obtain ⟨_, -, heq⟩ := map_eq_ok.mp h
    nomatch heq
  | _ => nomatch h

/-- An item is spelled by the tokens within its span. -/
theorem within_mem_spellings {x : Located Tree.Item}
    (hx : x ∈ (Tree.ofTokens (tokenize source).tokens).items) :
    (tokenize source).within x.span ∈ x.value.spellings := by
  obtain ⟨taken, hs, hspan⟩ := exists_segment hx
  obtain ⟨as, bs, hsplit⟩ := List.append_of_mem hs
  have hwithin : (tokenize source).within (spanOf taken) = taken :=
    within_spanOf (tokens_ne_nil_of_mem_segments hs) (eq_of_segments hsplit)
  rw [hspan, hwithin]
  exact mem_spellings_of_mem_segments hs

/-- What the items of a tree are told to say is told by tokens of the source. -/
theorem told_of_ofTree {γ : Type} {Says : List Token → γ → Prop} {f : Written.Item → List γ}
    {w : Written.Journal} {a : γ}
    (htells : ∀ x v, Written.Item.ofTree x = .ok v → Tells Says x.spellings (f v))
    (hw : Written.Journal.ofTree (Tree.ofTokens (tokenize source).tokens).items = .ok w)
    (ha : a ∈ w.items.flatMap fun v => f v.value) : Told Says (tokenize source).tokens a := by
  obtain ⟨v, hv, hmem⟩ := List.mem_flatMap.mp ha
  obtain ⟨x, hx, hitem, -⟩ := exists_of_mem_right (written_ofTree_eq_ok_iff.mp hw) hv
  exact (htells _ _ hitem _ (within_mem_spellings hx) a hmem).sublist List.filter_sublist

/-- The same for what is read of a source. -/
theorem told_of_readWritten {γ : Type} {Says : List Token → γ → Prop} {f : Written.Item → List γ}
    {r : Reading Written.Journal} {a : γ}
    (htells : ∀ x v, Written.Item.ofTree x = .ok v → Tells Says x.spellings (f v))
    (h : readWritten source = .ok r) (ha : a ∈ r.result.items.flatMap fun v => f v.value) :
    Told Says (tokenize source).tokens a := by
  obtain ⟨w, hw, rfl⟩ := map_eq_ok.mp h
  exact told_of_ofTree htells hw ha

/-- **A transaction has a posting for each account on its lines.** -/
theorem outlines_of_mem {x : Located Tree.Item} {u : Written.Transaction} {t : Transaction}
    (hx : x ∈ (Tree.ofTokens (tokenize source).tokens).items)
    (hu : Written.Item.ofTree x.value = .ok (.transaction u))
    (ht : Transaction.ofWritten year u = .ok t) :
    t.postings.map Posting.outline =
      (postingLines ((tokenize source).within x.span)).map PostingLine.outline := by
  obtain ⟨tree, htree, rfl⟩ := exists_transaction hu
  have hspelled := within_mem_spellings hx
  rw [htree] at hspelled
  rw [outlines_of_ofWritten ht]
  refine (outlines_of_spellings hspelled fun t ht => ?_).symm
  exact accountOfTree_of_mem_tokenize (List.mem_of_mem_filter ht)

/-- **Each transaction is there, with a posting for each account that is written in it.** -/
theorem forall₂_transactions {w : Written.Journal} {parts : List Journal}
    (hwritten : List.Forall₂ (fun x v => Written.Item.ofTree x.value = .ok v.value ∧ v.span = x.span)
      (Tree.ofTokens (tokenize source).tokens).items w.items)
    (hparts : List.Forall₂ (fun v part => Journal.ofItem year v.value = .ok part) w.items parts) :
    List.Forall₂ (fun v t =>
        (∃ u, v.value = .transaction u ∧ Transaction.ofWritten year u = .ok t) ∧
          t.postings.map Posting.outline =
            (postingLines ((tokenize source).within v.span)).map PostingLine.outline)
      (w.openedBy .date) (Journal.concat parts).transactions := by
  have hlisted := forall₂_concat lists_transactions rfl (fun _ _ => rfl) hparts
  have hpostings : ∀ v ∈ w.openedBy .date, ∀ t : Transaction,
      (∃ u, v.value = .transaction u ∧ Transaction.ofWritten year u = .ok t) →
        t.postings.map Posting.outline =
          (postingLines ((tokenize source).within v.span)).map PostingLine.outline := by
    rintro v hv t ⟨u, hu, ht⟩
    obtain ⟨x, hx, hsays, hspan⟩ := exists_of_mem_right hwritten (List.mem_of_mem_filter hv)
    rw [hspan]
    exact outlines_of_mem hx (hu ▸ hsays) ht
  exact ((List.forall₂_and_left _ _).mpr ⟨hpostings, hlisted⟩).imp fun v t h => ⟨h.2, h.1 t h.2⟩

/-- **Nothing written is lost or put in another order.** -/
theorem readJournal_keeps (year : Int) {source : String} {r : Reading Journal}
    (h : readJournal year source = .ok r) (hclean : r.parseFaults = []) :
    ∃ w, readWritten source = .ok (r.withResult w) ∧ Keeps year (tokenize source) w r.result := by
  obtain ⟨reading, hreading, hr⟩ := bind_eq_ok.mp h
  obtain ⟨j, hj, rfl⟩ := map_eq_ok.mp hr
  obtain ⟨w, hw, rfl⟩ := map_eq_ok.mp hreading
  obtain ⟨parts, hparts, rfl⟩ := ofWritten_eq_ok_iff.mp hj
  have hwritten := written_ofTree_eq_ok_iff.mp hw
  refine ⟨w, hreading, ?_, ?_, ?_, ?_, ?_, ?_⟩
  · have hopenings := forall₂_openings fun _ => opening_of_mem_segments hclean
    rw [flatMap_tokens_segments] at hopenings
    refine (forall₂_comp_iff.mp ⟨_, hopenings, hwritten⟩).imp ?_
    rintro t v ⟨x, ⟨hkind, hoffset⟩, hv, hspan⟩
    exact ⟨by rw [opener_ofTree hv, hkind], by rw [hspan, hoffset]⟩
  · exact forall₂_transactions hwritten hparts
  · exact forall₂_concat lists_accounts rfl (fun _ _ => rfl) hparts
  · exact forall₂_concat lists_prices rfl (fun _ _ => rfl) hparts
  · exact forall₂_concat lists_commodities rfl (fun _ _ => rfl) hparts
  · exact rel_defaultCommodity hparts

/-- A posting with an amount and a lot price, and a virtual one with an assertion. -/
theorem readJournal_keeps_two_postings :
    ∃ r, readJournal 2024 "1/31 x\n a  1 @ 2\n (b)  = 0\n" = .ok r ∧ r.parseFaults = [] ∧
      r.result.transactions.map (·.postings.map Posting.outline) =
        [[⟨⟨.real, ["a"]⟩, true, true, false⟩, ⟨⟨.virtual, ["b"]⟩, false, false, true⟩]] ∧
      ∃ w, readWritten "1/31 x\n a  1 @ 2\n (b)  = 0\n" = .ok (r.withResult w) ∧
        Keeps 2024 (tokenize "1/31 x\n a  1 @ 2\n (b)  = 0\n") w r.result := by
  have hread : readJournal 2024 "1/31 x\n a  1 @ 2\n (b)  = 0\n" = .ok {
      result := ⟨[{
        date := ⟨2024, 1, 31, by decide⟩
        secondDate := none
        status := .unmarked
        chequeNumber := none
        description := .plain "x"
        postings := [
          ⟨.unmarked, ⟨.real, ["a"]⟩, some ⟨⟨false, 1, 0, by decide, by decide⟩, none⟩,
            some ⟨false, false, ⟨⟨false, 2, 0, by decide, by decide⟩, none⟩⟩, none, []⟩,
          ⟨.unmarked, ⟨.virtual, ["b"]⟩, none, none,
            some ⟨false, false, ⟨⟨false, 0, 0, by decide, by decide⟩, none⟩⟩, []⟩]
        tags := [] }], [], [], [], none⟩
      scanFaults := []
      parseFaults := [] } := by decide +kernel
  exact ⟨_, hread, rfl, rfl, readJournal_keeps 2024 hread rfl⟩

end Daybook
