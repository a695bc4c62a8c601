import Daybook.Proofs.Written.Stages
import Daybook.Proofs.Written.Tells
import Daybook.Written.OfTree

/-!
# Amounts as they are written

An amount can stand in a posting, a price or a declaration. Wherever it stands, it is said by tokens
that spell an amount, in the order in which they stand in the source. About `lower_amount` and the
rules that hold an amount.

* `Item.amounts`: the amounts of a written item, in order; one such definition for each type of
  item.
* `SaysAmount us a`: the tokens spell an amount that says `a`.

Results:
* `tells_item`: **the tokens that spell an item tell its amounts.**
-/

namespace Daybook

open Daybook.Tree

/-! ## The amounts of an item -/

namespace Written

/-- The amounts of a posting, in order. -/
def Posting.amounts (p : Posting) : List Amount :=
  p.amount.toList ++ p.lotPrice.toList.map (·.amount) ++ p.assertion.toList.map (·.amount)

/-- The amounts on a line under a transaction. -/
def Content.amounts : Content → List Amount
  | posting p => p.amounts
  | comment _ => []

/-- The amount of a declaration, if it has one. -/
def Declaration.amounts : Declaration → List Amount
  | name _ => []
  | amount shown => [shown.toAmount]

/-- The amount of a format. -/
def CommodityContent.amounts : CommodityContent → List Amount
  | format shown => [shown.toAmount]
  | comment _ => []

/-- The amount of the declaration, then those of the formats under it. -/
def CommodityDirective.amounts (c : CommodityDirective) : List Amount :=
  c.declaration.amounts ++ c.lines.flatMap CommodityContent.amounts

/-- The amounts of an item, in order. -/
def Item.amounts : Item → List Amount
  | transaction t => t.lines.flatMap Content.amounts
  | lineComment _ => []
  | price p => [p.amount]
  | account _ => []
  | commodity c => c.amounts
  | defaultCommodity d => [d.amount.toAmount]

/-- The amounts of a journal, in order. -/
def Journal.amounts (w : Journal) : List Amount := w.items.flatMap (·.value.amounts)

end Written

/-! ## Trees -/

/-- The tokens spell an amount that says this. -/
def SaysAmount (us : List Token) (a : Written.Amount) : Prop :=
  ∃ tree : Tree.Amount, us ∈ tree.spellings ∧ Written.Amount.ofTree tree = a

theorem tells_amount (tree : Tree.Amount) : Tells SaysAmount tree.spellings [.ofTree tree] :=
  tells_singleton fun _ hus => ⟨tree, hus, rfl⟩

theorem tells_named {tree : Tree.Amount} {shown : Written.NamedAmount}
    (h : Written.NamedAmount.ofTree tree = .ok shown) :
    Tells SaysAmount tree.spellings [shown.toAmount] := by
  unfold Written.NamedAmount.ofTree at h
  split at h
  · next named hnamed =>
    cases h
    rw [Written.Amount.named?_toAmount hnamed]
    exact tells_amount tree
  · cases h

theorem tells_lotPrice (l : Tree.LotPrice) : Tells SaysAmount l.spellings [.ofTree l.amount] :=
  (tells_amount l.amount).right

theorem tells_assertion (a : Tree.Assertion) : Tells SaysAmount a.spellings [.ofTree a.amount] :=
  (tells_amount a.amount).right

theorem tells_posting (p : Tree.Posting) :
    Tells SaysAmount p.spellings (Written.Posting.ofTree p).amounts := by
  have hamounts : (Written.Posting.ofTree p).amounts =
      p.amount.toList.flatMap (fun a => [Written.Amount.ofTree a]) ++
        p.lotPrice.toList.flatMap (fun l => [Written.Amount.ofTree l.amount]) ++
        p.assertion.toList.flatMap (fun a => [Written.Amount.ofTree a.amount]) := by
    unfold Written.Posting.amounts Written.Posting.ofTree
    cases p.amount <;> cases p.lotPrice <;> cases p.assertion <;> rfl
  rw [hamounts]
  exact (((tells_option tells_amount p.amount).right.mul
    (tells_option tells_lotPrice p.lotPrice)).mul
      (tells_option tells_assertion p.assertion)).left

theorem tells_content (c : Tree.Content) :
    Tells SaysAmount c.spellings (Written.Content.ofTree c).amounts := by
  cases c with
  | posting p => exact tells_posting p
  | comment c => exact tells_nil _

theorem tells_declaration {d : Tree.Declaration} {e : Written.Declaration}
    (h : Written.Declaration.ofTree d = .ok e) : Tells SaysAmount d.spellings e.amounts := by
  cases d with
  | amount tree =>
    obtain ⟨shown, hshown, rfl⟩ := map_eq_ok.mp h
    exact tells_named hshown
  | name t =>
    cases h
    exact tells_nil _

theorem tells_commodityContent {c : Tree.CommodityContent} {d : Written.CommodityContent}
    (h : Written.CommodityContent.ofTree c = .ok d) : Tells SaysAmount c.spellings d.amounts := by
  cases c with
  | format f =>
    obtain ⟨shown, hshown, rfl⟩ := map_eq_ok.mp h
    exact (tells_named hshown).right
  | comment c =>
    cases h
    exact tells_nil _

theorem tells_transaction (t : Tree.Transaction) :
    Tells SaysAmount t.spellings (Written.Item.transaction (.ofTree t)).amounts :=
  (tells_map (fun line => tells_line (tells_content line.body)) t.lines).right

theorem tells_commodity {c : Tree.CommodityDirective} {d : Written.CommodityDirective}
    (h : Written.CommodityDirective.ofTree c = .ok d) : Tells SaysAmount c.spellings d.amounts := by
  obtain ⟨declaration, hdeclaration, hmore⟩ := bind_eq_ok.mp h
  obtain ⟨lines, hlines, hd⟩ := bind_eq_ok.mp hmore
  obtain rfl := Except.ok.inj hd
  have hcontents : Tells SaysAmount
      (spellList (Line.spellings CommodityContent.spellings) c.lines)
      (lines.flatMap Written.CommodityContent.amounts) :=
    tells_list (fun _ _ hline => tells_line (tells_commodityContent hline))
      (mapM_eq_ok_iff.mp hlines)
  exact (tells_declaration hdeclaration).right.left.left.mul hcontents

/-- **The tokens that spell an item tell its amounts.** -/
theorem tells_item {x : Tree.Item} {v : Written.Item} (h : Written.Item.ofTree x = .ok v) :
    Tells SaysAmount x.spellings v.amounts := by
  cases x with
  | transaction t =>
    cases h
    exact tells_transaction t
  | lineComment c =>
    cases h
    exact tells_nil _
  | price p =>
    cases h
    exact (tells_amount p.amount).right.left.left
  | account a =>
    cases h
    exact tells_nil _
  | commodity c =>
    obtain ⟨d, hd, rfl⟩ := map_eq_ok.mp h
    exact tells_commodity hd
  | defaultCommodity d =>
    obtain ⟨e, he, rfl⟩ := map_eq_ok.mp h
    obtain ⟨shown, hshown, hd⟩ := bind_eq_ok.mp he
    obtain rfl := Except.ok.inj hd
    exact (tells_named hshown).right.left.left.left

end Daybook
