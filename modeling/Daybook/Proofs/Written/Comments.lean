import Daybook.Proofs.Written.Stages
import Daybook.Proofs.Written.Tells
import Daybook.Written.OfTree

/-!
# Comments as they are written

A comment can stand behind every item that fits on a line, behind a posting and on a line by itself.
Wherever it stands, it is said by tokens that spell a comment, and each of its tags by tokens that
spell a tag. About `lower_inline_comment` and the rules that hold a comment.

* `Item.comments`: the comments of a written item, in order; one such definition for each type of
  item that has several.
* `SaysComment us c`, `SaysTag us t`: the tokens spell a comment, or a tag, that says this.

Results:
* `tells_comments`: **the tokens that spell an item tell its comments.**
* `tells_tags`: the tokens that spell a comment tell its tags.
-/

namespace Daybook

open Daybook.Tree

/-! ## The comments of an item -/

namespace Written

/-- The comments on a line under a transaction. -/
def Content.comments : Content → List Comment
  | posting p => p.comment.toList
  | comment c => [c]

/-- The comment on a line under a commodity. -/
def CommodityContent.comments : CommodityContent → List Comment
  | format _ => []
  | comment c => [c]

/-- The comments of an item, in order. -/
def Item.comments : Item → List Comment
  | transaction t => t.comment.toList ++ t.lines.flatMap Content.comments
  | lineComment _ => []
  | price p => p.comment.toList
  | account a => a.comment.toList ++ a.lines
  | commodity c => c.comment.toList ++ c.lines.flatMap CommodityContent.comments
  | defaultCommodity d => d.comment.toList ++ d.lines

/-- The comments of a journal, in order. -/
def Journal.comments (w : Journal) : List Comment := w.items.flatMap (·.value.comments)

/-- The tag that a tree says. -/
def tagOfTree (t : Tree.Tag) : Tag := ⟨t.name.image, t.value.map (·.image)⟩

end Written

/-! ## Trees -/

/-- The tokens spell a comment that says this. -/
def SaysComment (us : List Token) (c : Written.Comment) : Prop :=
  ∃ tree : Tree.Comment, us ∈ tree.spellings ∧ Written.Comment.ofTree tree = c

/-- The tokens spell a tag that says this. -/
def SaysTag (us : List Token) (t : Tag) : Prop :=
  ∃ tree : Tree.Tag, us ∈ tree.spellings ∧ Written.tagOfTree tree = t

theorem tells_comment (c : Tree.Comment) : Tells SaysComment c.spellings [.ofTree c] :=
  tells_singleton fun _ hus => ⟨c, hus, rfl⟩

/-- A comment that may be missing. -/
theorem tells_comment? (o : Option Tree.Comment) :
    Tells SaysComment (spellOption Comment.spellings o) (o.map Written.Comment.ofTree).toList := by
  cases o with
  | none => exact tells_nil _
  | some c => exact tells_comment c

/-- Comments on lines by themselves. -/
theorem tells_commentLines (lines : List (Line Tree.Comment)) :
    Tells SaysComment (spellList (Line.spellings Comment.spellings) lines)
      (Written.commentsOfTree lines) := by
  induction lines with
  | nil => exact tells_nil _
  | cons line lines ih => exact (tells_line (tells_comment line.body)).mul ih

theorem tells_contentComments (c : Tree.Content) :
    Tells SaysComment c.spellings (Written.Content.ofTree c).comments := by
  cases c with
  | posting p => exact (tells_comment? p.comment).right
  | comment c => exact tells_comment c

theorem tells_commodityComments {c : Tree.CommodityContent} {d : Written.CommodityContent}
    (h : Written.CommodityContent.ofTree c = .ok d) :
    Tells SaysComment c.spellings d.comments := by
  cases c with
  | format f =>
    obtain ⟨shown, -, rfl⟩ := map_eq_ok.mp h
    exact tells_nil _
  | comment c =>
    cases h
    exact tells_comment c

theorem tells_transactionComments (t : Tree.Transaction) :
    Tells SaysComment t.spellings (Written.Item.transaction (.ofTree t)).comments := by
  have hlines := tells_map (fun line => tells_line (tells_contentComments line.body)) t.lines
  exact (tells_comment? t.comment).right.left.mul hlines

/-- **The tokens that spell an item tell its comments.** -/
theorem tells_comments {x : Tree.Item} {v : Written.Item} (h : Written.Item.ofTree x = .ok v) :
    Tells SaysComment x.spellings v.comments := by
  cases x with
  | transaction t =>
    cases h
    exact tells_transactionComments t
  | lineComment c =>
    cases h
    exact tells_nil _
  | price p =>
    cases h
    exact (tells_comment? p.comment).right.left
  | account a =>
    cases h
    exact (tells_comment? a.comment).right.left.mul (tells_commentLines a.lines)
  | commodity c =>
    obtain ⟨d, hd, rfl⟩ := map_eq_ok.mp h
    obtain ⟨declaration, -, hmore⟩ := bind_eq_ok.mp hd
    obtain ⟨lines, hlines, heq⟩ := bind_eq_ok.mp hmore
    obtain rfl := Except.ok.inj heq
    exact (tells_comment? c.comment).right.left.mul (tells_list
      (fun _ _ hline => tells_line (tells_commodityComments hline)) (mapM_eq_ok_iff.mp hlines))
  | defaultCommodity d =>
    obtain ⟨e, he, rfl⟩ := map_eq_ok.mp h
    obtain ⟨shown, -, heq⟩ := bind_eq_ok.mp he
    obtain rfl := Except.ok.inj heq
    exact (tells_comment? d.comment).right.left.mul (tells_commentLines d.lines)

/-! ## Tags -/

/-- **The tokens that spell a comment tell its tags.** -/
theorem tells_tags (c : Tree.Comment) :
    Tells SaysTag c.spellings (Written.Comment.ofTree c).tags := by
  have hparts : Tells SaysTag (spellList CommentPart.spellings c.parts)
      (Written.Comment.ofTree c).tags := by
    unfold Written.Comment.ofTree Written.Comment.tags
    induction c.parts with
    | nil => exact tells_nil _
    | cons part parts ih =>
      cases part with
      | text t => exact ih.right
      | tag t =>
        have htag : Tells SaysTag (CommentPart.tag t).spellings [Written.tagOfTree t] :=
          tells_singleton fun _ hus => ⟨t, hus, rfl⟩
        exact htag.mul ih
  exact hparts.right

/-- What tells a comment tells its tags. -/
theorem Told.tag {ts : List Token} {c : Written.Comment} {t : Tag} (h : Told SaysComment ts c)
    (ht : t ∈ c.tags) : Told SaysTag ts t := by
  obtain ⟨us, hsub, tree, hus, rfl⟩ := h
  exact (tells_tags tree us hus t ht).sublist hsub

end Daybook
