import Daybook.Proofs.Tree.Spelling
import Mathlib.Data.List.Perm.Basic

/-!
# The tokens of a tree

Every tree keeps the tokens that it was read from, each in one place. Listed place by place they are
those of its spelling, if not always in that order: in an amount the commodity comes before the
number here, wherever it stood.

* `Item.tokens`: the tokens of an item, place by place; one such definition for each type of tree.

Results:
* `Item.rearranges`: **a spelling of an item is a rearrangement of its tokens.**
-/

namespace Daybook.Tree

/-! ## Tokens -/

/-- The name, the colon, the value and the comma of a tag. -/
def Tag.tokens (t : Tag) : List Token := [t.name] ++ [t.colon] ++ t.value.toList ++ t.comma.toList

/-- A text, or the tokens of a tag. -/
def CommentPart.tokens : CommentPart → List Token
  | text t => [t]
  | tag t => t.tokens

/-- The semicolon of a comment and its parts. -/
def Comment.tokens (c : Comment) : List Token := [c.semicolon] ++ c.parts.flatMap CommentPart.tokens

/-- The dash, the commodity and the number of an amount. The commodity comes first here, even where
it is written last. -/
def Amount.tokens (a : Amount) : List Token := a.dash.toList ++ a.commodity.toList ++ [a.number]

/-- The signs of a lot price, between parentheses if it has them, and its amount. -/
def LotPrice.tokens (l : LotPrice) : List Token :=
  let signs := [l.sign] ++ l.second.toList
  match l.parens with
  | none => signs ++ l.amount.tokens
  | some (opening, closing) => [opening] ++ signs ++ [closing] ++ l.amount.tokens

/-- The signs of an assertion, and its amount. -/
def Assertion.tokens (a : Assertion) : List Token :=
  [a.sign] ++ a.second.toList ++ a.asterisk.toList ++ a.amount.tokens

/-- The status and the account of a posting, and what stands behind the account. -/
def Posting.tokens (p : Posting) : List Token :=
  p.status.toList ++ [p.account] ++ p.amount.toList.flatMap Amount.tokens ++
    p.lotPrice.toList.flatMap LotPrice.tokens ++ p.assertion.toList.flatMap Assertion.tokens ++
    p.comment.toList.flatMap Comment.tokens

/-- The indent of a line, its body and its break. -/
def Line.tokens {α : Type} (body : α → List Token) (l : Line α) : List Token :=
  [l.indent] ++ body l.body ++ [l.newline]

/-- The tokens of a posting or of a comment. -/
def Content.tokens : Content → List Token
  | posting p => p.tokens
  | comment c => c.tokens

/-- The sign of a second date, and the date. -/
def SecondDate.tokens (d : SecondDate) : List Token := [d.equals] ++ [d.date]

/-- The bar of a memo, and its text. -/
def Memo.tokens (m : Memo) : List Token := [m.pipe] ++ m.text.toList

/-- The text of a description, and its memo. -/
def Description.tokens (d : Description) : List Token :=
  [d.text] ++ d.memo.toList.flatMap Memo.tokens

/-- The tokens on the first line of a transaction, then those of the lines under it. -/
def Transaction.tokens (t : Transaction) : List Token :=
  [t.date] ++ t.secondDate.toList.flatMap SecondDate.tokens ++ t.status.toList ++
    t.chequeNumber.toList ++ t.description.toList.flatMap Description.tokens ++
    t.comment.toList.flatMap Comment.tokens ++ [t.newline] ++
    t.lines.flatMap (Line.tokens Content.tokens)

/-- The marker of a comment line, its text and its break. -/
def LineComment.tokens (c : LineComment) : List Token := [c.marker] ++ c.text.toList ++ [c.newline]

/-- The tokens on the line of a price. -/
def PriceDirective.tokens (p : PriceDirective) : List Token :=
  [p.keyword] ++ [p.date] ++ [p.commodity] ++ p.amount.tokens ++
    p.comment.toList.flatMap Comment.tokens ++ [p.newline]

/-- The tokens on the line of an account, then those of the comments under it. -/
def AccountDirective.tokens (a : AccountDirective) : List Token :=
  [a.keyword] ++ [a.account] ++ a.comment.toList.flatMap Comment.tokens ++ [a.newline] ++
    a.lines.flatMap (Line.tokens Comment.tokens)

/-- The amount or the name that a commodity is declared with. -/
def Declaration.tokens : Declaration → List Token
  | amount a => a.tokens
  | name token => [token]

/-- The keyword of a format, and its amount. -/
def Format.tokens (f : Format) : List Token := [f.keyword] ++ f.amount.tokens

/-- The tokens of a format or of a comment. -/
def CommodityContent.tokens : CommodityContent → List Token
  | format f => f.tokens
  | comment c => c.tokens

/-- The tokens on the line of a commodity, then those of the lines under it. The break between them
may be missing. -/
def CommodityDirective.tokens (c : CommodityDirective) : List Token :=
  [c.keyword] ++ c.declaration.tokens ++ c.comment.toList.flatMap Comment.tokens ++
    c.newline.toList ++ c.lines.flatMap (Line.tokens CommodityContent.tokens)

/-- The tokens on the line of a default commodity, then those of the comments under it. -/
def DefaultDirective.tokens (d : DefaultDirective) : List Token :=
  [d.keyword] ++ d.amount.tokens ++ d.comment.toList.flatMap Comment.tokens ++ [d.newline] ++
    d.lines.flatMap (Line.tokens Comment.tokens)

/-- The tokens of an item, place by place. -/
def Item.tokens : Item → List Token
  | transaction t => t.tokens
  | lineComment c => c.tokens
  | price p => p.tokens
  | account a => a.tokens
  | commodity c => c.tokens
  | defaultCommodity d => d.tokens

/-! ## Spellings rearrange them -/

/-- Every word is a rearrangement of these tokens. -/
def Rearranges (A : Language Token) (us : List Token) : Prop := ∀ ts ∈ A, ts.Perm us

variable {α : Type} {A B : Language Token} {us vs : List Token} {s : α → Language Token}
  {tokens : α → List Token}

theorem Rearranges.mul (hA : Rearranges A us) (hB : Rearranges B vs) :
    Rearranges (A * B) (us ++ vs) := by
  rintro _ ⟨a, ha, b, hb, rfl⟩
  exact (hA a ha).append (hB b hb)

theorem rearranges_spell (test : Kind → Bool) (t : Token) : Rearranges (spell test t) [t] := by
  rintro _ ⟨rfl, -⟩
  exact .refl _

theorem rearranges_spellOption (h : ∀ a, Rearranges (s a) (tokens a)) :
    ∀ o, Rearranges (spellOption s o) (o.toList.flatMap tokens)
  | none => by
    rintro _ rfl
    exact .refl _
  | some a => by
    rw [Option.toList_some, List.flatMap_singleton]
    exact h a

theorem rearranges_spellToken (test : Kind → Bool) (o : Option Token) :
    Rearranges (spellOption (spell test) o) o.toList := by
  cases o with
  | none =>
    rintro _ rfl
    exact .refl _
  | some t => exact rearranges_spell test t

theorem rearranges_spellList (h : ∀ a, Rearranges (s a) (tokens a)) (as : List α) :
    Rearranges (spellList s as) (as.flatMap tokens) := by
  induction as with
  | nil =>
    rintro _ rfl
    exact .refl _
  | cons a as ih => exact (h a).mul ih

theorem Tag.rearranges (t : Tag) : Rearranges t.spellings t.tokens :=
  (((rearranges_spell _ _).mul (rearranges_spell _ _)).mul (rearranges_spellToken _ _)).mul
    (rearranges_spellToken _ _)

theorem CommentPart.rearranges : ∀ p : CommentPart, Rearranges p.spellings p.tokens
  | text t => show Rearranges (spellKind .inlineText t) [t] from rearranges_spell _ t
  | tag t => t.rearranges

theorem Comment.rearranges (c : Comment) : Rearranges c.spellings c.tokens :=
  (rearranges_spell _ _).mul (rearranges_spellList CommentPart.rearranges _)

theorem Amount.rearranges : ∀ a : Amount, Rearranges a.spellings a.tokens
  | ⟨none, none, n⟩ => show Rearranges (spellKind .number n) [n] from rearranges_spell _ n
  | ⟨none, some c, n⟩ => by
    rintro ts (hfirst | hlast)
    · exact (rearranges_spell _ c).mul (rearranges_spell _ n) ts hfirst
    · exact ((rearranges_spell _ n).mul (rearranges_spell _ c) ts hlast).trans List.perm_append_comm
  | ⟨some _, some _, _⟩ => ((rearranges_spell _ _).mul (rearranges_spell _ _)).mul
    (rearranges_spell _ _)
  | ⟨some _, none, _⟩ => fun _ h => (Language.notMem_zero _ h).elim

theorem LotPrice.rearranges : ∀ l : LotPrice, Rearranges l.spellings l.tokens
  | ⟨none, _, _, a⟩ => ((rearranges_spell _ _).mul (rearranges_spellToken _ _)).mul a.rearranges
  | ⟨some _, _, _, a⟩ => (((rearranges_spell _ _).mul ((rearranges_spell _ _).mul
    (rearranges_spellToken _ _))).mul (rearranges_spell _ _)).mul a.rearranges

theorem Assertion.rearranges (a : Assertion) : Rearranges a.spellings a.tokens :=
  (((rearranges_spell _ _).mul (rearranges_spellToken _ _)).mul (rearranges_spellToken _ _)).mul
    a.amount.rearranges

theorem Posting.rearranges (p : Posting) : Rearranges p.spellings p.tokens :=
  (((((rearranges_spellToken _ _).mul (rearranges_spell _ _)).mul
    (rearranges_spellOption Amount.rearranges _)).mul
    (rearranges_spellOption LotPrice.rearranges _)).mul
    (rearranges_spellOption Assertion.rearranges _)).mul
    (rearranges_spellOption Comment.rearranges _)

theorem Line.rearranges (h : ∀ a, Rearranges (s a) (tokens a)) (l : Line α) :
    Rearranges (l.spellings s) (l.tokens tokens) :=
  ((rearranges_spell _ _).mul (h l.body)).mul (rearranges_spell _ _)

theorem Content.rearranges : ∀ c : Content, Rearranges c.spellings c.tokens
  | posting p => p.rearranges
  | comment c => c.rearranges

theorem SecondDate.rearranges (d : SecondDate) : Rearranges d.spellings d.tokens :=
  (rearranges_spell _ _).mul (rearranges_spell _ _)

theorem Memo.rearranges (m : Memo) : Rearranges m.spellings m.tokens :=
  (rearranges_spell _ _).mul (rearranges_spellToken _ _)

theorem Description.rearranges (d : Description) : Rearranges d.spellings d.tokens :=
  (rearranges_spell _ _).mul (rearranges_spellOption Memo.rearranges _)

theorem Transaction.rearranges (t : Transaction) : Rearranges t.spellings t.tokens :=
  (((((((rearranges_spell _ _).mul (rearranges_spellOption SecondDate.rearranges _)).mul
    (rearranges_spellToken _ _)).mul (rearranges_spellToken _ _)).mul
    (rearranges_spellOption Description.rearranges _)).mul
    (rearranges_spellOption Comment.rearranges _)).mul (rearranges_spell _ _)).mul
    (rearranges_spellList (Line.rearranges Content.rearranges) _)

theorem LineComment.rearranges (c : LineComment) : Rearranges c.spellings c.tokens :=
  ((rearranges_spell _ _).mul (rearranges_spellToken _ _)).mul (rearranges_spell _ _)

theorem PriceDirective.rearranges (p : PriceDirective) : Rearranges p.spellings p.tokens :=
  (((((rearranges_spell _ _).mul (rearranges_spell _ _)).mul (rearranges_spell _ _)).mul
    p.amount.rearranges).mul (rearranges_spellOption Comment.rearranges _)).mul
    (rearranges_spell _ _)

theorem AccountDirective.rearranges (a : AccountDirective) : Rearranges a.spellings a.tokens :=
  ((((rearranges_spell _ _).mul (rearranges_spell _ _)).mul
    (rearranges_spellOption Comment.rearranges _)).mul (rearranges_spell _ _)).mul
    (rearranges_spellList (Line.rearranges Comment.rearranges) _)

theorem Declaration.rearranges : ∀ d : Declaration, Rearranges d.spellings d.tokens
  | amount a => a.rearranges
  | name t => show Rearranges (spellKind .commodity t) [t] from rearranges_spell _ t

theorem Format.rearranges (f : Format) : Rearranges f.spellings f.tokens :=
  (rearranges_spell _ _).mul f.amount.rearranges

theorem CommodityContent.rearranges : ∀ c : CommodityContent, Rearranges c.spellings c.tokens
  | format f => f.rearranges
  | comment c => c.rearranges

theorem CommodityDirective.rearranges (c : CommodityDirective) :
    Rearranges c.spellings c.tokens :=
  ((((rearranges_spell _ _).mul c.declaration.rearranges).mul
    (rearranges_spellOption Comment.rearranges _)).mul (rearranges_spellToken _ _)).mul
    (rearranges_spellList (Line.rearranges CommodityContent.rearranges) _)

theorem DefaultDirective.rearranges (d : DefaultDirective) : Rearranges d.spellings d.tokens :=
  ((((rearranges_spell _ _).mul d.amount.rearranges).mul
    (rearranges_spellOption Comment.rearranges _)).mul (rearranges_spell _ _)).mul
    (rearranges_spellList (Line.rearranges Comment.rearranges) _)

/-- **A spelling of an item is a rearrangement of its tokens.** -/
theorem Item.rearranges : ∀ x : Item, Rearranges x.spellings x.tokens
  | transaction t => t.rearranges
  | lineComment c => c.rearranges
  | price p => p.rearranges
  | account a => a.rearranges
  | commodity c => c.rearranges
  | defaultCommodity d => d.rearranges

end Daybook.Tree
