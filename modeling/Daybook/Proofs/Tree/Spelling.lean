import Daybook.Tree.Basic
import Mathlib.Computability.Language

/-!
# How a tree is spelled

The token lists that a tree can be read from: every token of the tree in its place and of a kind
that may stand there. All trees but amounts have one order; an amount with a commodity and no dash
has two. These are sets of token lists, put together with the operations of languages, and no parser
occurs in them.

* `spell test t`: the token by itself, if its kind passes the test.
* `spellOption s`, `spellList s`: what may be missing, and what may be there several times.
* `Item.spellings`: the token lists of an item; one such definition for each type of tree.
-/

namespace Daybook.Tree

/-- The token by itself, if its kind passes the test. -/
def spell (test : Kind → Bool) (t : Token) : Language Token := {ts | ts = [t] ∧ test t.kind}

/-- The token by itself, if it is of this kind. -/
def spellKind (kind : Kind) : Token → Language Token := spell (· = kind)

/-- Something that may be missing. -/
def spellOption {α : Type} (s : α → Language Token) : Option α → Language Token
  | none => 1
  | some a => s a

/-- Some things in order. -/
def spellList {α : Type} (s : α → Language Token) (as : List α) : Language Token := (as.map s).prod

/-- `*` or `!` -/
def spellStatus : Token → Language Token :=
  spell fun kind => kind = .asterisk || kind = .exclamation

/-- A name and a colon, then a value and a comma if they are there. -/
def Tag.spellings (t : Tag) : Language Token :=
  spellKind .tagName t.name * spellKind .tagColon t.colon *
    spellOption (spellKind .tagValue) t.value * spellOption (spellKind .tagComma) t.comma

/-- A text or a tag. -/
def CommentPart.spellings : CommentPart → Language Token
  | text t => spellKind .inlineText t
  | tag t => t.spellings

/-- A semicolon, then texts and tags. -/
def Comment.spellings (c : Comment) : Language Token :=
  spellKind .semicolon c.semicolon * spellList CommentPart.spellings c.parts

/-- The commodity stands in front of the number or behind it; with a dash it stands in front. -/
def Amount.spellings (a : Amount) : Language Token :=
  let number := spellKind .number a.number
  match a.dash, a.commodity with
  | none, none => number
  | none, some c => spellKind .commodity c * number + number * spellKind .commodity c
  | some d, some c => spellKind .dash d * spellKind .commodity c * number
  | some _, none => 0

/-- The signs of a lot price, in parentheses or not. -/
def spellLotSigns (parens : Option (Token × Token)) (sign : Token) (second : Option Token) :
    Language Token :=
  let signs := spellKind .atSign sign * spellOption (spellKind .atSign) second
  match parens with
  | none => signs
  | some (opening, closing) =>
    spellKind .openParen opening * signs * spellKind .closeParen closing

/-- One sign or two, and an amount. -/
def LotPrice.spellings (l : LotPrice) : Language Token :=
  spellLotSigns l.parens l.sign l.second * l.amount.spellings

/-- One sign or two, an asterisk if it counts for subaccounts, and an amount. -/
def Assertion.spellings (a : Assertion) : Language Token :=
  spellKind .equals a.sign * spellOption (spellKind .equals) a.second *
    spellOption (spellKind .asterisk) a.asterisk * a.amount.spellings

/-- An account. A status may stand in front of it; an amount, a lot price, an assertion and a
comment may stand behind it, in this order. -/
def Posting.spellings (p : Posting) : Language Token :=
  spellOption spellStatus p.status * spell Kind.isAccount p.account *
    spellOption Amount.spellings p.amount * spellOption LotPrice.spellings p.lotPrice *
    spellOption Assertion.spellings p.assertion * spellOption Comment.spellings p.comment

/-- An indent, a body and a line break. -/
def Line.spellings {α : Type} (s : α → Language Token) (l : Line α) : Language Token :=
  spellKind .indent l.indent * s l.body * spellKind .newline l.newline

/-- A posting or a comment. -/
def Content.spellings : Content → Language Token
  | posting p => p.spellings
  | comment c => c.spellings

/-- A sign and a date. -/
def SecondDate.spellings (d : SecondDate) : Language Token :=
  spellKind .equals d.equals * spellKind .date d.date

/-- A bar, and a text if one stands behind it. -/
def Memo.spellings (m : Memo) : Language Token :=
  spellKind .pipe m.pipe * spellOption (spellKind .text) m.text

/-- A text, and a memo behind it if there is one. -/
def Description.spellings (d : Description) : Language Token :=
  spellKind .text d.text * spellOption Memo.spellings d.memo

/-- A date, the other parts of the first line in their order, and the lines under it. -/
def Transaction.spellings (t : Transaction) : Language Token :=
  spellKind .date t.date * spellOption SecondDate.spellings t.secondDate *
    spellOption spellStatus t.status * spellOption (spellKind .chequeNumber) t.chequeNumber *
    spellOption Description.spellings t.description * spellOption Comment.spellings t.comment *
    spellKind .newline t.newline * spellList (Line.spellings Content.spellings) t.lines

/-- A marker, a text if there is one, and a line break. -/
def LineComment.spellings (c : LineComment) : Language Token :=
  spellKind .commentMarker c.marker * spellOption (spellKind .commentText) c.text *
    spellKind .newline c.newline

/-- A keyword, a date, a commodity and its price, all on one line. -/
def PriceDirective.spellings (p : PriceDirective) : Language Token :=
  spellKind .priceKeyword p.keyword * spellKind .date p.date * spellKind .commodity p.commodity *
    p.amount.spellings * spellOption Comment.spellings p.comment * spellKind .newline p.newline

/-- A keyword and an account, then comments on lines of their own. -/
def AccountDirective.spellings (a : AccountDirective) : Language Token :=
  spellKind .accountKeyword a.keyword * spellKind .realAccount a.account *
    spellOption Comment.spellings a.comment * spellKind .newline a.newline *
    spellList (Line.spellings Comment.spellings) a.lines

/-- An amount or a name. -/
def Declaration.spellings : Declaration → Language Token
  | amount a => a.spellings
  | name token => spellKind .commodity token

/-- A keyword and an amount. -/
def Format.spellings (f : Format) : Language Token :=
  spellKind .formatKeyword f.keyword * f.amount.spellings

/-- A format or a comment. -/
def CommodityContent.spellings : CommodityContent → Language Token
  | format f => f.spellings
  | comment c => c.spellings

/-- A keyword and a declaration, then formats and comments on lines of their own. Of all items only
this one may lack the break of its first line. -/
def CommodityDirective.spellings (c : CommodityDirective) : Language Token :=
  spellKind .commodityKeyword c.keyword * c.declaration.spellings *
    spellOption Comment.spellings c.comment * spellOption (spellKind .newline) c.newline *
    spellList (Line.spellings CommodityContent.spellings) c.lines

/-- A keyword and an amount, then comments on lines of their own. -/
def DefaultDirective.spellings (d : DefaultDirective) : Language Token :=
  spellKind .defaultKeyword d.keyword * d.amount.spellings *
    spellOption Comment.spellings d.comment * spellKind .newline d.newline *
    spellList (Line.spellings Comment.spellings) d.lines

/-- The token lists that an item can be read from. -/
def Item.spellings : Item → Language Token
  | transaction t => t.spellings
  | lineComment c => c.spellings
  | price p => p.spellings
  | account a => a.spellings
  | commodity c => c.spellings
  | defaultCommodity d => d.spellings

/-- The kind of the token that an item starts with. -/
def Item.opener : Item → Kind
  | transaction _ => .date
  | lineComment _ => .commentMarker
  | price _ => .priceKeyword
  | account _ => .accountKeyword
  | commodity _ => .commodityKeyword
  | defaultCommodity _ => .defaultKeyword

theorem opensItem_opener (x : Item) : x.opener.opensItem := by cases x <;> rfl

/-- A line break behind the item would belong to it: only a commodity may lack its own, and only as
long as no lines stand under it. -/
def Item.Open : Item → Prop
  | commodity c => c.newline = none ∧ c.lines = []
  | _ => False

variable {test : Kind → Bool} {t : Token} {ts : List Token}

theorem mem_spell : ts ∈ spell test t ↔ ts = [t] ∧ test t.kind := Iff.rfl

theorem mem_spellKind {kind : Kind} : ts ∈ spellKind kind t ↔ ts = [t] ∧ t.kind = kind := by
  rw [spellKind, mem_spell, decide_eq_true_eq]

end Daybook.Tree
