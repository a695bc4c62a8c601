import Daybook.Tree.Segment
import Mathlib.Data.List.Basic

/-!
# The grammar looks at kinds only

If every token of a list is replaced by one of the same kind, the same rules read the same tokens:
the tree is the old one with its tokens replaced, and so are the failures. This holds of every
parser of the grammar, and of the cut into segments.

* `OnTokens`: things in which tokens can be replaced.
* `Follows g p q`: on replaced tokens `q` answers what `p` answered, with its tokens replaced.

Results:
* `follows_item`, `follows_brokenRest`: **the rules look at kinds only.**
* `segments_onTokens`: so does the cut into segments.
* `values_items_onTokens`, `failures_onTokens`: what is read and reported are the old trees and
  failures, with their tokens replaced.
-/

namespace Daybook.Tree

/-- Something in which tokens can be replaced. -/
class OnTokens (α : Type) where
  /-- Replace every token. -/
  onTokens : (Token → Token) → α → α

export OnTokens (onTokens)

section Instances

variable {α β : Type} [OnTokens α] [OnTokens β]

instance : OnTokens Token := ⟨fun g t => g t⟩

instance : OnTokens Unit := ⟨fun _ u => u⟩

instance : OnTokens (Option α) := ⟨fun g => Option.map (onTokens g)⟩

instance : OnTokens (List α) := ⟨fun g => List.map (onTokens g)⟩

instance : OnTokens (α × β) := ⟨fun g x => (onTokens g x.1, onTokens g x.2)⟩

instance : OnTokens Tag :=
  ⟨fun g t => ⟨g t.name, g t.colon, onTokens g t.value, onTokens g t.comma⟩⟩

instance : OnTokens CommentPart where
  onTokens g
    | .text token => .text (g token)
    | .tag tag => .tag (onTokens g tag)

instance : OnTokens Comment := ⟨fun g c => ⟨g c.semicolon, onTokens g c.parts⟩⟩

instance : OnTokens Amount :=
  ⟨fun g a => ⟨onTokens g a.dash, onTokens g a.commodity, g a.number⟩⟩

instance : OnTokens LotPrice :=
  ⟨fun g l => ⟨onTokens g l.parens, g l.sign, onTokens g l.second, onTokens g l.amount⟩⟩

instance : OnTokens Assertion :=
  ⟨fun g a => ⟨g a.sign, onTokens g a.second, onTokens g a.asterisk, onTokens g a.amount⟩⟩

instance : OnTokens Posting where
  onTokens g p := {
    status := onTokens g p.status
    account := g p.account
    amount := onTokens g p.amount
    lotPrice := onTokens g p.lotPrice
    assertion := onTokens g p.assertion
    comment := onTokens g p.comment }

instance : OnTokens (Line α) := ⟨fun g l => ⟨g l.indent, onTokens g l.body, g l.newline⟩⟩

instance : OnTokens Content where
  onTokens g
    | .posting p => .posting (onTokens g p)
    | .comment c => .comment (onTokens g c)

instance : OnTokens SecondDate := ⟨fun g d => ⟨g d.equals, g d.date⟩⟩

instance : OnTokens Memo := ⟨fun g m => ⟨g m.pipe, onTokens g m.text⟩⟩

instance : OnTokens Description := ⟨fun g d => ⟨g d.text, onTokens g d.memo⟩⟩

instance : OnTokens Transaction where
  onTokens g t := {
    date := g t.date
    secondDate := onTokens g t.secondDate
    status := onTokens g t.status
    chequeNumber := onTokens g t.chequeNumber
    description := onTokens g t.description
    comment := onTokens g t.comment
    newline := g t.newline
    lines := onTokens g t.lines }

instance : OnTokens LineComment := ⟨fun g c => ⟨g c.marker, onTokens g c.text, g c.newline⟩⟩

instance : OnTokens PriceDirective where
  onTokens g p := {
    keyword := g p.keyword
    date := g p.date
    commodity := g p.commodity
    amount := onTokens g p.amount
    comment := onTokens g p.comment
    newline := g p.newline }

instance : OnTokens AccountDirective where
  onTokens g a := {
    keyword := g a.keyword
    account := g a.account
    comment := onTokens g a.comment
    newline := g a.newline
    lines := onTokens g a.lines }

instance : OnTokens Declaration where
  onTokens g
    | .amount a => .amount (onTokens g a)
    | .name token => .name (g token)

instance : OnTokens Format := ⟨fun g f => ⟨g f.keyword, onTokens g f.amount⟩⟩

instance : OnTokens CommodityContent where
  onTokens g
    | .format f => .format (onTokens g f)
    | .comment c => .comment (onTokens g c)

instance : OnTokens CommodityDirective where
  onTokens g c := {
    keyword := g c.keyword
    declaration := onTokens g c.declaration
    comment := onTokens g c.comment
    newline := onTokens g c.newline
    lines := onTokens g c.lines }

instance : OnTokens DefaultDirective where
  onTokens g d := {
    keyword := g d.keyword
    amount := onTokens g d.amount
    comment := onTokens g d.comment
    newline := g d.newline
    lines := onTokens g d.lines }

instance : OnTokens Item where
  onTokens g
    | .transaction t => .transaction (onTokens g t)
    | .lineComment c => .lineComment (onTokens g c)
    | .price p => .price (onTokens g p)
    | .account a => .account (onTokens g a)
    | .commodity c => .commodity (onTokens g c)
    | .defaultCommodity d => .defaultCommodity (onTokens g d)

instance : OnTokens Failure := ⟨fun g f => ⟨onTokens g f.rest, f.refusal⟩⟩

instance : OnTokens (Reply α) := ⟨fun g r => ⟨onTokens g r.result, onTokens g r.failures⟩⟩

instance : OnTokens Segment where
  onTokens g
    | .blank newline => .blank (g newline)
    | .item x taken => .item (onTokens g x) (onTokens g taken)
    | .broken taken failure => .broken (onTokens g taken) (onTokens g failure)

end Instances

/-! ## Parsers -/

namespace Parser

variable {α β : Type} [OnTokens α] [OnTokens β] {g : Token → Token}

/-- On replaced tokens the second parser answers what the first one answered. -/
def Follows (g : Token → Token) (p q : Parser α) : Prop :=
  ∀ ts, q (onTokens g ts) = onTokens g (p ts)

theorem follows_pure (a : α) : Follows g (pure a) (pure (onTokens g a)) := fun _ => rfl

theorem Follows.bind {p q : Parser α} {f h : α → Parser β} (hpq : Follows g p q)
    (hfh : ∀ a, Follows g (f a) (h (onTokens g a))) : Follows g (p >>= f) (q >>= h) := by
  intro ts
  change andThen q h _ = onTokens g (andThen p f ts)
  unfold andThen
  rw [hpq ts]
  cases hp : (p ts).result with
  | none => simp only [onTokens, hp, Option.map_none]
  | some reply =>
    obtain ⟨a, rest⟩ := reply
    have hrest := hfh a rest
    simp only [onTokens, hp, Option.map_some] at hrest ⊢
    rw [hrest]
    simp only [List.map_append]

theorem Follows.map {p q : Parser α} {f : α → β} (hpq : Follows g p q)
    (hf : ∀ a, f (onTokens g a) = onTokens g (f a)) : Follows g (f <$> p) (f <$> q) := by
  refine hpq.bind fun a => ?_
  show Follows g (pure (f a)) (pure (f (onTokens g a)))
  rw [hf a]
  exact follows_pure (f a)

theorem follows_satisfy (hg : ∀ t, (g t).kind = t.kind) (test : Kind → Bool) :
    Follows g (satisfy test) (satisfy test) := by
  intro ts
  cases ts with
  | nil => rfl
  | cons t ts =>
    simp only [onTokens, List.map_cons, satisfy, hg]
    cases test t.kind <;> rfl

theorem Follows.orElse {p q p' q' : Parser α} (hp : Follows g p p') (hq : Follows g q q') :
    Follows g (orElse p q) (orElse p' q') := by
  intro ts
  simp only [Parser.orElse, hp ts, hq ts]
  cases h : (p ts).result with
  | none => simp only [onTokens, h, Option.map_none, List.map_append]
  | some reply => simp only [onTokens, h, Option.map_some]

theorem Follows.maybe {p q : Parser α} (h : Follows g p q) : Follows g (maybe p) (maybe q) := by
  have hsome : Follows g (some <$> p) (some <$> q) := h.map fun _ => rfl
  exact hsome.orElse (follows_pure none)

theorem Follows.refuse {p q : Parser α} (h : Follows g p q) (cause : Refusal) :
    Follows g (refuse p cause : Parser β) (refuse q cause) := by
  intro ts
  simp only [Parser.refuse, h ts]
  cases hp : (p ts).result with
  | none => simp only [onTokens, hp, Option.map_none]
  | some reply =>
    simp only [onTokens, hp, Option.map_some, List.map_append, Option.map_none, List.map_cons,
      List.map_nil]

theorem Follows.many {p q : Parser α} (h : Follows g p q) : Follows g (many p) (many q) := by
  intro ts
  show repeatOn q (onTokens g ts) = onTokens g (repeatOn p ts)
  fun_induction repeatOn p ts with
  | case1 ts hp =>
    rw [repeatOn, h ts]
    simp only [onTokens, hp, Option.map_none, Option.map_some, List.map_nil]
  | case2 =>
    rename_i ts a mid hp hlt more ih
    have hlen : (mid.map g).length < (ts.map g).length := by
      rwa [List.length_map, List.length_map]
    simp only [onTokens] at ih
    rw [repeatOn, h ts]
    simp only [onTokens, hp, Option.map_some, hlen, if_true, ih]
    simp only [List.map_append, Option.map_map, Reply.mk.injEq]
    exact ⟨rfl, rfl⟩
  | case3 ts a mid hp hlt =>
    have hlen : ¬ (mid.map g).length < (ts.map g).length := by
      rwa [List.length_map, List.length_map]
    rw [repeatOn, h ts]
    simp only [onTokens, hp, Option.map_some, hlen, if_false, List.map_cons, List.map_nil]

end Parser

/-! ## The rules -/

namespace Grammar

open Daybook.Tree.Parser

variable {g : Token → Token}

section Rules

variable (hg : ∀ t, (g t).kind = t.kind)

include hg

theorem follows_token (kind : Kind) : Follows g (token kind) (token kind) := follows_satisfy hg _

theorem follows_tag : Follows g tag tag :=
  (follows_token hg _).bind fun _ => (follows_token hg _).bind fun _ =>
    (follows_token hg _).maybe.bind fun _ => (follows_token hg _).maybe.bind fun _ => follows_pure _

theorem follows_comment : Follows g comment comment := by
  have htag : Follows g (CommentPart.tag <$> tag) (.tag <$> tag) :=
    (follows_tag hg).map fun _ => rfl
  have htext : Follows g (CommentPart.text <$> token .inlineText) (.text <$> token .inlineText) :=
    (follows_token hg _).map fun _ => rfl
  exact (follows_token hg _).bind fun _ => (htag.orElse htext).many.bind fun _ => follows_pure _

theorem follows_amount : Follows g amount amount := by
  have hcommodity : Follows g commodityFirst commodityFirst :=
    (follows_token hg _).maybe.bind fun _ => (follows_token hg _).bind fun _ =>
      (follows_token hg _).bind fun _ => follows_pure _
  have hnumber : Follows g numberFirst numberFirst :=
    (follows_token hg _).bind fun _ => (follows_token hg _).maybe.bind fun _ => follows_pure _
  exact hcommodity.orElse hnumber

theorem follows_lotSigns : Follows g lotSigns lotSigns :=
  (follows_token hg _).bind fun _ => (follows_token hg _).maybe.bind fun _ => follows_pure _

theorem follows_lotPrice : Follows g lotPrice lotPrice := by
  have hvirtual : Follows g virtualLotSigns virtualLotSigns :=
    (follows_token hg _).bind fun _ => (follows_lotSigns hg).bind fun _ =>
      (follows_token hg _).bind fun _ => follows_pure _
  have hplain : Follows g ((none, ·) <$> lotSigns : Parser (Option (Token × Token) × _))
      ((none, ·) <$> lotSigns) := (follows_lotSigns hg).map fun _ => rfl
  exact (hvirtual.orElse hplain).bind fun _ => (follows_amount hg).bind fun _ => follows_pure _

theorem follows_assertion : Follows g assertion assertion :=
  (follows_token hg _).bind fun _ => (follows_token hg _).maybe.bind fun _ =>
    (follows_token hg _).maybe.bind fun _ => (follows_amount hg).bind fun _ => follows_pure _

theorem follows_posting : Follows g posting posting :=
  (follows_satisfy hg _).maybe.bind fun _ => (follows_satisfy hg _).bind fun _ =>
    (follows_amount hg).maybe.bind fun _ => (follows_lotPrice hg).maybe.bind fun _ =>
      (follows_assertion hg).maybe.bind fun _ => (follows_comment hg).maybe.bind fun _ =>
        follows_pure _

theorem follows_line {α : Type} [OnTokens α] {body : Parser α} (h : Follows g body body) :
    Follows g (line body) (line body) :=
  (follows_token hg _).bind fun _ => h.bind fun _ => (follows_token hg _).bind fun _ =>
    follows_pure _

theorem follows_content : Follows g content content := by
  have hposting : Follows g (Content.posting <$> posting) (.posting <$> posting) :=
    (follows_posting hg).map fun _ => rfl
  have hcomment : Follows g (Content.comment <$> comment) (.comment <$> comment) :=
    (follows_comment hg).map fun _ => rfl
  exact hposting.orElse hcomment

theorem follows_transaction : Follows g transaction transaction := by
  have hsecond : Follows g secondDate secondDate :=
    (follows_token hg _).bind fun _ => (follows_token hg _).bind fun _ => follows_pure _
  have hmemo : Follows g memo memo :=
    (follows_token hg _).bind fun _ => (follows_token hg _).maybe.bind fun _ => follows_pure _
  have hdescription : Follows g description description :=
    (follows_token hg _).bind fun _ => hmemo.maybe.bind fun _ => follows_pure _
  exact (follows_token hg _).bind fun _ => hsecond.maybe.bind fun _ =>
    (follows_satisfy hg _).maybe.bind fun _ => (follows_token hg _).maybe.bind fun _ =>
      hdescription.maybe.bind fun _ => (follows_comment hg).maybe.bind fun _ =>
        (follows_token hg _).bind fun _ => (follows_line hg (follows_content hg)).many.bind fun _ =>
          follows_pure _

theorem follows_lineComment : Follows g lineComment lineComment :=
  (follows_token hg _).bind fun _ => (follows_token hg _).maybe.bind fun _ =>
    (follows_token hg _).bind fun _ => follows_pure _

theorem follows_priceDirective : Follows g priceDirective priceDirective :=
  (follows_token hg _).bind fun _ => (follows_token hg _).bind fun _ =>
    (follows_token hg _).bind fun _ => (follows_amount hg).bind fun _ =>
      (follows_comment hg).maybe.bind fun _ => (follows_token hg _).bind fun _ => follows_pure _

theorem follows_accountDirective : Follows g accountDirective accountDirective := by
  have hrefused : Follows g (refuse account .virtualAccount : Parser Token)
      (refuse account .virtualAccount) := (follows_satisfy hg _).refuse _
  have haccount : Follows g declaredAccount declaredAccount := (follows_token hg _).orElse hrefused
  exact (follows_token hg _).bind fun _ => haccount.bind fun _ =>
    (follows_comment hg).maybe.bind fun _ => (follows_token hg _).bind fun _ =>
      (follows_line hg (follows_comment hg)).many.bind fun _ => follows_pure _

theorem follows_commodityDirective : Follows g commodityDirective commodityDirective := by
  have hamount : Follows g (Declaration.amount <$> amount) (.amount <$> amount) :=
    (follows_amount hg).map fun _ => rfl
  have hname : Follows g (Declaration.name <$> token .commodity) (.name <$> token .commodity) :=
    (follows_token hg _).map fun _ => rfl
  have hformat : Follows g format format :=
    (follows_token hg _).bind fun _ => (follows_amount hg).bind fun _ => follows_pure _
  have hformatLine : Follows g (CommodityContent.format <$> format) (.format <$> format) :=
    hformat.map fun _ => rfl
  have hcomment : Follows g (CommodityContent.comment <$> comment) (.comment <$> comment) :=
    (follows_comment hg).map fun _ => rfl
  exact (follows_token hg _).bind fun _ => (hamount.orElse hname).bind fun _ =>
    (follows_comment hg).maybe.bind fun _ => (follows_token hg _).maybe.bind fun _ =>
      (follows_line hg (hformatLine.orElse hcomment)).many.bind fun _ => follows_pure _

theorem follows_defaultDirective : Follows g defaultDirective defaultDirective := by
  have hrefused : Follows g (refuse (token .formatKeyword) .formatLine : Parser Comment)
      (refuse (token .formatKeyword) .formatLine) := (follows_token hg _).refuse _
  have hcontent : Follows g defaultContent defaultContent := (follows_comment hg).orElse hrefused
  exact (follows_token hg _).bind fun _ => (follows_amount hg).bind fun _ =>
    (follows_comment hg).maybe.bind fun _ => (follows_token hg _).bind fun _ =>
      (follows_line hg hcontent).many.bind fun _ => follows_pure _

/-- **The rules look at kinds only.** -/
theorem follows_item : Follows g item item := by
  have htransaction : Follows g (Item.transaction <$> transaction) (.transaction <$> transaction) :=
    (follows_transaction hg).map fun _ => rfl
  have hlineComment : Follows g (Item.lineComment <$> lineComment) (.lineComment <$> lineComment) :=
    (follows_lineComment hg).map fun _ => rfl
  have hprice : Follows g (Item.price <$> priceDirective) (.price <$> priceDirective) :=
    (follows_priceDirective hg).map fun _ => rfl
  have haccount : Follows g (Item.account <$> accountDirective) (.account <$> accountDirective) :=
    (follows_accountDirective hg).map fun _ => rfl
  have hcommodity : Follows g (Item.commodity <$> commodityDirective)
      (.commodity <$> commodityDirective) := (follows_commodityDirective hg).map fun _ => rfl
  have hdefault : Follows g (Item.defaultCommodity <$> defaultDirective)
      (.defaultCommodity <$> defaultDirective) := (follows_defaultDirective hg).map fun _ => rfl
  exact htransaction.orElse <| hlineComment.orElse <| hprice.orElse <| haccount.orElse <|
    hcommodity.orElse hdefault

/-- What is given up is chosen by kinds only. -/
theorem follows_brokenRest : Follows g brokenRest brokenRest := by
  have hrest : Follows g restOfLine restOfLine := (follows_satisfy hg _).many
  have hunit : Follows g (pure () : Parser Unit) (pure ()) := follows_pure ()
  have hline : Follows g brokenLine brokenLine := (follows_token hg _).bind fun _ =>
    hrest.bind fun _ => (follows_token hg _).maybe.bind fun _ => hunit
  exact hrest.bind fun _ => (follows_token hg _).maybe.bind fun _ => hline.many.bind fun _ => hunit

end Rules

end Grammar

/-! ## Segments -/

variable {g : Token → Token}

theorem Failure.ahead_onTokens (f : Failure) : (onTokens g f).ahead = f.ahead := by
  cases f with
  | mk rest refusal =>
    cases refusal with
    | none => simp [Failure.ahead, onTokens]
    | some cause => simp [Failure.ahead, onTokens]

theorem Failure.furthest_onTokens (first next : Failure) :
    (onTokens g first).furthest (onTokens g next) = onTokens g (first.furthest next) := by
  have hrefusal : (onTokens g next).refusal = next.refusal := rfl
  unfold Failure.furthest
  rw [hrefusal, Failure.ahead_onTokens, Failure.ahead_onTokens]
  split <;> rfl

theorem Failure.foldl_furthest_onTokens (first : Failure) (more : List Failure) :
    (onTokens g more).foldl Failure.furthest (onTokens g first) =
      onTokens g (more.foldl Failure.furthest first) := by
  induction more generalizing first with
  | nil => rfl
  | cons next more ih =>
    have hfirst := Failure.furthest_onTokens (g := g) first next
    calc (onTokens g (next :: more)).foldl Failure.furthest (onTokens g first)
        = (onTokens g more).foldl Failure.furthest
            ((onTokens g first).furthest (onTokens g next)) := rfl
      _ = (onTokens g more).foldl Failure.furthest (onTokens g (first.furthest next)) := by
          rw [hfirst]
      _ = onTokens g ((next :: more).foldl Failure.furthest first) := ih _

theorem Failure.furthest?_onTokens (fs : List Failure) :
    Failure.furthest? (onTokens g fs) = onTokens g (Failure.furthest? fs) := by
  cases fs with
  | nil => rfl
  | cons first more => exact congrArg some (Failure.foldl_furthest_onTokens first more)

theorem furthestAt_onTokens (sofar : Option Failure) (ts : List Token) (fs : List Failure) :
    furthestAt (onTokens g sofar) (onTokens g ts) (onTokens g fs) =
      onTokens g (furthestAt sofar ts fs) := by
  have hempty : (⟨onTokens g ts, none⟩ : Failure) = onTokens g ⟨ts, none⟩ := rfl
  have hsofar : (onTokens g sofar).getD (onTokens g ⟨ts, none⟩) =
      onTokens g (sofar.getD ⟨ts, none⟩) := by cases sofar <;> rfl
  unfold furthestAt
  rw [hempty, hsofar, Failure.furthest_onTokens, Failure.foldl_furthest_onTokens]

theorem inFrontOf_onTokens (rest ts : List Token) :
    inFrontOf (onTokens g rest) (onTokens g ts) = onTokens g (inFrontOf rest ts) := by
  simp only [inFrontOf, onTokens, List.length_map, List.map_take]

theorem left_onTokens {α : Type} [OnTokens α] {p : Parser α} (hp : Parser.Follows g p p)
    (ts : List Token) : p.left (onTokens g ts) = onTokens g (p.left ts) := by
  simp only [Parser.left, hp ts]
  cases h : (p ts).result <;> simp only [onTokens, h] <;> rfl

section

variable (hg : ∀ t, (g t).kind = t.kind)

include hg

/-- What an item is read as, and the furthest that reading it came. -/
theorem item_onTokens (sofar : Option Failure) (ts : List Token) :
    (Grammar.item (onTokens g ts)).result = onTokens g (Grammar.item ts).result ∧
      furthestAt (onTokens g sofar) (onTokens g ts) (Grammar.item (onTokens g ts)).failures =
        onTokens g (furthestAt sofar ts (Grammar.item ts).failures) := by
  rw [Grammar.follows_item hg ts]
  exact ⟨rfl, furthestAt_onTokens ..⟩

theorem segmentsAfter_onTokens (sofar : Option Failure) (ts : List Token) :
    segmentsAfter (onTokens g sofar) (onTokens g ts) = onTokens g (segmentsAfter sofar ts) := by
  fun_induction segmentsAfter sofar ts with
  | case1 => exact segmentsAfter_nil _
  | case2 sofar t ts ht ih =>
    have hblank : segmentsAfter (onTokens g sofar) (g t :: onTokens g ts) = _ :=
      segmentsAfter_blank ((hg t).trans ht)
    exact hblank.trans (congrArg _ ih)
  | case3 sofar t ts ht reply failure item rest h ih =>
    have hkind : (g t).kind ≠ .newline := (hg t).symm ▸ ht
    obtain ⟨hitem, hfurthest⟩ := item_onTokens hg sofar (t :: ts)
    have hresult : (Grammar.item (onTokens g (t :: ts))).result =
        some (onTokens g item, onTokens g rest) := hitem.trans (congrArg (onTokens g) h)
    calc segmentsAfter (onTokens g sofar) (onTokens g (t :: ts))
        = .item (onTokens g item) (inFrontOf (onTokens g rest) (onTokens g (t :: ts))) ::
            segmentsAfter (some (furthestAt (onTokens g sofar) (onTokens g (t :: ts))
              (Grammar.item (onTokens g (t :: ts))).failures)) (onTokens g rest) :=
          segmentsAfter_item hkind hresult
      _ = .item (onTokens g item) (onTokens g (inFrontOf rest (t :: ts))) ::
            segmentsAfter (onTokens g (some failure)) (onTokens g rest) := by
          rw [inFrontOf_onTokens, hfurthest]
          rfl
      _ = onTokens g (.item item (inFrontOf rest (t :: ts)) :: segmentsAfter (some failure) rest) :=
          congrArg _ ih
  | case4 sofar t ts ht reply failure h rest ih =>
    have hkind : (g t).kind ≠ .newline := (hg t).symm ▸ ht
    obtain ⟨hitem, hfurthest⟩ := item_onTokens hg sofar (t :: ts)
    have hbroken := Grammar.follows_brokenRest hg
    have hresult : (Grammar.item (onTokens g (t :: ts))).result = none :=
      hitem.trans (congrArg (onTokens g) h)
    have hskipped : (Grammar.brokenRest (onTokens g ts)).failures =
        onTokens g (Grammar.brokenRest ts).failures := congrArg Reply.failures (hbroken ts)
    calc segmentsAfter (onTokens g sofar) (onTokens g (t :: ts))
        = .broken (inFrontOf (Grammar.brokenRest.left (onTokens g ts)) (onTokens g (t :: ts)))
              (furthestAt (onTokens g sofar) (onTokens g (t :: ts))
                (Grammar.item (onTokens g (t :: ts))).failures) ::
            segmentsAfter (Failure.furthest? (Grammar.brokenRest (onTokens g ts)).failures)
              (Grammar.brokenRest.left (onTokens g ts)) :=
          segmentsAfter_broken hkind hresult
      _ = .broken (onTokens g (inFrontOf rest (t :: ts))) (onTokens g failure) ::
            segmentsAfter (onTokens g (Failure.furthest? (Grammar.brokenRest ts).failures))
              (onTokens g rest) := by
          rw [left_onTokens hbroken, inFrontOf_onTokens, hfurthest, hskipped,
            Failure.furthest?_onTokens]
      _ = onTokens g (.broken (inFrontOf rest (t :: ts)) failure ::
            segmentsAfter (Failure.furthest? (Grammar.brokenRest ts).failures) rest) :=
          congrArg _ ih

theorem blocks_onTokens (ts : List Token) : blocks (onTokens g ts) = onTokens g (blocks ts) := by
  induction ts with
  | nil => rfl
  | cons t ts ih =>
    have hends : ∀ u, endsBlock (g t) (g u) = endsBlock t u := by
      intro u
      simp only [endsBlock, hg]
    show addToken (g t) (blocks (onTokens g ts)) = onTokens g (addToken t (blocks ts))
    rw [ih]
    cases blocks ts with
    | nil => rfl
    | cons block more =>
      have hhead : (onTokens g block).head?.any (endsBlock (g t)) =
          block.head?.any (endsBlock t) := by
        cases block with
        | nil => rfl
        | cons u us => exact hends u
      show (if (onTokens g block).head?.any (endsBlock (g t)) then _ else _) = _
      rw [hhead, addToken]
      split <;> rfl

/-- **The cut into segments looks at kinds only.** -/
theorem segments_onTokens (ts : List Token) :
    segments (onTokens g ts) = onTokens g (segments ts) := by
  have hblock : ∀ block,
      segmentsAfter none (onTokens g block) = onTokens g (segmentsAfter none block) :=
    fun block => segmentsAfter_onTokens hg none block
  calc segments (onTokens g ts)
      = (onTokens g (blocks ts)).flatMap (segmentsAfter none) := by
        rw [segments, blocks_onTokens hg]
    _ = (blocks ts).flatMap fun block => onTokens g (segmentsAfter none block) := by
        simp only [← hblock]
        exact List.flatMap_map ..
    _ = onTokens g (segments ts) := List.map_flatMap.symm

/-- The items that are read are those of the old tokens, with their tokens replaced. -/
theorem values_items_onTokens (ts : List Token) :
    (Tree.ofTokens (onTokens g ts)).items.map (·.value) =
      onTokens g ((Tree.ofTokens ts).items.map (·.value)) := by
  simp only [Tree.ofTokens, segments_onTokens hg]
  simp only [onTokens, List.filterMap_map, List.map_filterMap]
  refine List.filterMap_congr fun s _ => ?_
  cases s <;> rfl

/-- So are the failures that are reported. -/
theorem failures_onTokens (ts : List Token) :
    (segments (onTokens g ts)).filterMap Segment.failure? =
      onTokens g ((segments ts).filterMap Segment.failure?) := by
  rw [segments_onTokens hg]
  simp only [onTokens, List.filterMap_map, List.map_filterMap]
  refine List.filterMap_congr fun s _ => ?_
  cases s <;> rfl

end

end Daybook.Tree
