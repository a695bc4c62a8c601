import Daybook.Proofs.Tree.OnTokens
import Daybook.Proofs.Tree.Slots
import Daybook.Written.OfTree

/-!
# What a tree says does not depend on where it stands

A written journal holds texts and no places. If the tokens of a tree are replaced by others that
mean the same, and the order and the gaps of the tokens of each amount stay, the tree says the same.
Line breaks and indentations may be replaced by any, for no text of the written journal is theirs.
About the first lowering ([SPEC 4.3]).

* `Carries g H`: `g` replaces the tokens in the words of the languages that `H` holds of in such a
  way.
* `Moves g`: `g` changes places only, and neither the order of tokens nor the gaps between them.

Results:
* `item_carried`: **an item that is carried over says the same.**
* `item_ofTree_onTokens`: an item that is moved says the same.
-/

namespace Daybook.Written

open Daybook.Tree (onTokens OnTokens spell spellKind spellOption spellList)

/-- Tokens are replaced by others that mean the same. `H` is handed down from a language to the
parts that it is put together from. -/
structure Carries (g : Token → Token) (H : Language Token → Prop) : Prop where
  kind : ∀ t, (g t).kind = t.kind
  payload : ∀ t, (g t).payload = t.payload
  mul : ∀ {A B : Language Token}, H (A * B) → H A ∧ H B
  image : ∀ {test : Kind → Bool} {t : Token}, H (spell test t) → test .newline = false →
    test .indent = false → (g t).image = t.image
  amount : ∀ {a : Tree.Amount}, H a.spellings → Amount.ofTree (onTokens g a) = .ofTree a

variable {g : Token → Token} {H : Language Token → Prop}

/-! ## Amounts -/

theorem joinImages_map {ts : List Token} (himage : ∀ t ∈ ts, (g t).image = t.image)
    (hstop : ∀ t ∈ ts, ∀ u ∈ ts, (g t).stop < (g u).offset ↔ t.stop < u.offset) :
    joinImages (ts.map g) = joinImages ts := by
  induction ts with
  | nil => rfl
  | cons t ts ih =>
    have ih := ih (fun u hu => himage u (List.mem_cons_of_mem t hu)) fun u hu v hv =>
      hstop u (List.mem_cons_of_mem t hu) v (List.mem_cons_of_mem t hv)
    have ht := himage t List.mem_cons_self
    cases ts with
    | nil => exact ht
    | cons u ts =>
      have hgap := hstop t List.mem_cons_self u (by simp)
      simp only [List.map_cons] at ih ⊢
      simp only [joinImages, ht, hgap, ih]

theorem tokens_onTokens (a : Tree.Amount) : (onTokens g a).tokens = a.tokens.map g := by
  cases a with
  | mk dash commodity number => cases dash <;> cases commodity <;> rfl

/-- An amount whose tokens keep their texts, their order and the gaps between them. -/
theorem amount_ofTree_of_tokens {a : Tree.Amount} (hpayload : ∀ t, (g t).payload = t.payload)
    (himage : ∀ t ∈ a.tokens, (g t).image = t.image)
    (horder : ∀ t ∈ a.tokens, ∀ u ∈ a.tokens, (g t).offset ≤ (g u).offset ↔ t.offset ≤ u.offset)
    (hstop : ∀ t ∈ a.tokens, ∀ u ∈ a.tokens, (g t).stop < (g u).offset ↔ t.stop < u.offset) :
    Amount.ofTree (onTokens g a) = .ofTree a := by
  have hsort := List.map_mergeSort (f := g)
    (r := fun t u : Token => decide (t.offset ≤ u.offset))
    (s := fun t u : Token => decide (t.offset ≤ u.offset)) (l := a.tokens)
    fun t ht u hu => decide_eq_decide.mpr (horder t ht u hu).symm
  have hmem : ∀ t ∈ a.tokens.mergeSort fun t u => t.offset ≤ u.offset, t ∈ a.tokens := fun t =>
    List.mem_mergeSort.mp
  have hjoin := joinImages_map (fun t ht => himage t (hmem t ht)) fun t ht u hu =>
    hstop t (hmem t ht) u (hmem u hu)
  have htext : amountText (onTokens g a) = amountText a := by
    show joinImages ((onTokens g a).tokens.mergeSort _) = joinImages (a.tokens.mergeSort _)
    rw [tokens_onTokens, ← hsort, hjoin]
  have hcommodity : (onTokens g a.commodity).map (·.text) = a.commodity.map (·.text) := by
    cases hc : a.commodity with
    | none => rfl
    | some c =>
      have himage := himage c (by simp [Tree.Amount.tokens, hc])
      simp only [onTokens, Option.map_some, Token.text, himage, hpayload]
  have hnumber := himage a.number (by simp [Tree.Amount.tokens])
  have hdash : (onTokens g a.dash).isSome = a.dash.isSome := Option.isSome_map ..
  unfold Amount.ofTree
  rw [htext]
  simp only [onTokens] at hcommodity hdash ⊢
  rw [hcommodity, hdash, hnumber]

/-! ## What may be missing, and what may be there several times -/

section

variable {α β : Type} [OnTokens α]

theorem map_option_onTokens {f : α → β} {o : Option α} (hf : ∀ a ∈ o, f (onTokens g a) = f a) :
    (onTokens g o).map f = o.map f := by
  cases o with
  | none => rfl
  | some a => exact congrArg some (hf a rfl)

theorem map_list_onTokens {f : α → β} {as : List α} (hf : ∀ a ∈ as, f (onTokens g a) = f a) :
    (onTokens g as).map f = as.map f := by
  show (as.map (onTokens g)).map f = as.map f
  rw [List.map_map]
  exact List.map_congr_left hf

theorem mapM_onTokens {f : α → Except JournalFault β} {as : List α}
    (hf : ∀ a ∈ as, f (onTokens g a) = f a) : (onTokens g as).mapM f = as.mapM f := by
  induction as with
  | nil => rfl
  | cons a as ih =>
    have hmore := ih fun b hb => hf b (List.mem_cons_of_mem a hb)
    have ha := hf a List.mem_cons_self
    show (onTokens g a :: onTokens g as).mapM f = _
    rw [List.mapM_cons, List.mapM_cons, ha, hmore]

end

section

variable {α : Type} {s : α → Language Token}

theorem Carries.of_mem_option (_ : Carries g H) {o : Option α} (ho : H (spellOption s o)) :
    ∀ a ∈ o, H (s a) := by
  rintro a rfl
  exact ho

theorem Carries.of_mem_list (h : Carries g H) {as : List α} (has : H (spellList s as)) :
    ∀ a ∈ as, H (s a) := by
  induction as with
  | nil => exact fun a ha => absurd ha List.not_mem_nil
  | cons b as ih =>
    have hparts : H (s b * spellList s as) := by
      rwa [spellList, List.map_cons, List.prod_cons] at has
    obtain ⟨hb, hmore⟩ := h.mul hparts
    exact List.forall_mem_cons.mpr ⟨hb, ih hmore⟩

theorem Carries.of_line (h : Carries g H) {l : Tree.Line α} (hl : H (l.spellings s)) :
    H (s l.body) := (h.mul (h.mul hl).1).2

end

/-! ## Items -/

variable (h : Carries g H)

include h

theorem segments_onTokens (t : Token) : (g t).segments = t.segments := by
  simp only [Token.segments, h.payload]

theorem image_onTokens {kind : Kind} {t : Token} (ht : H (spellKind kind t))
    (hkind : kind ≠ .newline ∧ kind ≠ .indent) : (g t).image = t.image :=
  h.image ht (by simpa using hkind.1.symm) (by simpa using hkind.2.symm)

theorem text_onTokens {kind : Kind} {t : Token} (ht : H (spellKind kind t))
    (hkind : kind ≠ .newline ∧ kind ≠ .indent) : (g t).text = t.text := by
  simp only [Token.text, h.payload, image_onTokens h ht hkind]

theorem namedAmount_onTokens {a : Tree.Amount} (ha : H a.spellings) :
    NamedAmount.ofTree (onTokens g a) = NamedAmount.ofTree a := by
  simp only [NamedAmount.ofTree, h.amount ha]

theorem comment_onTokens {c : Tree.Comment} (hc : H c.spellings) :
    Comment.ofTree (onTokens g c) = .ofTree c := by
  unfold Comment.ofTree
  refine congrArg Comment.mk (map_list_onTokens fun part hpart => ?_)
  have hspelled := h.of_mem_list (h.mul hc).2 part hpart
  cases part with
  | text token => exact congrArg CommentPart.text (image_onTokens h hspelled (by decide))
  | tag tag =>
    obtain ⟨hcolon, -⟩ := h.mul hspelled
    obtain ⟨hname, hvalue⟩ := h.mul hcolon
    have himage := image_onTokens h (h.mul hname).1 (by decide)
    have htext := map_option_onTokens (f := Token.image) fun t ht =>
      image_onTokens h (h.of_mem_option hvalue t ht) (by decide)
    simp only [onTokens] at htext ⊢
    rw [himage, htext]

theorem comment?_onTokens {c : Option Tree.Comment} (hc : H (spellOption Tree.Comment.spellings c)) :
    (onTokens g c).map Comment.ofTree = c.map .ofTree :=
  map_option_onTokens fun c' hc' => comment_onTokens h (h.of_mem_option hc c' hc')

theorem comments_onTokens {lines : List (Tree.Line Tree.Comment)}
    (hlines : H (spellList (Tree.Line.spellings Tree.Comment.spellings) lines)) :
    commentsOfTree (onTokens g lines) = commentsOfTree lines :=
  map_list_onTokens fun line hline =>
    comment_onTokens h (h.of_line (h.of_mem_list hlines line hline))

theorem status_onTokens (t : Option Token) : statusOfTree (onTokens g t) = statusOfTree t := by
  cases t with
  | none => rfl
  | some t =>
    have hkind := h.kind t
    simp only [onTokens, Option.map_some, statusOfTree, hkind]

theorem account_onTokens (t : Token) : accountOfTree (g t) = accountOfTree t := by
  simp only [accountOfTree, h.kind, segments_onTokens h]

theorem description_onTokens {d : Tree.Description} (hd : H d.spellings) :
    descriptionOfTree (onTokens g d) = descriptionOfTree d := by
  obtain ⟨htext, hmemo⟩ := h.mul hd
  replace htext := image_onTokens h htext (by decide)
  cases d with
  | mk text memo =>
    cases memo with
    | none => exact congrArg Description.plain htext
    | some memo =>
      have hmemo := map_option_onTokens (f := Token.image) fun t ht =>
        image_onTokens h (h.of_mem_option (h.mul hmemo).2 t ht) (by decide)
      simp only [onTokens, Option.map_some, descriptionOfTree] at hmemo htext ⊢
      rw [htext, hmemo]

theorem lotPrice_onTokens {l : Tree.LotPrice} (hl : H l.spellings) :
    lotPriceOfTree (onTokens g l) = lotPriceOfTree l := by
  have hamount := h.amount (h.mul hl).2
  have hsecond : (onTokens g l.second).isSome = l.second.isSome := Option.isSome_map ..
  have hparens : (onTokens g l.parens).isSome = l.parens.isSome := Option.isSome_map ..
  simp only [onTokens] at hamount hsecond hparens
  simp only [lotPriceOfTree, onTokens, hamount, hsecond, hparens]

theorem assertion_onTokens {a : Tree.Assertion} (ha : H a.spellings) :
    assertionOfTree (onTokens g a) = assertionOfTree a := by
  have hamount := h.amount (h.mul ha).2
  have hsecond : (onTokens g a.second).isSome = a.second.isSome := Option.isSome_map ..
  have hasterisk : (onTokens g a.asterisk).isSome = a.asterisk.isSome := Option.isSome_map ..
  simp only [onTokens] at hamount hsecond hasterisk
  simp only [assertionOfTree, onTokens, hamount, hsecond, hasterisk]

theorem posting_onTokens {p : Tree.Posting} (hp : H p.spellings) :
    Posting.ofTree (onTokens g p) = .ofTree p := by
  obtain ⟨hassertion, hcomment⟩ := h.mul hp
  obtain ⟨hlotPrice, hassertion⟩ := h.mul hassertion
  obtain ⟨hamount, hlotPrice⟩ := h.mul hlotPrice
  obtain ⟨-, hamount⟩ := h.mul hamount
  simp only [Posting.ofTree, Posting.mk.injEq]
  exact ⟨status_onTokens h _, account_onTokens h _,
    map_option_onTokens fun a ha => h.amount (h.of_mem_option hamount a ha),
    map_option_onTokens fun l hl => lotPrice_onTokens h (h.of_mem_option hlotPrice l hl),
    map_option_onTokens fun a ha => assertion_onTokens h (h.of_mem_option hassertion a ha),
    comment?_onTokens h hcomment⟩

theorem content_onTokens {c : Tree.Content} (hc : H c.spellings) :
    Content.ofTree (onTokens g c) = .ofTree c := by
  cases c with
  | posting p => exact congrArg Content.posting (posting_onTokens h hc)
  | comment c => exact congrArg Content.comment (comment_onTokens h hc)

theorem transaction_onTokens {t : Tree.Transaction} (ht : H t.spellings) :
    Transaction.ofTree (onTokens g t) = .ofTree t := by
  obtain ⟨hbreak, hlines⟩ := h.mul ht
  obtain ⟨hcomment, -⟩ := h.mul hbreak
  obtain ⟨hdescription, hcomment⟩ := h.mul hcomment
  obtain ⟨hcheque, hdescription⟩ := h.mul hdescription
  obtain ⟨hstatus, hcheque⟩ := h.mul hcheque
  obtain ⟨hsecond, -⟩ := h.mul hstatus
  obtain ⟨hdate, hsecond⟩ := h.mul hsecond
  simp only [Transaction.ofTree, Transaction.mk.injEq]
  exact ⟨image_onTokens h hdate (by decide),
    map_option_onTokens fun d hd =>
      image_onTokens h (h.mul (h.of_mem_option hsecond d hd)).2 (by decide),
    status_onTokens h _,
    map_option_onTokens fun c hc => text_onTokens h (h.of_mem_option hcheque c hc) (by decide),
    map_option_onTokens fun d hd => description_onTokens h (h.of_mem_option hdescription d hd),
    comment?_onTokens h hcomment,
    map_list_onTokens fun line hline =>
      content_onTokens h (h.of_line (h.of_mem_list hlines line hline))⟩

theorem lineComment_onTokens {c : Tree.LineComment} (hc : H c.spellings) :
    LineComment.ofTree (onTokens g c) = .ofTree c := by
  obtain ⟨hmarker, htext⟩ := h.mul (h.mul hc).1
  replace hmarker := image_onTokens h hmarker (by decide)
  replace htext := map_option_onTokens (f := Token.image) fun t ht =>
    image_onTokens h (h.of_mem_option htext t ht) (by decide)
  simp only [onTokens] at htext
  simp only [LineComment.ofTree, onTokens, hmarker, htext]

theorem price_onTokens {p : Tree.PriceDirective} (hp : H p.spellings) :
    PriceDirective.ofTree (onTokens g p) = .ofTree p := by
  obtain ⟨hamount, hcomment⟩ := h.mul (h.mul hp).1
  obtain ⟨hcommodity, hamount⟩ := h.mul hamount
  obtain ⟨hdate, hcommodity⟩ := h.mul hcommodity
  simp only [PriceDirective.ofTree, PriceDirective.mk.injEq]
  exact ⟨image_onTokens h (h.mul hdate).2 (by decide), text_onTokens h hcommodity (by decide),
    h.amount hamount, comment?_onTokens h hcomment⟩

theorem accountDirective_onTokens {a : Tree.AccountDirective} (ha : H a.spellings) :
    AccountDirective.ofTree (onTokens g a) = .ofTree a := by
  obtain ⟨hbreak, hlines⟩ := h.mul ha
  simp only [AccountDirective.ofTree, AccountDirective.mk.injEq]
  exact ⟨segments_onTokens h _, comment?_onTokens h (h.mul (h.mul hbreak).1).2,
    comments_onTokens h hlines⟩

theorem declaration_onTokens {d : Tree.Declaration} (hd : H d.spellings) :
    Declaration.ofTree (onTokens g d) = Declaration.ofTree d := by
  cases d with
  | amount a => exact congrArg (Declaration.amount <$> ·) (namedAmount_onTokens h hd)
  | name token =>
    exact congrArg (fun text => Except.ok (Declaration.name text))
      (text_onTokens h hd (by decide))

theorem commodityContent_onTokens {c : Tree.CommodityContent} (hc : H c.spellings) :
    CommodityContent.ofTree (onTokens g c) = CommodityContent.ofTree c := by
  cases c with
  | format f =>
    exact congrArg (CommodityContent.format <$> ·) (namedAmount_onTokens h (h.mul hc).2)
  | comment c =>
    exact congrArg (fun c => Except.ok (CommodityContent.comment c)) (comment_onTokens h hc)

theorem commodityDirective_onTokens {c : Tree.CommodityDirective} (hc : H c.spellings) :
    CommodityDirective.ofTree (onTokens g c) = CommodityDirective.ofTree c := by
  obtain ⟨hbreak, hlines⟩ := h.mul hc
  obtain ⟨hdeclaration, hcomment⟩ := h.mul (h.mul hbreak).1
  replace hdeclaration := declaration_onTokens h (h.mul hdeclaration).2
  replace hcomment := comment?_onTokens h hcomment
  replace hlines := mapM_onTokens
    (f := fun line : Tree.Line Tree.CommodityContent => CommodityContent.ofTree line.body)
    fun line hline => commodityContent_onTokens h (h.of_line (h.of_mem_list hlines line hline))
  unfold CommodityDirective.ofTree
  simp only [onTokens] at hdeclaration hcomment hlines ⊢
  rw [hdeclaration, hcomment, hlines]

theorem defaultDirective_onTokens {d : Tree.DefaultDirective} (hd : H d.spellings) :
    DefaultDirective.ofTree (onTokens g d) = DefaultDirective.ofTree d := by
  obtain ⟨hbreak, hlines⟩ := h.mul hd
  obtain ⟨hamount, hcomment⟩ := h.mul (h.mul hbreak).1
  replace hamount := namedAmount_onTokens h (h.mul hamount).2
  replace hcomment := comment?_onTokens h hcomment
  replace hlines := comments_onTokens h hlines
  unfold DefaultDirective.ofTree
  simp only [onTokens] at hamount hcomment hlines ⊢
  rw [hamount, hcomment, hlines]

/-- **An item that is carried over says the same.** -/
theorem item_carried {x : Tree.Item} (hx : H x.spellings) :
    Item.ofTree (onTokens g x) = Item.ofTree x := by
  cases x with
  | transaction t =>
    exact congrArg (fun t => Except.ok (Item.transaction t)) (transaction_onTokens h hx)
  | lineComment c =>
    exact congrArg (fun c => Except.ok (Item.lineComment c)) (lineComment_onTokens h hx)
  | price p => exact congrArg (fun p => Except.ok (Item.price p)) (price_onTokens h hx)
  | account a =>
    exact congrArg (fun a => Except.ok (Item.account a)) (accountDirective_onTokens h hx)
  | commodity c => exact congrArg (Item.commodity <$> ·) (commodityDirective_onTokens h hx)
  | defaultCommodity d =>
    exact congrArg (Item.defaultCommodity <$> ·) (defaultDirective_onTokens h hx)

omit h

/-! ## Items that are moved -/

/-- Tokens are moved, and neither their order nor the gaps between them change. -/
structure Moves (g : Token → Token) : Prop where
  kind : ∀ t, (g t).kind = t.kind
  image : ∀ t, (g t).image = t.image
  payload : ∀ t, (g t).payload = t.payload
  offset_le : ∀ t u, (g t).offset ≤ (g u).offset ↔ t.offset ≤ u.offset
  stop_lt : ∀ t u, (g t).stop < (g u).offset ↔ t.stop < u.offset

theorem Moves.carries (h : Moves g) : Carries g fun _ => True where
  kind := h.kind
  payload := h.payload
  mul _ := ⟨trivial, trivial⟩
  image _ _ _ := h.image _
  amount _ := amount_ofTree_of_tokens h.payload (fun t _ => h.image t)
    (fun t _ u _ => h.offset_le t u) fun t _ u _ => h.stop_lt t u

/-- **An item that is moved says the same.** -/
theorem item_ofTree_onTokens (h : Moves g) (x : Tree.Item) :
    Item.ofTree (onTokens g x) = Item.ofTree x := item_carried h.carries trivial

end Daybook.Written
