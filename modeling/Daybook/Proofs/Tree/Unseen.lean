import Daybook.Proofs.Tree.Region

/-!
# What stands behind whole lines

A rule that is given whole lines looks at nothing behind them, unless the next line is indented: a
line is left at its break, and behind the break a rule only asks for an indented line. So what
stands behind is left as it is, and every test that fails is the same test.

* `Reply.before us r`: the answer `r` with the tokens `us` behind what is left.
* `Unseen us given p`: on such lists `p` answers the same in front of `us`.
* `Within us p`: `p` stays in front of the next line break, and does not see what stands behind it.

Results:
* `unseen_item`, `unseen_brokenRest`: **the rules that segments are cut with do not see what stands
  behind whole lines.**
-/

namespace Daybook.Tree

/-- The failure with more tokens behind. -/
def Failure.before (us : List Token) (f : Failure) : Failure := { f with rest := f.rest ++ us }

/-- The answer with more tokens behind what is left. -/
def Reply.before {α : Type} (us : List Token) (r : Reply α) : Reply α :=
  ⟨r.result.map fun (a, rest) => (a, rest ++ us), r.failures.map (Failure.before us)⟩

/-- A list that is in a line and ends with one. -/
def InLine (ts : List Token) : Prop := Closed ts ∧ ts ≠ []

namespace Parser

variable {α β : Type} {us ts rest : List Token} {given after : List Token → Prop} {p q : Parser α}
  {f : α → Parser β}

/-- On such lists the parser answers in front of `us` what it answers without them. -/
def Unseen (us : List Token) (given : List Token → Prop) (p : Parser α) : Prop :=
  ∀ ts, given ts → p (ts ++ us) = (p ts).before us

/-- The parser stays in front of the next line break, and does not see what stands behind it. -/
structure Within (us : List Token) (p : Parser α) : Prop extends Inline p where
  unseen : Unseen us InLine p

/-! ## What is left of whole lines -/

theorem closed_of_result [Keeps p] {a : α} (hts : Closed ts)
    (h : (p ts).result = some (a, rest)) : Closed rest := hts.of_isSuffix (p.isSuffix h)

theorem Inline.inLine_of_result [Keeps p] (hp : Inline p) {a : α} (hts : InLine ts)
    (h : (p ts).result = some (a, rest)) : InLine rest := by
  refine ⟨closed_of_result hts.1 h, ?_⟩
  rintro rfl
  obtain ⟨n, hn, hbreak⟩ := hts.1.exists_break hts.2
  have hstays := hp.stays hn hbreak
  rw [left_of_eq h] at hstays
  exact absurd (List.suffix_nil.mp hstays) (List.cons_ne_nil n [])

theorem Unseen.left (hp : Unseen us given p) (hts : given ts) :
    p.left (ts ++ us) = p.left ts ++ us := by
  rw [Parser.left, Parser.left, hp ts hts]
  cases h : (p ts).result <;> simp only [Reply.before, h] <;> rfl

/-! ## Single tests -/

theorem unseen_satisfy (test : Kind → Bool) : Unseen us InLine (satisfy test) := by
  intro ts hts
  obtain ⟨t, more, rfl⟩ := List.exists_cons_of_ne_nil hts.2
  by_cases ht : test t.kind = true
  · simp only [List.cons_append, satisfy, ht, if_true]
    rfl
  · simp only [List.cons_append, satisfy, ht]
    rfl

/-- Nothing is left of the lines only in front of a line that is not indented. -/
theorem unseen_indent (hus : ∀ u ∈ us.head?, u.kind ≠ .indent) :
    Unseen us Closed (token .indent) := by
  intro ts hts
  cases ts with
  | cons t more => exact unseen_satisfy _ _ ⟨hts, List.cons_ne_nil t more⟩
  | nil =>
    cases us with
    | nil => rfl
    | cons u us =>
      have hu : decide (u.kind = .indent) = false := by simpa using hus u rfl
      show satisfy _ (u :: us) = _
      simp only [satisfy, hu]
      rfl

theorem unseen_pure (a : α) : Unseen us given (pure a) := fun _ _ => rfl

/-! ## One parser after another -/

theorem Unseen.bind (hp : Unseen us given p)
    (hafter : ∀ {ts a rest}, given ts → (p ts).result = some (a, rest) → after rest)
    (hf : ∀ a, Unseen us after (f a)) : Unseen us given (p >>= f) := by
  intro ts hts
  change andThen p f (ts ++ us) = (andThen p f ts).before us
  unfold andThen
  rw [hp ts hts]
  cases h : (p ts).result with
  | none => simp only [Reply.before, h, Option.map_none]
  | some reply =>
    have hrest := hf reply.1 reply.2 (hafter hts h)
    simp only [Reply.before, h, Option.map_some, hrest, List.map_append]

/-- Behind a line break only whole lines are left. -/
theorem Unseen.bind_closed [Keeps p] (hp : Unseen us InLine p) (hf : ∀ a, Unseen us Closed (f a)) :
    Unseen us InLine (p >>= f) := hp.bind (fun hts => closed_of_result hts.1) hf

theorem Unseen.bind_pure (hp : Unseen us given p) (g : α → β) :
    Unseen us given (p >>= fun a => pure (g a)) := by
  have hpure (a : α) : Unseen us (fun _ => True) (pure (g a)) := unseen_pure (g a)
  exact hp.bind (fun _ _ => trivial) hpure

theorem Unseen.map (hp : Unseen us given p) (g : α → β) : Unseen us given (g <$> p) :=
  hp.bind_pure g

theorem Within.bind_unseen [Keeps p] (hp : Within us p) (hf : ∀ a, Unseen us InLine (f a)) :
    Unseen us InLine (p >>= f) := hp.unseen.bind hp.toInline.inLine_of_result hf

/-! ## Choices and repetitions -/

theorem Unseen.orElse (hp : Unseen us given p) (hq : Unseen us given q) :
    Unseen us given (orElse p q) := by
  intro ts hts
  simp only [Parser.orElse, hp ts hts, hq ts hts]
  cases h : (p ts).result with
  | none => simp only [Reply.before, h, Option.map_none, List.map_append]
  | some reply => simp only [Reply.before, h, Option.map_some]

theorem Unseen.maybe (hp : Unseen us given p) : Unseen us given (maybe p) :=
  (hp.map some).orElse (unseen_pure none)

theorem Unseen.refuse (hp : Unseen us given p) (cause : Refusal) :
    Unseen us given (refuse p cause : Parser β) := by
  intro ts hts
  simp only [Parser.refuse, hp ts hts]
  cases h : (p ts).result with
  | none => simp only [Reply.before, h, Option.map_none]
  | some reply =>
    simp only [Reply.before, h, Option.map_some, Option.map_none, List.map_append, List.map_cons,
      List.map_nil]
    rfl

theorem Unseen.many (hp : Unseen us given p)
    (hafter : ∀ {ts a rest}, given ts → (p ts).result = some (a, rest) → given rest) :
    Unseen us given (many p) := by
  intro ts hts
  show repeatOn p (ts ++ us) = (repeatOn p ts).before us
  fun_induction repeatOn p ts with
  | case1 ts hnone =>
    rw [repeatOn, hp ts hts]
    simp only [Reply.before, hnone, Option.map_none, Option.map_some]
  | case2 =>
    rename_i ts a mid ha hlt more ih
    have hmore := ih (hafter hts ha)
    have hlen : (mid ++ us).length < (ts ++ us).length := by
      rw [List.length_append, List.length_append]
      exact Nat.add_lt_add_right hlt _
    rw [repeatOn, hp ts hts]
    simp only [Reply.before, ha, Option.map_some, hlen, if_true, hmore]
    simp only [List.map_append, Option.map_map, Reply.mk.injEq]
    exact ⟨rfl, rfl⟩
  | case3 ts a mid ha hlt =>
    have hlen : ¬ (mid ++ us).length < (ts ++ us).length := by
      rw [List.length_append, List.length_append]
      omega
    rw [repeatOn, hp ts hts]
    simp only [Reply.before, ha, Option.map_some, hlen, if_false]

/-! ## Parsers within a line -/

theorem within_satisfy {test : Kind → Bool} (htest : test .newline = false) :
    Within us (satisfy test) := ⟨inline_satisfy htest, unseen_satisfy test⟩

theorem within_token {kind : Kind} (hkind : kind ≠ .newline) : Within us (token kind) :=
  ⟨inline_token hkind, unseen_satisfy _⟩

theorem within_pure (a : α) : Within us (pure a) := ⟨inline_pure a, unseen_pure a⟩

theorem Within.bind [Keeps p] [∀ a, Keeps (f a)] (hp : Within us p) (hf : ∀ a, Within us (f a)) :
    Within us (p >>= f) :=
  ⟨hp.toInline.bind fun a => (hf a).toInline, hp.bind_unseen fun a => (hf a).unseen⟩

theorem Within.map [Keeps p] (hp : Within us p) (g : α → β) : Within us (g <$> p) :=
  ⟨hp.toInline.map g, hp.unseen.map g⟩

theorem Within.orElse [Keeps q] (hp : Within us p) (hq : Within us q) : Within us (orElse p q) :=
  ⟨hp.toInline.orElse hq.toInline, hp.unseen.orElse hq.unseen⟩

theorem Within.maybe [Keeps p] (hp : Within us p) : Within us (maybe p) :=
  ⟨hp.toInline.maybe, hp.unseen.maybe⟩

theorem Within.refuse [Takes p] (hp : Within us p)
    (hindent : ∀ {t : Token} {ts : List Token}, t.kind = .indent → (p (t :: ts)).result = none)
    (cause : Refusal) : Within us (refuse p cause : Parser β) :=
  ⟨hp.toInline.refuse hindent cause, hp.unseen.refuse cause⟩

theorem Within.many [Takes p] (hp : Within us p) : Within us (many p) :=
  ⟨hp.toInline.many, hp.unseen.many hp.toInline.inLine_of_result⟩

end Parser

/-! ## The rules -/

namespace Grammar

open Daybook.Tree.Parser

variable {us : List Token}

theorem within_comment : Within us comment := by
  have htag : Within us tag := (within_token (by decide)).bind fun _ =>
    (within_token (by decide)).bind fun _ => (within_token (by decide)).maybe.bind fun _ =>
      (within_token (by decide)).maybe.bind fun _ => within_pure _
  have hpart : Within us (orElse (CommentPart.tag <$> tag) (.text <$> token .inlineText)) :=
    (htag.map _).orElse ((within_token (by decide)).map _)
  exact (within_token (by decide)).bind fun _ => hpart.many.bind fun _ => within_pure _

theorem within_amount : Within us amount := by
  have hcommodity : Within us commodityFirst := (within_token (by decide)).maybe.bind fun _ =>
    (within_token (by decide)).bind fun _ => (within_token (by decide)).bind fun _ => within_pure _
  have hnumber : Within us numberFirst := (within_token (by decide)).bind fun _ =>
    (within_token (by decide)).maybe.bind fun _ => within_pure _
  exact hcommodity.orElse hnumber

theorem within_lotPrice : Within us lotPrice := by
  have hsigns : Within us lotSigns := (within_token (by decide)).bind fun _ =>
    (within_token (by decide)).maybe.bind fun _ => within_pure _
  have hvirtual : Within us virtualLotSigns := (within_token (by decide)).bind fun _ =>
    hsigns.bind fun _ => (within_token (by decide)).bind fun _ => within_pure _
  exact (hvirtual.orElse (hsigns.map _)).bind fun _ => within_amount.bind fun _ => within_pure _

theorem within_posting : Within us posting := by
  have hassertion : Within us assertion := (within_token (by decide)).bind fun _ =>
    (within_token (by decide)).maybe.bind fun _ => (within_token (by decide)).maybe.bind fun _ =>
      within_amount.bind fun _ => within_pure _
  exact (within_satisfy (by decide)).maybe.bind fun _ => (within_satisfy rfl).bind fun _ =>
    within_amount.maybe.bind fun _ => within_lotPrice.maybe.bind fun _ =>
      hassertion.maybe.bind fun _ => within_comment.maybe.bind fun _ => within_pure _

section

variable (hus : ∀ u ∈ us.head?, u.kind ≠ .indent)

include hus

/-- Behind whole lines an indent is looked for, and not found. -/
theorem unseen_indent_bind {α : Type} {f : Token → Parser α} (hf : ∀ t, Unseen us InLine (f t)) :
    Unseen us Closed (token .indent >>= f) := by
  refine (unseen_indent hus).bind (fun {ts a rest} hts ha => ?_) hf
  have hne : ts ≠ [] := by
    rintro rfl
    cases ha
  have hindent : Inline (token .indent) := inline_token (by decide)
  exact hindent.inLine_of_result ⟨hts, hne⟩ ha

theorem unseen_lines {α : Type} {body : Parser α} [Keeps body] (h : Within us body) :
    Unseen us Closed (many (line body)) := by
  have hline : Unseen us Closed (line body) := unseen_indent_bind hus fun _ =>
    h.bind_unseen fun _ => (unseen_satisfy _).bind_pure _
  exact hline.many closed_of_result

theorem unseen_transaction : Unseen us InLine transaction := by
  have hsecond : Within us secondDate := (within_token (by decide)).bind fun _ =>
    (within_token (by decide)).bind fun _ => within_pure _
  have hmemo : Within us memo := (within_token (by decide)).bind fun _ =>
    (within_token (by decide)).maybe.bind fun _ => within_pure _
  have hdescription : Within us description := (within_token (by decide)).bind fun _ =>
    hmemo.maybe.bind fun _ => within_pure _
  have hcontent : Within us content := (within_posting.map _).orElse (within_comment.map _)
  exact (within_token (by decide)).bind_unseen fun _ => hsecond.maybe.bind_unseen fun _ =>
    (within_satisfy (by decide)).maybe.bind_unseen fun _ =>
      (within_token (by decide)).maybe.bind_unseen fun _ => hdescription.maybe.bind_unseen fun _ =>
        within_comment.maybe.bind_unseen fun _ => (unseen_satisfy _).bind_closed fun _ =>
          (unseen_lines hus hcontent).bind_pure _

omit hus in
theorem unseen_lineComment : Unseen us InLine lineComment :=
  (within_token (by decide)).bind_unseen fun _ =>
    (within_token (by decide)).maybe.bind_unseen fun _ => (unseen_satisfy _).bind_pure _

omit hus in
theorem unseen_priceDirective : Unseen us InLine priceDirective :=
  (within_token (by decide)).bind_unseen fun _ => (within_token (by decide)).bind_unseen fun _ =>
    (within_token (by decide)).bind_unseen fun _ => within_amount.bind_unseen fun _ =>
      within_comment.maybe.bind_unseen fun _ => (unseen_satisfy _).bind_pure _

theorem unseen_accountDirective : Unseen us InLine accountDirective := by
  have haccount : Within us declaredAccount :=
    (within_token (by decide)).orElse ((within_satisfy rfl).refuse (satisfy_of_not rfl) _)
  exact (within_token (by decide)).bind_unseen fun _ => haccount.bind_unseen fun _ =>
    within_comment.maybe.bind_unseen fun _ => (unseen_satisfy _).bind_closed fun _ =>
      (unseen_lines hus within_comment).bind_pure _

theorem unseen_commodityDirective : Unseen us InLine commodityDirective := by
  have hdeclaration : Within us declaration :=
    (within_amount.map _).orElse ((within_token (by decide)).map _)
  have hformat : Within us format :=
    (within_token (by decide)).bind fun _ => within_amount.bind fun _ => within_pure _
  have hcontent : Within us commodityContent := (hformat.map _).orElse (within_comment.map _)
  exact (within_token (by decide)).bind_unseen fun _ => hdeclaration.bind_unseen fun _ =>
    within_comment.maybe.bind_unseen fun _ => (unseen_satisfy _).maybe.bind_closed fun _ =>
      (unseen_lines hus hcontent).bind_pure _

theorem unseen_defaultDirective : Unseen us InLine defaultDirective := by
  have hcontent : Within us defaultContent :=
    within_comment.orElse ((within_token (by decide)).refuse (satisfy_of_not rfl) _)
  exact (within_token (by decide)).bind_unseen fun _ => within_amount.bind_unseen fun _ =>
    within_comment.maybe.bind_unseen fun _ => (unseen_satisfy _).bind_closed fun _ =>
      (unseen_lines hus hcontent).bind_pure _

/-- **An item does not see what stands behind whole lines.** -/
theorem unseen_item : Unseen us InLine item :=
  ((unseen_transaction hus).map _).orElse <| (unseen_lineComment.map _).orElse <|
    (unseen_priceDirective.map _).orElse <| ((unseen_accountDirective hus).map _).orElse <|
      ((unseen_commodityDirective hus).map _).orElse ((unseen_defaultDirective hus).map _)

/-- **What is given up ends with the lines too.** -/
theorem unseen_brokenRest : Unseen us InLine brokenRest := by
  have hrest : Within us restOfLine := (within_satisfy (by decide)).many
  have hline : Unseen us Closed brokenLine := unseen_indent_bind hus fun _ =>
    hrest.bind_unseen fun _ => (unseen_satisfy _).maybe.bind_pure _
  exact hrest.bind_unseen fun _ => (unseen_satisfy _).maybe.bind_closed fun _ =>
    (hline.many closed_of_result).bind_pure _

end

end Grammar

end Daybook.Tree
