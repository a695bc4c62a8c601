import Daybook.Tree.Grammar

/-!
# Where tests fail

A rule looks at most one line past what it takes. Behind an item that was read the tests that
failed lie in the next line at the latest, and where no item can be read they lie in the first line.
So what is reported is always found where reading stopped. What is refused is a token of a line and
never its break or its indentation.

* `Failure.RefusesToken f`: if `f` is a refusal, a token that is no line break and no indentation is
  refused.
* `Near p`: the tests of `p` that fail lie in the first line of what `p` leaves, or in front of it.
* `Inline p`: `p` also stays in front of the next line break itself.
* `Sure p`: `p` never fails.

Results:
* `near_item`, `near_brokenRest`: **this holds of the rules that segments are cut with.**
-/

namespace Daybook.Tree

/-- If this is a refusal, a token that is no line break and no indentation is refused. -/
def Failure.RefusesToken (f : Failure) : Prop :=
  f.refusal.isSome → ∃ t ∈ f.rest.head?, t.kind ≠ .newline ∧ t.kind ≠ .indent

theorem Failure.refusesToken_of_none (ts : List Token) : (⟨ts, none⟩ : Failure).RefusesToken :=
  fun h => absurd h (by simp)

namespace Parser

variable {α β : Type} {p q : Parser α} {f : α → Parser β} {ts rest more : List Token} {n : Token}

/-- The tests that fail lie in what was given, and not behind the first line of what is left. -/
structure Near (p : Parser α) : Prop where
  isSuffix : ∀ {ts : List Token} {g : Failure}, g ∈ (p ts).failures → g.rest <:+ ts
  line : ∀ {ts more : List Token} {n : Token} {g : Failure}, g ∈ (p ts).failures →
    n.kind = .newline → n :: more <:+ p.left ts → n :: more <:+ g.rest
  refused : ∀ {ts : List Token} {g : Failure}, g ∈ (p ts).failures → g.RefusesToken

/-- The parser stays in front of the next line break, and so do the tests that fail. -/
structure Inline (p : Parser α) : Prop extends Near p where
  stays : ∀ {ts more : List Token} {n : Token}, n.kind = .newline →
    n :: more <:+ ts → n :: more <:+ p.left ts

/-- The parser never fails. -/
class Sure (p : Parser α) : Prop where
  exists_result : ∀ ts : List Token, ∃ a rest, (p ts).result = some (a, rest)

/-! ## Single tests -/

theorem near_satisfy (test : Kind → Bool) : Near (satisfy test) := by
  have hfails : ∀ {ts : List Token} {g : Failure}, g ∈ (satisfy test ts).failures →
      g = ⟨ts, none⟩ ∧ (satisfy test ts).result = none := by
    intro ts g hg
    unfold satisfy at hg ⊢
    split at hg
    · exact ⟨List.mem_singleton.mp hg, rfl⟩
    · next t ts =>
      by_cases ht : test t.kind
      · simp [ht] at hg
      · rw [if_neg ht] at hg
        exact ⟨List.mem_singleton.mp hg, by simp [ht]⟩
  constructor
  · intro ts g hg
    obtain ⟨rfl, -⟩ := hfails hg
    exact List.suffix_refl ts
  · intro ts more n g hg _ hsuffix
    obtain ⟨rfl, hnone⟩ := hfails hg
    rwa [left_of_none hnone] at hsuffix
  · intro ts g hg
    rw [(hfails hg).1]
    exact Failure.refusesToken_of_none ts

theorem inline_satisfy {test : Kind → Bool} (htest : test .newline = false) :
    Inline (satisfy test) where
  toNear := near_satisfy test
  stays {ts more n} hn hsuffix := by
    cases ts with
    | nil => exact hsuffix
    | cons t ts =>
      by_cases ht : test t.kind
      · rw [left_of_eq (show (satisfy test (t :: ts)).result = some (t, ts) by simp [satisfy, ht])]
        rcases List.suffix_cons_iff.mp hsuffix with heq | htail
        · obtain ⟨rfl, -⟩ := List.cons.inj heq
          rw [hn, htest] at ht
          exact absurd ht (by decide)
        · exact htail
      · rwa [left_of_none (by simp [satisfy, ht])]

/-- A token that fails the test is not taken. -/
theorem satisfy_of_not {test : Kind → Bool} {kind : Kind} (htest : test kind = false) {t : Token}
    (ht : t.kind = kind) : (satisfy test (t :: ts)).result = none := by
  simp [satisfy, ht, htest]

theorem inline_token {kind : Kind} (hkind : kind ≠ .newline) : Inline (token kind) :=
  inline_satisfy (by simpa using hkind.symm)

theorem inline_pure (a : α) : Inline (pure a) where
  isSuffix hg := absurd hg List.not_mem_nil
  line hg := absurd hg List.not_mem_nil
  refused hg := absurd hg List.not_mem_nil
  stays _ hsuffix := hsuffix

/-! ## One parser after another -/

/-- What is left by one parser after another. -/
theorem left_bind {a : α} (h : (p ts).result = some (a, rest)) :
    (p >>= f).left ts = (f a).left rest ∨ (p >>= f).left ts = ts ∧ ((f a) rest).result = none := by
  have hresult : ((p >>= f) ts).result = (f a rest).result := result_bind_of_eq h
  cases hf : (f a rest).result with
  | none => exact .inr ⟨left_of_none (hresult.trans hf), rfl⟩
  | some reply => exact .inl ((left_of_eq (hresult.trans hf)).trans (left_of_eq hf).symm)

/-- A failure of one parser after another is one of either. -/
theorem mem_failures_bind {g : Failure} (h : g ∈ ((p >>= f) ts).failures) :
    g ∈ (p ts).failures ∨ ∃ a mid, (p ts).result = some (a, mid) ∧ g ∈ (f a mid).failures := by
  change g ∈ (andThen p f ts).failures at h
  unfold andThen at h
  cases hp : (p ts).result with
  | none =>
    rw [hp] at h
    exact .inl h
  | some reply =>
    rw [hp] at h
    rcases List.mem_append.mp h with hleft | hright
    · exact .inl hleft
    · exact .inr ⟨reply.1, reply.2, rfl, hright⟩

/-- What is refused by one parser after another. -/
theorem refused_bind (hp : Near p) (hf : ∀ a, Near (f a)) {g : Failure}
    (hg : g ∈ ((p >>= f) ts).failures) : g.RefusesToken := by
  rcases mem_failures_bind hg with hleft | ⟨a, mid, -, hright⟩
  · exact hp.refused hleft
  · exact (hf a).refused hright

theorem Inline.bind_near [Keeps p] [∀ a, Keeps (f a)] (hp : Inline p) (hf : ∀ a, Near (f a)) :
    Near (p >>= f) where
  isSuffix hg := by
    rcases mem_failures_bind hg with hleft | ⟨a, mid, ha, hright⟩
    · exact hp.isSuffix hleft
    · exact ((hf a).isSuffix hright).trans (p.isSuffix ha)
  line {ts more n g} hg hn hsuffix := by
    have hgiven := hsuffix.trans (left_isSuffix (p >>= f) ts)
    rcases mem_failures_bind hg with hleft | ⟨a, mid, ha, hright⟩
    · exact hp.line hleft hn (hp.stays hn hgiven)
    · refine (hf a).line hright hn ?_
      rcases left_bind (f := f) ha with heq | ⟨-, hnone⟩
      · rwa [heq] at hsuffix
      · rw [left_of_none hnone, ← left_of_eq ha]
        exact hp.stays hn hgiven
  refused := refused_bind hp.toNear hf

theorem Inline.bind [Keeps p] [∀ a, Keeps (f a)] (hp : Inline p) (hf : ∀ a, Inline (f a)) :
    Inline (p >>= f) where
  toNear := hp.bind_near fun a => (hf a).toNear
  stays {ts more n} hn hsuffix := by
    cases ha : (p ts).result with
    | none => rwa [left_of_none (result_bind_of_none ha)]
    | some reply =>
      have hmid := hp.stays hn hsuffix
      rw [left_of_eq ha] at hmid
      rcases left_bind (f := f) ha with heq | ⟨heq, -⟩
      · rw [heq]
        exact (hf reply.1).stays hn hmid
      · rwa [heq]

/-- Behind a line break nothing must fail. -/
theorem Near.bind_sure [∀ a, Keeps (f a)] [∀ a, Sure (f a)] [Keeps p] (hp : Near p)
    (hf : ∀ a, Near (f a)) : Near (p >>= f) where
  isSuffix hg := by
    rcases mem_failures_bind hg with hleft | ⟨a, mid, ha, hright⟩
    · exact hp.isSuffix hleft
    · exact ((hf a).isSuffix hright).trans (p.isSuffix ha)
  line {ts more n g} hg hn hsuffix := by
    have hmid {a : α} {mid : List Token} (ha : (p ts).result = some (a, mid)) :
        n :: more <:+ (f a).left mid := by
      rcases left_bind (f := f) ha with heq | ⟨-, hnone⟩
      · rwa [heq] at hsuffix
      · obtain ⟨b, rest, hb⟩ := Sure.exists_result (p := f a) mid
        exact absurd (hnone.symm.trans hb) (by simp)
    rcases mem_failures_bind hg with hleft | ⟨a, mid, ha, hright⟩
    · refine hp.line hleft hn ?_
      cases ha : (p ts).result with
      | none => rwa [left_of_none (result_bind_of_none ha), ← left_of_none ha] at hsuffix
      | some reply =>
        rw [left_of_eq ha]
        exact (hmid ha).trans (left_isSuffix (f reply.1) reply.2)
    · exact (hf a).line hright hn (hmid ha)
  refused := refused_bind hp hf

theorem Inline.map [Keeps p] (hp : Inline p) (g : α → β) : Inline (g <$> p) := by
  show Inline (p >>= fun a => pure (g a))
  exact hp.bind fun a => inline_pure (g a)

instance sure_pure (a : α) : Sure (pure a : Parser α) := ⟨fun ts => ⟨a, ts, rfl⟩⟩

instance sure_bind (p : Parser α) (f : α → Parser β) [Sure p] [∀ a, Sure (f a)] :
    Sure (p >>= f) where
  exists_result ts := by
    obtain ⟨a, mid, ha⟩ := Sure.exists_result (p := p) ts
    obtain ⟨b, rest, hb⟩ := Sure.exists_result (p := f a) mid
    exact ⟨b, rest, (result_bind_of_eq ha).trans hb⟩

/-- What is left where the second parser cannot fail. -/
theorem left_bind_sure [∀ a, Sure (f a)] {a : α} (h : (p ts).result = some (a, rest)) :
    (p >>= f).left ts = (f a).left rest := by
  obtain ⟨b, more, hb⟩ := Sure.exists_result (p := f a) rest
  exact (left_of_eq ((result_bind_of_eq h).trans hb)).trans (left_of_eq hb).symm

theorem Near.bind_pure [Keeps p] (hp : Near p) (g : α → β) : Near (p >>= fun a => pure (g a)) :=
  hp.bind_sure fun a => (inline_pure (g a)).toNear

theorem Near.map [Keeps p] (hp : Near p) (g : α → β) : Near (g <$> p) := hp.bind_pure g

/-! ## Choices and repetitions -/

theorem mem_failures_orElse {g : Failure} (h : g ∈ (orElse p q ts).failures) :
    g ∈ (p ts).failures ∨ (p ts).result = none ∧ g ∈ (q ts).failures := by
  unfold orElse at h
  cases hp : (p ts).result with
  | some reply =>
    rw [hp] at h
    exact .inl h
  | none =>
    rw [hp] at h
    rcases List.mem_append.mp h with hleft | hright
    · exact .inl hleft
    · exact .inr ⟨rfl, hright⟩

/-- What is left by a choice. -/
theorem left_orElse (p q : Parser α) (ts : List Token) : (orElse p q).left ts = p.left ts ∨
    (p ts).result = none ∧ (orElse p q).left ts = q.left ts := by
  cases hp : (p ts).result with
  | some reply => exact .inl ((left_of_eq (result_orElse_of_eq hp)).trans (left_of_eq hp).symm)
  | none =>
    refine .inr ⟨rfl, ?_⟩
    rw [left, result_orElse_of_none hp]
    rfl

theorem Near.orElse [Keeps q] (hp : Near p) (hq : Near q) : Near (orElse p q) where
  isSuffix hg := by
    rcases mem_failures_orElse hg with hleft | ⟨-, hright⟩
    · exact hp.isSuffix hleft
    · exact hq.isSuffix hright
  line {ts more n g} hg hn hsuffix := by
    rcases mem_failures_orElse hg with hleft | ⟨hnone, hright⟩
    · refine hp.line hleft hn ?_
      rcases left_orElse p q ts with heq | ⟨hnone, heq⟩
      · rwa [heq] at hsuffix
      · rw [heq] at hsuffix
        rw [left_of_none hnone]
        exact hsuffix.trans (left_isSuffix q ts)
    · refine hq.line hright hn ?_
      rwa [left, result_orElse_of_none hnone] at hsuffix
  refused hg := by
    rcases mem_failures_orElse hg with hleft | ⟨-, hright⟩
    · exact hp.refused hleft
    · exact hq.refused hright

theorem Inline.orElse [Keeps q] (hp : Inline p) (hq : Inline q) : Inline (orElse p q) where
  toNear := hp.toNear.orElse hq.toNear
  stays {ts more n} hn hsuffix := by
    rcases left_orElse p q ts with heq | ⟨-, heq⟩
    · rw [heq]
      exact hp.stays hn hsuffix
    · rw [heq]
      exact hq.stays hn hsuffix

theorem Near.maybe [Keeps p] (hp : Near p) : Near (maybe p) :=
  (hp.map some).orElse (inline_pure none).toNear

theorem Inline.maybe [Keeps p] (hp : Inline p) : Inline (maybe p) :=
  (hp.map some).orElse (inline_pure none)

instance sure_maybe (p : Parser α) : Sure (maybe p) where
  exists_result ts := by
    cases hp : ((some <$> p) ts).result with
    | some reply => exact ⟨reply.1, reply.2, result_orElse_of_eq hp⟩
    | none => exact ⟨none, ts, result_orElse_of_none hp⟩

/-- What is refused must not be an indentation. -/
theorem Inline.refuse [Takes p] (hp : Inline p)
    (hindent : ∀ {t : Token} {ts : List Token}, t.kind = .indent → (p (t :: ts)).result = none)
    (cause : Refusal) : Inline (refuse p cause : Parser β) := by
  have hleft (ts : List Token) : (Parser.refuse p cause : Parser β).left ts = ts :=
    left_of_none (result_refuse p cause ts)
  have hfailure {ts : List Token} {g : Failure}
      (hg : g ∈ (Parser.refuse p cause ts : Reply β).failures) :
      g ∈ (p ts).failures ∨ g.rest = ts ∧ g.RefusesToken := by
    unfold Parser.refuse at hg
    split at hg
    · exact .inl hg
    · next reply hresult =>
      rcases List.mem_append.mp hg with hp' | hlast
      · exact .inl hp'
      · rw [List.mem_singleton.mp hlast]
        have hlt := p.length_lt hresult
        obtain ⟨t, more, rfl⟩ : ∃ t more, ts = t :: more :=
          List.exists_cons_of_length_pos (Nat.lt_of_le_of_lt (Nat.zero_le _) hlt)
        refine .inr ⟨rfl, fun _ => ⟨t, rfl, fun hbreak => ?_, fun hkind => ?_⟩⟩
        · -- a parser that stays in front of the break takes nothing there
          have hstays := hp.stays hbreak (List.suffix_refl (t :: more))
          rw [left_of_eq hresult] at hstays
          exact absurd hstays.length_le (Nat.not_le_of_lt hlt)
        · rw [hindent hkind] at hresult
          exact absurd hresult (by simp)
  refine ⟨⟨fun hg => ?_, fun hg hn hsuffix => ?_, fun hg => ?_⟩, fun hn hsuffix => ?_⟩
  · rcases hfailure hg with hp' | ⟨heq, -⟩
    · exact hp.isSuffix hp'
    · exact heq ▸ List.suffix_refl _
  · rw [hleft] at hsuffix
    rcases hfailure hg with hp' | ⟨heq, -⟩
    · exact hp.line hp' hn (hp.stays hn hsuffix)
    · rwa [heq]
  · rcases hfailure hg with hp' | ⟨-, hrefused⟩
    · exact hp.refused hp'
    · exact hrefused
  · rwa [hleft]

instance sure_many (p : Parser α) : Sure (many p) where
  exists_result ts := by
    show ∃ as rest, (repeatOn p ts).result = some (as, rest)
    fun_induction repeatOn p ts with
    | case1 ts hp => exact ⟨[], ts, rfl⟩
    | case2 =>
      rename_i ts a mid ha hlt more ih
      obtain ⟨as, rest, has⟩ := ih
      exact ⟨a :: as, rest, by rw [has]; rfl⟩
    | case3 ts a mid ha hlt => exact ⟨[a], mid, rfl⟩

theorem left_many (p : Parser α) {a : α} (h : (p ts).result = some (a, rest))
    (hlt : rest.length < ts.length) : (many p).left ts = (many p).left rest := by
  obtain ⟨as, more, has⟩ := Sure.exists_result (p := many p) rest
  have hresult : (many p ts).result = some (a :: as, more) := by
    show (repeatOn p ts).result = _
    rw [repeatOn, h]
    simp only [if_pos hlt]
    rw [show (repeatOn p rest).result = _ from has]
    rfl
  rw [left_of_eq hresult, left_of_eq has]

theorem left_many_of_none (h : (p ts).result = none) : (many p).left ts = ts := by
  refine left_of_eq (a := []) ?_
  show (repeatOn p ts).result = _
  rw [repeatOn, h]

theorem Near.many [Takes p] (hp : Near p) : Near (many p) := by
  suffices h : ∀ ts, ∀ g ∈ (repeatOn p ts).failures, g.RefusesToken ∧ g.rest <:+ ts ∧
      ∀ n more, n.kind = Kind.newline → n :: more <:+ (Parser.many p).left ts →
        n :: more <:+ g.rest from
    ⟨fun hg => (h _ _ hg).2.1, fun hg hn hsuffix => (h _ _ hg).2.2 _ _ hn hsuffix,
      fun hg => (h _ _ hg).1⟩
  intro ts
  fun_induction repeatOn p ts with
  | case1 ts hnone =>
    intro g hg
    refine ⟨hp.refused hg, hp.isSuffix hg, fun n more hn hsuffix => hp.line hg hn ?_⟩
    rwa [left_many_of_none hnone, ← left_of_none hnone] at hsuffix
  | case2 =>
    rename_i ts a mid ha hlt reply ih
    intro g hg
    rw [left_many p ha hlt]
    rcases List.mem_append.mp hg with hfirst | hmore
    · refine ⟨hp.refused hfirst, hp.isSuffix hfirst, fun n more hn hsuffix =>
        hp.line hfirst hn ?_⟩
      rw [left_of_eq ha]
      exact hsuffix.trans (left_isSuffix (Parser.many p) mid)
    · obtain ⟨hrefused, hrest, hline⟩ := ih g hmore
      exact ⟨hrefused, hrest.trans (p.isSuffix ha), hline⟩
  | case3 ts a mid ha hlt => exact absurd (p.length_lt ha) hlt

theorem Inline.many [Takes p] (hp : Inline p) : Inline (many p) where
  toNear := hp.toNear.many
  stays {ts more n} hn := by
    fun_induction repeatOn p ts with
    | case1 ts hnone =>
      rw [left_many_of_none hnone]
      exact id
    | case2 =>
      rename_i ts a mid ha hlt reply ih
      intro hsuffix
      have hmid := hp.stays hn hsuffix
      rw [left_of_eq ha] at hmid
      rw [left_many p ha hlt]
      exact ih hmid
    | case3 ts a mid ha hlt => exact absurd (p.length_lt ha) hlt

end Parser

/-! ## The rules -/

namespace Grammar

open Daybook.Tree.Parser

theorem inline_comment : Inline comment := by
  have htag : Inline tag := (inline_token (by decide)).bind fun _ =>
    (inline_token (by decide)).bind fun _ => (inline_token (by decide)).maybe.bind fun _ =>
      (inline_token (by decide)).maybe.bind fun _ => inline_pure _
  have hpart : Inline (orElse (CommentPart.tag <$> tag) (.text <$> token .inlineText)) :=
    (htag.map _).orElse ((inline_token (by decide)).map _)
  exact (inline_token (by decide)).bind fun _ => hpart.many.bind fun _ => inline_pure _

theorem inline_amount : Inline amount := by
  have hcommodity : Inline commodityFirst := (inline_token (by decide)).maybe.bind fun _ =>
    (inline_token (by decide)).bind fun _ => (inline_token (by decide)).bind fun _ => inline_pure _
  have hnumber : Inline numberFirst := (inline_token (by decide)).bind fun _ =>
    (inline_token (by decide)).maybe.bind fun _ => inline_pure _
  exact hcommodity.orElse hnumber

theorem inline_lotPrice : Inline lotPrice := by
  have hsigns : Inline lotSigns := (inline_token (by decide)).bind fun _ =>
    (inline_token (by decide)).maybe.bind fun _ => inline_pure _
  have hvirtual : Inline virtualLotSigns := (inline_token (by decide)).bind fun _ =>
    hsigns.bind fun _ => (inline_token (by decide)).bind fun _ => inline_pure _
  exact (hvirtual.orElse (hsigns.map _)).bind fun _ => inline_amount.bind fun _ => inline_pure _

theorem inline_posting : Inline posting := by
  have hassertion : Inline assertion := (inline_token (by decide)).bind fun _ =>
    (inline_token (by decide)).maybe.bind fun _ => (inline_token (by decide)).maybe.bind fun _ =>
      inline_amount.bind fun _ => inline_pure _
  exact (inline_satisfy (by decide)).maybe.bind fun _ => (inline_satisfy rfl).bind fun _ =>
    inline_amount.maybe.bind fun _ => inline_lotPrice.maybe.bind fun _ =>
      hassertion.maybe.bind fun _ => inline_comment.maybe.bind fun _ => inline_pure _

theorem near_line {α : Type} {body : Parser α} [Keeps body] (h : Inline body) :
    Near (line body) :=
  (inline_token (by decide)).bind_near fun _ => h.bind_near fun _ => (near_satisfy _).bind_pure _

theorem near_transaction : Near transaction := by
  have hsecond : Inline secondDate := (inline_token (by decide)).bind fun _ =>
    (inline_token (by decide)).bind fun _ => inline_pure _
  have hmemo : Inline memo := (inline_token (by decide)).bind fun _ =>
    (inline_token (by decide)).maybe.bind fun _ => inline_pure _
  have hdescription : Inline description := (inline_token (by decide)).bind fun _ =>
    hmemo.maybe.bind fun _ => inline_pure _
  have hcontent : Inline content := (inline_posting.map _).orElse (inline_comment.map _)
  exact (inline_token (by decide)).bind_near fun _ => hsecond.maybe.bind_near fun _ =>
    (inline_satisfy (by decide)).maybe.bind_near fun _ =>
      (inline_token (by decide)).maybe.bind_near fun _ => hdescription.maybe.bind_near fun _ =>
        inline_comment.maybe.bind_near fun _ => (near_satisfy _).bind_sure fun _ =>
          (near_line hcontent).many.bind_pure _

theorem near_lineComment : Near lineComment :=
  (inline_token (by decide)).bind_near fun _ => (inline_token (by decide)).maybe.bind_near fun _ =>
    (near_satisfy _).bind_pure _

theorem near_priceDirective : Near priceDirective :=
  (inline_token (by decide)).bind_near fun _ => (inline_token (by decide)).bind_near fun _ =>
    (inline_token (by decide)).bind_near fun _ => inline_amount.bind_near fun _ =>
      inline_comment.maybe.bind_near fun _ => (near_satisfy _).bind_pure _

theorem near_accountDirective : Near accountDirective := by
  have haccount : Inline declaredAccount :=
    (inline_token (by decide)).orElse ((inline_satisfy rfl).refuse (satisfy_of_not rfl) _)
  exact (inline_token (by decide)).bind_near fun _ => haccount.bind_near fun _ =>
    inline_comment.maybe.bind_near fun _ => (near_satisfy _).bind_sure fun _ =>
      (near_line inline_comment).many.bind_pure _

theorem near_commodityDirective : Near commodityDirective := by
  have hdeclaration : Inline declaration :=
    (inline_amount.map _).orElse ((inline_token (by decide)).map _)
  have hformat : Inline format :=
    (inline_token (by decide)).bind fun _ => inline_amount.bind fun _ => inline_pure _
  have hcontent : Inline commodityContent := (hformat.map _).orElse (inline_comment.map _)
  exact (inline_token (by decide)).bind_near fun _ => hdeclaration.bind_near fun _ =>
    inline_comment.maybe.bind_near fun _ => (near_satisfy _).maybe.bind_sure fun _ =>
      (near_line hcontent).many.bind_pure _

theorem near_defaultDirective : Near defaultDirective := by
  have hcontent : Inline defaultContent :=
    inline_comment.orElse ((inline_token (by decide)).refuse (satisfy_of_not rfl) _)
  exact (inline_token (by decide)).bind_near fun _ => inline_amount.bind_near fun _ =>
    inline_comment.maybe.bind_near fun _ => (near_satisfy _).bind_sure fun _ =>
      (near_line hcontent).many.bind_pure _

/-- **The tests for an item fail in the next line at the latest.** -/
theorem near_item : Near item :=
  (near_transaction.map _).orElse <| (near_lineComment.map _).orElse <|
    (near_priceDirective.map _).orElse <| (near_accountDirective.map _).orElse <|
      (near_commodityDirective.map _).orElse (near_defaultDirective.map _)

theorem near_brokenRest : Near brokenRest := by
  have hrest : Inline restOfLine := (inline_satisfy (by decide)).many
  have hline : Near brokenLine := (inline_token (by decide)).bind_near fun _ =>
    hrest.bind_near fun _ => (near_satisfy _).maybe.bind_pure _
  exact hrest.bind_near fun _ => (near_satisfy _).maybe.bind_sure fun _ => hline.many.bind_pure _

end Grammar

end Daybook.Tree
