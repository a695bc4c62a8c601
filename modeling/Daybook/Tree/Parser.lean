import Daybook.Token.Basic

/-!
# Parsers of tokens

Model of the parsers that the rules of the grammar are made of (`tok`, choice, options, repetition,
and the refusals of `account_directive` and `default_commodity_directive`). A parser takes tokens
from the front of a list or fails. Choices are ordered and a failed branch gives its tokens back,
but every test that failed on the way is remembered, in the order of the tests: from these failures
the one to report is chosen later. What a parser takes does not depend on what is remembered.

Out of scope: what would have been expected in place of a token that failed. Of a failure only the
place and the reason are kept, as `to_parse_error` looks at no more.

Results:
* `Keeps p`: what `p` leaves is an end of what it was given. Every combinator has this property.
* `Takes p`: `p` takes at least one token when it succeeds.
-/

namespace Daybook.Tree

/-- Why tokens that fit a rule are refused all the same. -/
inductive Refusal
  /-- Only real accounts can be declared. -/
  | virtualAccount
  /-- A format stands only under a commodity. -/
  | formatLine
deriving DecidableEq, Repr

/-- A test that failed. -/
structure Failure where
  /-- The tokens from the tested one on; none at the end. -/
  rest : List Token
  /-- Why the token was refused; none if it is of the wrong kind. -/
  refusal : Option Refusal := none
deriving DecidableEq

namespace Failure

/-- The tokens that were never looked at: all after the tested one. A refused token counts as not
looked at, for the rule looks at it again. -/
def ahead (f : Failure) : Nat :=
  match f.refusal with
  | none => f.rest.tail.length
  | some _ => f.rest.length

/-- Which of two failures to report: the one that came further, of two that came equally far the
earlier one. A refusal is reported whatever came before it. -/
def furthest (first next : Failure) : Failure :=
  if next.refusal.isSome || next.ahead < first.ahead then next else first

/-- The failure to report of some that came one after the other, if there is any. -/
def furthest? : List Failure → Option Failure
  | [] => none
  | first :: more => some (more.foldl furthest first)

end Failure

/-- What a parser answers. -/
structure Reply (α : Type) where
  /-- What was read and the tokens left, if it succeeds. -/
  result : Option (α × List Token)
  /-- The tests that failed, in order. -/
  failures : List Failure

/-- A parser of tokens. -/
def Parser (α : Type) : Type := List Token → Reply α

namespace Parser

variable {α β : Type}

/-- Take nothing. -/
def succeed (a : α) : Parser α := fun ts => ⟨some (a, ts), []⟩

/-- One parser after another. -/
def andThen (p : Parser α) (f : α → Parser β) : Parser β := fun ts =>
  match (p ts).result with
  | none => ⟨none, (p ts).failures⟩
  | some (a, rest) => ⟨(f a rest).result, (p ts).failures ++ (f a rest).failures⟩

instance : Monad Parser where
  pure := succeed
  bind := andThen

/-- A token of a kind that passes a test. -/
def satisfy (test : Kind → Bool) : Parser Token
  | [] => ⟨none, [⟨[], none⟩]⟩
  | t :: ts => if test t.kind then ⟨some (t, ts), []⟩ else ⟨none, [⟨t :: ts, none⟩]⟩

/-- A token of this kind. -/
def token (kind : Kind) : Parser Token := satisfy (· = kind)

/-- The first parser, or the second if the first fails. -/
def orElse (p q : Parser α) : Parser α := fun ts =>
  match (p ts).result with
  | some a => ⟨some a, (p ts).failures⟩
  | none => ⟨(q ts).result, (p ts).failures ++ (q ts).failures⟩

/-- The parser, or nothing. -/
def maybe (p : Parser α) : Parser (Option α) := orElse (some <$> p) (pure none)

/-- Fail where the parser succeeds. -/
def refuse (p : Parser α) (cause : Refusal) : Parser β := fun ts =>
  match (p ts).result with
  | none => ⟨none, (p ts).failures⟩
  | some _ => ⟨none, (p ts).failures ++ [⟨ts, some cause⟩]⟩

/-- What the parser takes of these tokens as often as it succeeds and takes something. -/
def repeatOn (p : Parser α) (ts : List Token) : Reply (List α) :=
  match (p ts).result with
  | none => ⟨some ([], ts), (p ts).failures⟩
  | some (a, rest) =>
    if rest.length < ts.length then
      let more := repeatOn p rest
      ⟨more.result.map fun (as, left) => (a :: as, left), (p ts).failures ++ more.failures⟩
    else ⟨some ([a], rest), (p ts).failures⟩
termination_by ts.length

/-- The parser as often as it succeeds and takes something. -/
def many (p : Parser α) : Parser (List α) := fun ts => repeatOn p ts

/-- What the parser leaves; all of it if the parser fails. -/
def left (p : Parser α) (ts : List Token) : List Token := ((p ts).result.map (·.2)).getD ts

/-! ## What parsers leave -/

/-- What the parser leaves is an end of what it was given. -/
class Keeps (p : Parser α) : Prop where
  isSuffix : ∀ {ts rest : List Token} {a : α}, (p ts).result = some (a, rest) → rest <:+ ts

/-- The parser leaves an end of what it was given, and takes at least one token. -/
class Takes (p : Parser α) : Prop where
  isSuffix_tail : ∀ {ts rest : List Token} {a : α},
    (p ts).result = some (a, rest) → rest <:+ ts ∧ rest.length < ts.length

theorem isSuffix (p : Parser α) [Keeps p] {ts rest : List Token} {a : α}
    (h : (p ts).result = some (a, rest)) : rest <:+ ts := Keeps.isSuffix h

theorem length_lt (p : Parser α) [Takes p] {ts rest : List Token} {a : α}
    (h : (p ts).result = some (a, rest)) : rest.length < ts.length := (Takes.isSuffix_tail h).2

theorem left_of_eq {p : Parser α} {ts rest : List Token} {a : α}
    (h : (p ts).result = some (a, rest)) : p.left ts = rest := by
  rw [left, h]
  rfl

theorem left_of_none {p : Parser α} {ts : List Token} (h : (p ts).result = none) :
    p.left ts = ts := by
  rw [left, h]
  rfl

theorem left_isSuffix (p : Parser α) [Keeps p] (ts : List Token) : p.left ts <:+ ts := by
  unfold left
  cases h : (p ts).result with
  | none => exact List.suffix_refl _
  | some reply => exact p.isSuffix h

instance (priority := low) keeps_of_takes (p : Parser α) [Takes p] : Keeps p :=
  ⟨fun h => (Takes.isSuffix_tail h).1⟩

instance keeps_pure (a : α) : Keeps (pure a : Parser α) where
  isSuffix h := by
    obtain ⟨_, rfl⟩ := Prod.mk.injEq .. ▸ Option.some.inj h
    exact List.suffix_refl _

/-- The result of one parser after another. -/
theorem result_bind {p : Parser α} {f : α → Parser β} {ts rest : List Token} {b : β}
    (h : ((p >>= f) ts).result = some (b, rest)) :
    ∃ a mid, (p ts).result = some (a, mid) ∧ (f a mid).result = some (b, rest) := by
  change (andThen p f ts).result = _ at h
  unfold andThen at h
  split at h
  · simp at h
  · next a mid hp => exact ⟨a, mid, hp, h⟩

theorem result_bind_of_eq {p : Parser α} {f : α → Parser β} {ts rest : List Token} {a : α}
    (h : (p ts).result = some (a, rest)) : ((p >>= f) ts).result = (f a rest).result := by
  change (andThen p f ts).result = _
  unfold andThen
  rw [h]

theorem result_bind_of_none {p : Parser α} {f : α → Parser β} {ts : List Token}
    (h : (p ts).result = none) : ((p >>= f) ts).result = none := by
  change (andThen p f ts).result = none
  unfold andThen
  rw [h]

theorem result_map_of_eq {p : Parser α} (f : α → β) {ts rest : List Token} {a : α}
    (h : (p ts).result = some (a, rest)) : ((f <$> p) ts).result = some (f a, rest) :=
  result_bind_of_eq h

theorem result_map_of_none {p : Parser α} (f : α → β) {ts : List Token}
    (h : (p ts).result = none) : ((f <$> p) ts).result = none := result_bind_of_none h

instance takes_bind (p : Parser α) (f : α → Parser β) [Takes p] [∀ a, Keeps (f a)] :
    Takes (p >>= f) where
  isSuffix_tail h := by
    obtain ⟨a, mid, hp, hf⟩ := result_bind h
    have hmid := Takes.isSuffix_tail hp
    have hrest := (f a).isSuffix hf
    exact ⟨hrest.trans hmid.1, Nat.lt_of_le_of_lt hrest.length_le hmid.2⟩

instance (priority := low) keeps_bind (p : Parser α) (f : α → Parser β) [Keeps p]
    [∀ a, Keeps (f a)] : Keeps (p >>= f) where
  isSuffix h := by
    obtain ⟨a, mid, hp, hf⟩ := result_bind h
    exact ((f a).isSuffix hf).trans (p.isSuffix hp)

instance takes_map (p : Parser α) (f : α → β) [Takes p] : Takes (f <$> p) :=
  inferInstanceAs (Takes (p >>= fun a => pure (f a)))

instance (priority := low) keeps_map (p : Parser α) (f : α → β) [Keeps p] : Keeps (f <$> p) :=
  inferInstanceAs (Keeps (p >>= fun a => pure (f a)))

instance takes_satisfy (test : Kind → Bool) : Takes (satisfy test) where
  isSuffix_tail {ts rest a} h := by
    unfold satisfy at h
    split at h
    · simp at h
    · split at h
      · simp only [Option.some.injEq, Prod.mk.injEq] at h
        obtain ⟨rfl, rfl⟩ := h
        exact ⟨List.suffix_cons _ _, Nat.lt_succ_self _⟩
      · simp at h

instance takes_token (kind : Kind) : Takes (token kind) := takes_satisfy _

/-- The result of a choice is that of one of its branches. -/
theorem result_orElse {p q : Parser α} {ts rest : List Token} {a : α}
    (h : (orElse p q ts).result = some (a, rest)) :
    (p ts).result = some (a, rest) ∨ (p ts).result = none ∧ (q ts).result = some (a, rest) := by
  unfold orElse at h
  split at h
  · next b hp => exact .inl (hp.trans h)
  · next hp => exact .inr ⟨hp, h⟩

theorem result_orElse_of_eq {p q : Parser α} {ts : List Token} {reply : α × List Token}
    (h : (p ts).result = some reply) : (orElse p q ts).result = some reply := by
  unfold orElse
  rw [h]

theorem result_orElse_of_none {p q : Parser α} {ts : List Token} (h : (p ts).result = none) :
    (orElse p q ts).result = (q ts).result := by
  unfold orElse
  rw [h]

instance takes_orElse (p q : Parser α) [Takes p] [Takes q] : Takes (orElse p q) where
  isSuffix_tail h := (result_orElse h).elim Takes.isSuffix_tail fun hq => Takes.isSuffix_tail hq.2

instance (priority := low) keeps_orElse (p q : Parser α) [Keeps p] [Keeps q] :
    Keeps (orElse p q) where
  isSuffix h := (result_orElse h).elim p.isSuffix fun hq => q.isSuffix hq.2

instance keeps_maybe (p : Parser α) [Keeps p] : Keeps (maybe p) :=
  inferInstanceAs (Keeps (orElse (some <$> p) (pure none)))

/-- What is refused is never read. -/
theorem result_refuse (p : Parser α) (cause : Refusal) (ts : List Token) :
    (refuse p cause ts : Reply β).result = none := by
  unfold refuse
  split <;> rfl

instance takes_refuse (p : Parser α) (cause : Refusal) : Takes (refuse p cause : Parser β) where
  isSuffix_tail h := by
    rw [result_refuse] at h
    exact absurd h (by simp)

theorem repeatOn_isSuffix (p : Parser α) [Keeps p] (ts : List Token) :
    ∀ {as : List α} {rest : List Token},
      (repeatOn p ts).result = some (as, rest) → rest <:+ ts := by
  fun_induction repeatOn p ts with
  | case1 ts hp =>
    intro as rest h
    simp only [Option.some.injEq, Prod.mk.injEq] at h
    exact h.2 ▸ List.suffix_refl _
  | case2 =>
    rename_i ts a mid hp hlt more ih
    intro as rest h
    obtain ⟨⟨bs, left⟩, hmore, heq⟩ := Option.map_eq_some_iff.mp h
    simp only [Prod.mk.injEq] at heq
    exact heq.2 ▸ (ih hmore).trans (p.isSuffix hp)
  | case3 ts a mid hp hlt =>
    intro as rest h
    simp only [Option.some.injEq, Prod.mk.injEq] at h
    exact h.2 ▸ p.isSuffix hp

instance keeps_many (p : Parser α) [Keeps p] : Keeps (many p) := ⟨fun h => repeatOn_isSuffix p _ h⟩

end Parser

end Daybook.Tree
