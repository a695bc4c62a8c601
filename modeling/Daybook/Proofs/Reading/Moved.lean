import Daybook.Proofs.Reading.Append
import Daybook.Proofs.Token.Row
import Daybook.Proofs.Tree.Exact

/-!
# Lines that are moved

What a journal says and what is reported about it does not depend on where its lines stand, nor on
the texts of line breaks and indentations: the grammar looks at kinds only, and what is written on a
line keeps its texts and gaps as long as the line is moved as a whole.

* `MovesLines g d`: `g` replaces line breaks and indentations, and moves the other tokens of a line
  by the same number of bytes.
* `OnLines A`: some word of the language stands on the lines of a source.

Results:
* `MovesLines.carries`: what is spelled on lines says the same.
* `MovesLines.faults`: **the same faults are reported.**
* `MovesLines.mapM_ofTree`: **the items say the same.**
-/

namespace Daybook

open Daybook.Text Daybook.Tree

/-! ## What stands on lines -/

/-- Some word of the language stands on the lines of a source. -/
def OnLines (A : Language Token) : Prop := ∃ ts ∈ A, ts.IsChain Token.Precedes

variable {ts : List Token}

/-- No line break and no indentation is part of an amount. -/
theorem kind_of_mem_amount {a : Tree.Amount} (hts : ts ∈ a.spellings) :
    ∀ t ∈ ts, t.kind ≠ .newline ∧ t.kind ≠ .indent := by
  have hword := (Grammar.reads_amount.kinds ts).mpr ⟨a, trivial, hts⟩
  intro t ht
  have hmem := Production.mem_uses hword _ (List.mem_map_of_mem ht)
  refine ⟨fun hkind => ?_, fun hkind => ?_⟩ <;>
    rw [hkind] at hmem <;>
    exact absurd hmem (by decide)

/-- Line breaks and indentations are replaced by any, and the other tokens of a line are moved by
the same number of bytes. -/
structure MovesLines (g : Token → Token) (d : Nat → Nat) : Prop where
  kind : ∀ t, (g t).kind = t.kind
  payload : ∀ t, (g t).payload = t.payload
  image : ∀ {t : Token}, t.kind ≠ .newline → t.kind ≠ .indent → (g t).image = t.image
  offset : ∀ {t : Token}, t.kind ≠ .newline → t.kind ≠ .indent →
    (g t).offset = t.offset + d t.place.line

namespace MovesLines

variable {g : Token → Token} {d : Nat → Nat} (h : MovesLines g d)

include h

theorem stop {t : Token} (hbreak : t.kind ≠ .newline) (hindent : t.kind ≠ .indent) :
    (g t).stop = t.stop + d t.place.line := by
  have hlength : (g t).length = t.length := by
    rw [Token.length, Token.length, h.image hbreak hindent]
  rw [Token.stop, Token.stop, h.offset hbreak hindent, hlength]
  omega

/-- **What is spelled on lines says the same.** -/
theorem carries : Written.Carries g OnLines where
  kind := h.kind
  payload := h.payload
  mul := by
    rintro A B ⟨_, ⟨us, hus, vs, hvs, rfl⟩, hchain⟩
    exact ⟨⟨us, hus, hchain.left_of_append⟩, ⟨vs, hvs, hchain.right_of_append⟩⟩
  image := by
    rintro test t ⟨_, ⟨rfl, ht⟩, -⟩ hbreak hindent
    exact h.image (fun hkind => by simp [hkind, hbreak] at ht)
      fun hkind => by simp [hkind, hindent] at ht
  amount := by
    rintro a ⟨ts, hts, hchain⟩
    have hkind := kind_of_mem_amount hts
    have hline := line_eq_of_isChain hchain fun t ht =>
      (hkind t (List.dropLast_subset _ ht)).1
    have hmem : ∀ t ∈ a.tokens, t ∈ ts := fun t => (a.rearranges ts hts).mem_iff.mpr
    -- the tokens are moved by the same number of bytes
    have hoffset : ∀ t ∈ a.tokens, ∀ u ∈ a.tokens,
        (g t).offset = t.offset + d u.place.line := fun t ht u hu => by
      rw [← hline t (hmem t ht) u (hmem u hu)]
      exact h.offset (hkind t (hmem t ht)).1 (hkind t (hmem t ht)).2
    have hstop : ∀ t ∈ a.tokens, ∀ u ∈ a.tokens,
        (g t).stop = t.stop + d u.place.line := fun t ht u hu => by
      rw [h.stop (hkind t (hmem t ht)).1 (hkind t (hmem t ht)).2,
        hline t (hmem t ht) u (hmem u hu)]
    refine Written.amount_ofTree_of_tokens h.payload
      (fun t ht => h.image (hkind t (hmem t ht)).1 (hkind t (hmem t ht)).2)
      (fun t ht u hu => ?_) fun t ht u hu => ?_
    · rw [hoffset t ht u hu, hoffset u hu u hu]
      exact Nat.add_le_add_iff_right
    · rw [hstop t ht u hu, hoffset u hu u hu]
      exact Nat.add_lt_add_iff_right

end MovesLines

/-! ## The same faults -/

/-- The fault says the same, if perhaps of another place. -/
def ParseFault.SaysSame (f g : ParseFault) : Prop :=
  g.cause = f.cause ∧ g.context = f.context ∧ g.hint = f.hint

namespace MovesLines

variable {g : Token → Token} {d : Nat → Nat} (h : MovesLines g d)

include h

/-- A token is described by its text, or by its kind alone if it is a line break or an
indentation. -/
theorem describe (t : Token) : (g t).describe = t.describe := by
  have hkind := h.kind t
  by_cases hbreak : t.kind = .newline
  · simp only [Token.describe, hkind, hbreak]
  · by_cases hindent : t.kind = .indent
    · simp only [Token.describe, hkind, hindent]
    · simp only [Token.describe, hkind, h.image hbreak hindent]

/-- A failure that refuses no line break and no indentation is reported the same. -/
theorem fault {f : Failure} (hf : f.RefusesToken) (last : Option Token) :
    (f.fault last).SaysSame ((onTokens g f).fault (last.map g)) := by
  obtain ⟨rest, refusal⟩ := f
  cases rest with
  | nil =>
    cases last with
    | none => exact ⟨rfl, rfl, rfl⟩
    | some last =>
      show (faultAtEnd (some last)).SaysSame (faultAtEnd (some (g last)))
      have hkind := h.kind last
      simp only [faultAtEnd, hkind]
      split <;> exact ⟨rfl, rfl, rfl⟩
  | cons t ts =>
    cases refusal with
    | none => exact ⟨congrArg ParseCause.unexpectedToken (h.describe t), rfl, rfl⟩
    | some cause =>
      cases cause with
      | formatLine => exact ⟨rfl, rfl, rfl⟩
      | virtualAccount =>
        obtain ⟨u, hu, hbreak, hindent⟩ := hf rfl
        obtain rfl := Option.some.inj hu
        exact ⟨congrArg ParseCause.virtualAccount (h.image hbreak hindent), rfl, rfl⟩

/-- **The same faults are reported of a token list.** -/
theorem faults (ts : List Token) :
    List.Forall₂ ParseFault.SaysSame (Tree.ofTokens ts).faults
      (Tree.ofTokens (ts.map g)).faults := by
  have hfailures : (segments (ts.map g)).filterMap Segment.failure? =
      ((segments ts).filterMap Segment.failure?).map (onTokens g) :=
    failures_onTokens h.kind ts
  have hrefuses : ∀ f ∈ (segments ts).filterMap Segment.failure?, f.RefusesToken := by
    intro f hf
    obtain ⟨s, hs, hfailure⟩ := List.mem_filterMap.mp hf
    cases s with
    | broken taken failure =>
      obtain rfl := Option.some.inj hfailure
      exact refusesToken_of_mem_segments hs
    | blank => exact absurd hfailure (by simp [Segment.failure?])
    | item => exact absurd hfailure (by simp [Segment.failure?])
  simp only [Tree.ofTokens, hfailures, List.map_map, List.forall₂_map_left_iff,
    List.forall₂_map_right_iff, List.forall₂_same, List.getLast?_map]
  exact fun f hf => h.fault (hrefuses f hf) _

/-! ## The same items -/

/-- **Items that stand on lines say the same.** -/
theorem mapM_ofTree (hchain : ts.IsChain Token.Precedes) :
    ((Tree.ofTokens (ts.map g)).items.map (·.value)).mapM Written.Item.ofTree =
      ((Tree.ofTokens ts).items.map (·.value)).mapM Written.Item.ofTree := by
  have hitems : (Tree.ofTokens (ts.map g)).items.map (·.value) =
      onTokens g ((Tree.ofTokens ts).items.map (·.value)) := values_items_onTokens h.kind ts
  rw [hitems]
  refine Written.mapM_onTokens fun x hx => ?_
  obtain ⟨y, hy, rfl⟩ := List.mem_map.mp hx
  obtain ⟨t, us, hinfix, hspelled, -⟩ := spelled_of_mem_items hy
  exact Written.item_carried h.carries ⟨_, hspelled, hchain.infix hinfix⟩

end MovesLines

/-! ## What is read, without places -/

/-- What a tree says, without places. -/
theorem values_ofTree (xs : List (Located Tree.Item)) :
    (fun w => w.items.map (·.value)) <$> Written.Journal.ofTree xs =
      (xs.map (·.value)).mapM Written.Item.ofTree := by
  have hitems : (xs.mapM fun x => do
        let item ← Written.Item.ofTree x.value
        return (⟨item, x.span⟩ : Located Written.Item)) >>= (fun items => pure (items.map (·.value))) =
      (xs.map (·.value)).mapM Written.Item.ofTree := by
    induction xs with
    | nil => rfl
    | cons x xs ih =>
      rw [List.map_cons, List.mapM_cons, List.mapM_cons, ← ih]
      simp only [bind_assoc, pure_bind, List.map_cons]
  rw [← hitems, Written.Journal.ofTree, map_eq_pure_bind, bind_assoc]
  rfl

/-- The written journal without places depends on the items of the tree without places. -/
theorem values_readWritten (source : String) :
    (fun r => r.result.items.map (·.value)) <$> readWritten source =
      ((readTree source).result.map (·.value)).mapM Written.Item.ofTree := by
  rw [← values_ofTree]
  simp only [readWritten, Functor.map_map, Reading.withResult]

/-- What is read depends on what the items say, and on no place. -/
theorem result_readJournal (year : Int) (source : String) :
    Reading.result <$> readJournal year source =
      (((readTree source).result.map (·.value)).mapM Written.Item.ofTree >>= fun items =>
        Journal.concat <$> items.mapM (Journal.ofItem year)) := by
  have hmeans : ∀ w, Journal.ofWritten year w =
      Journal.concat <$> (w.items.map (·.value)).mapM (Journal.ofItem year) := fun w => by
    rw [Journal.ofWritten_eq, List.mapM_map]
    rfl
  rw [← values_ofTree]
  simp only [readJournal, readWritten, hmeans, Reading.withResult, map_eq_pure_bind, bind_assoc,
    pure_bind]

end Daybook
