import Daybook.Proofs.Token.Reads
import Daybook.Proofs.Token.Row
import Daybook.Proofs.Tree.Boundary

/-!
# Where items start

In the tokens of a source an item starts with its line, also where faults stand in front of it. Only
a date may open an item in the middle of a line, and only where it is due; but what stands in front
of an item is never a sign that a date is due. About `starts_item` and `journal_item` ([SPEC 4.2]).

* `Token.StartsItem t`: the token stands at the start of a line and opens an item.

Results:
* `startsItem_of_segments`: **the first token of an item starts its line.**
* `not_startsItem_of_mem_tail`: **no other token of the item does.**
-/

namespace Daybook

/-- The token stands at the start of a line and opens an item. -/
def Token.StartsItem (t : Token) : Prop := t.kind.opensItem ∧ t.place.column = 1

instance (t : Token) : Decidable t.StartsItem := inferInstanceAs (Decidable (_ ∧ _))

/-- Columns are counted from 1. -/
theorem column_pos_tokenize (source : String) : ∀ t ∈ (tokenize source).tokens, 0 < t.place.column := by
  intro t ht
  obtain ⟨s, rest, hreached, -, hnotes⟩ := Scanner.exists_notes_of_mem_tokenize ht
  obtain ⟨passed, -, hplace, -⟩ := Scanner.exists_passed hreached
  rw [hnotes.place, hplace]
  exact Text.Place.column_pos_advance Nat.one_pos passed

namespace Tree

variable {source : String} {taken us : List Token} {t : Token} {x : Item} {as bs : List Segment}

/-- **The first token of an item starts its line.** -/
theorem startsItem_of_segments
    (h : segments (tokenize source).tokens = as ++ .item x taken :: bs) :
    ∃ t us, taken = t :: us ∧ t.kind = x.opener ∧ t.StartsItem := by
  have hmem : .item x taken ∈ segments (tokenize source).tokens := by simp [h]
  obtain ⟨t, us, rfl, hkind⟩ := Grammar.exists_opener (mem_spellings_of_mem_segments hmem)
  have hopens : t.kind.opensItem := hkind ▸ opensItem_opener x
  have htokens : (tokenize source).tokens =
      as.flatMap Segment.tokens ++ t :: (us ++ bs.flatMap Segment.tokens) := eq_of_segments h
  suffices hline : t.OpensLine by
    rcases hline with hbreak | ⟨hcolumn, -⟩
    · rw [hbreak] at hopens
      exact absurd hopens (by decide)
    · exact ⟨t, us, rfl, hkind, hopens, hcolumn⟩
  rcases List.eq_nil_or_concat' (as.flatMap Segment.tokens) with hnil | ⟨init, u, hu⟩
  · refine opensLine_tokenize source t ?_
    rw [htokens, hnil]
    rfl
  · have hchain := isChain_tokenize source
    rw [htokens, hu, List.append_assoc] at hchain
    have hprecedes : u.Precedes t := (List.isChain_cons_cons.mp hchain.right_of_append).1
    by_cases hbreak : u.kind = .newline
    · exact hprecedes.opensLine hbreak
    · -- a date is due only behind signs with which no segment ends
      have hlast := kind_in_front h u (by rw [hu]; simp)
      rcases (hprecedes.opensItem hbreak hopens).2 with hsign | hsign <;>
        exact absurd (hsign ▸ hlast) (by decide)

/-- **No other token of the item does.** -/
theorem not_startsItem_of_mem_tail (hchain : (t :: us).IsChain Token.Precedes)
    (hpos : ∀ u ∈ t :: us, 0 < u.place.column) (hx : t :: us ∈ x.spellings) :
    ∀ u ∈ us, ¬ u.StartsItem := by
  have hsame := isChain_of_mem_spellings hx
  clear hx
  induction us generalizing t with
  | nil => simp
  | cons u us ih =>
    obtain ⟨hprecedes, hmore⟩ := List.isChain_cons_cons.mp hchain
    obtain ⟨hends, hblock⟩ := List.isChain_cons_cons.mp hsame
    refine List.forall_mem_cons.mpr ⟨?_, ih hmore (fun v hv => hpos v (List.mem_cons_of_mem t hv)) hblock⟩
    rintro ⟨hopens, hcolumn⟩
    by_cases hbreak : t.kind = .newline
    · -- the next line is indented
      have hindent : u.kind = .indent := by simpa [endsBlock, hbreak] using hends
      rw [hindent] at hopens
      exact absurd hopens (by decide)
    · have hlt := (hprecedes.inLine hbreak).2
      have htpos := hpos t List.mem_cons_self
      omega

end Tree

end Daybook
