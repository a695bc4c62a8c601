import Daybook.Proofs.Tree.Exact
import Daybook.Proofs.Tree.Region

/-!
# Where segments meet

A segment that has another one behind it ends with its line, or it is a commodity that lacks its
line break. So what stands in front of a segment is never a sign that a date is due behind.

* `Segment.Ends s`: the last token of the segment is one that an item can end with.

Results:
* `closed_or_open`: **an item ends with its line, unless it is a commodity that lacks its break.**
* `ends_of_mem_dropLast`: **every segment but the last ends as an item can end.**
* `kind_in_front`: what stands in front of a segment.
-/

namespace Daybook.Tree

open Daybook.Tree.Parser

variable {ts front rest : List Token} {x : Item} {s : Segment} {as bs : List Segment}

/-! ## How an item ends -/

/-- The last token of an item. -/
theorem kind_of_getLast?_item (hx : front ∈ x.spellings) :
    ∀ t ∈ front.getLast?, t.kind ∈ Production.lasts Production.item := by
  intro t ht
  refine Production.mem_lasts ((Grammar.reads_item.kinds front).mpr ⟨x, trivial, hx⟩) _ ?_
  rw [List.getLast?_map, ht]
  rfl

/-- A word of a language whose words end with a line break. -/
theorem closed_of_lasts {P : RegularExpression Kind} (hword : front.map Token.kind ∈ P.matches')
    (hP : ∀ kind ∈ Production.lasts P, kind = .newline) : Closed front := by
  intro t ht
  refine hP _ (Production.mem_lasts hword _ ?_)
  rw [List.getLast?_map, ht]
  rfl

theorem Closed.append_left (h : Closed rest) (hne : rest ≠ []) (front : List Token) :
    Closed (front ++ rest) := by
  intro t ht
  rw [List.getLast?_append_of_ne_nil _ hne] at ht
  exact h t ht

theorem closed_or_open_commodity {c : CommodityDirective} (hc : front ∈ c.spellings) :
    Closed front ∨ (Item.commodity c).Open := by
  obtain ⟨_, ⟨us, -, ns, hns, rfl⟩, ls, hls, rfl⟩ := hc
  by_cases hlines : c.lines = []
  · rw [hlines] at hls
    obtain rfl := (Language.mem_one ls).mp hls
    cases hnewline : c.newline with
    | none => exact .inr ⟨hnewline, hlines⟩
    | some n =>
      rw [hnewline] at hns
      obtain ⟨rfl, hn⟩ := mem_spellKind.mp hns
      have hbreak : Closed [n] := by
        rintro _ ⟨⟩
        exact hn
      show Closed (us ++ [n] ++ []) ∨ _
      rw [List.append_nil]
      exact .inl (hbreak.append_left (List.cons_ne_nil n []) us)
  · obtain ⟨t, more, rfl, -⟩ := Grammar.exists_indent_of_mem_lines hlines hls
    have hword := ((Grammar.reads_line Grammar.reads_commodityContent).kinds_star _).mpr ⟨_, hls⟩
    exact .inl ((closed_of_lasts hword (by decide)).append_left (List.cons_ne_nil t more) _)

/-- **An item ends with its line, unless it is a commodity that lacks its break.** -/
theorem closed_or_open (hx : front ∈ x.spellings) : Closed front ∨ x.Open := by
  cases x with
  | transaction t =>
    exact .inl (closed_of_lasts ((Grammar.reads_transaction.kinds _).mpr ⟨t, trivial, hx⟩)
      (by decide))
  | lineComment c =>
    exact .inl (closed_of_lasts ((Grammar.reads_lineComment.kinds _).mpr ⟨c, trivial, hx⟩)
      (by decide))
  | price p =>
    exact .inl (closed_of_lasts ((Grammar.reads_priceDirective.kinds _).mpr ⟨p, trivial, hx⟩)
      (by decide))
  | account a =>
    exact .inl (closed_of_lasts ((Grammar.reads_accountDirective.kinds _).mpr ⟨a, trivial, hx⟩)
      (by decide))
  | commodity c => exact closed_or_open_commodity hx
  | defaultCommodity d =>
    exact .inl (closed_of_lasts ((Grammar.reads_defaultDirective.kinds _).mpr ⟨d, trivial, hx⟩)
      (by decide))

/-! ## How a segment ends -/

/-- The last token of the segment is one that an item can end with. -/
def Segment.Ends (s : Segment) : Prop := ∀ t ∈ s.tokens.getLast?, t.kind ∈ Production.lasts Production.item

theorem Segment.ends_of_closed (h : Closed s.tokens) : s.Ends := fun t ht => by
  rw [h t ht]
  decide

theorem mem_dropLast_cons {α : Type} {a b : α} {l : List α} (h : a ∈ (b :: l).dropLast) :
    a = b ∧ l ≠ [] ∨ a ∈ l.dropLast := by
  cases l with
  | nil => exact absurd h List.not_mem_nil
  | cons c l =>
    rw [List.dropLast_cons_of_ne_nil (List.cons_ne_nil c l)] at h
    exact (List.mem_cons.mp h).imp_left fun heq => ⟨heq, List.cons_ne_nil c l⟩

/-- Every segment of the rest of a block ends as an item can end, but perhaps the last if the block
lacks its line break. -/
theorem ends_of_mem_segmentsAfter (sofar : Option Failure) (ts : List Token) :
    (∀ s ∈ (segmentsAfter sofar ts).dropLast, s.Ends) ∧
      (Closed ts → ∀ s ∈ segmentsAfter sofar ts, s.Ends) := by
  fun_induction segmentsAfter sofar ts with
  | case1 => exact ⟨by simp, by simp⟩
  | case2 sofar t ts ht ih =>
    have hblank : (Segment.blank t).Ends := Segment.ends_of_closed fun u hu => by
      obtain rfl : t = u := Option.some.inj hu
      exact ht
    refine ⟨fun s hs => ?_, fun hclosed => List.forall_mem_cons.mpr ⟨hblank, ?_⟩⟩
    · rcases mem_dropLast_cons hs with ⟨rfl, -⟩ | hmore
      · exact hblank
      · exact ih.1 s hmore
    · exact ih.2 (hclosed.of_isSuffix (List.suffix_cons t ts))
  | case3 sofar t ts _ reply failure x rest hresult ih =>
    have hitem : (Segment.item x (inFrontOf rest (t :: ts))).Ends := by
      obtain ⟨-, front, hfront, happend⟩ := Grammar.reads_item.sound hresult
      rw [← happend, inFrontOf_append_left]
      exact kind_of_getLast?_item hfront
    refine ⟨fun s hs => ?_, fun hclosed => List.forall_mem_cons.mpr ⟨hitem, ?_⟩⟩
    · rcases mem_dropLast_cons hs with ⟨rfl, -⟩ | hmore
      · exact hitem
      · exact ih.1 s hmore
    · exact ih.2 (hclosed.of_isSuffix (Grammar.item.isSuffix hresult))
  | case4 sofar t ts _ reply failure hresult rest ih =>
    have hrest : rest <:+ t :: ts :=
      (Grammar.brokenRest.left_isSuffix ts).trans (List.suffix_cons t ts)
    have hbroken (h : rest ≠ [] ∨ Closed (t :: ts)) :
        (Segment.broken (inFrontOf rest (t :: ts)) failure).Ends := by
      rcases (Grammar.behindBreak_brokenRest ts).of_isSuffix (List.suffix_cons t ts) with
        hnil | ⟨n, hn, front, hfront⟩
      · have hall : inFrontOf rest (t :: ts) = t :: ts := by
          rw [show rest = [] from hnil]
          exact List.take_length
        rw [hall]
        exact Segment.ends_of_closed (h.resolve_left fun hne => hne hnil)
      · have htaken : inFrontOf rest (t :: ts) = front ++ [n] := by
          rw [← hfront, ← List.singleton_append, ← List.append_assoc]
          exact inFrontOf_append_left _ _
        refine Segment.ends_of_closed fun u hu => ?_
        simp only [Segment.tokens, htaken, List.getLast?_concat, Option.mem_some_iff] at hu
        rw [← hu, hn]
    refine ⟨fun s hs => ?_, fun hclosed => List.forall_mem_cons.mpr ⟨hbroken (.inr hclosed), ?_⟩⟩
    · rcases mem_dropLast_cons hs with ⟨rfl, hne⟩ | hmore
      · refine hbroken (.inl fun hnil => hne ?_)
        rw [hnil, segmentsAfter_nil]
      · exact ih.1 s hmore
    · exact ih.2 (hclosed.of_isSuffix hrest)

/-- **Every segment but the last ends as an item can end.** -/
theorem ends_of_mem_dropLast (h : s ∈ (segments ts).dropLast) : s.Ends := by
  cases hts : ts with
  | nil =>
    rw [hts] at h
    exact absurd h List.not_mem_nil
  | cons t us =>
    have hne : blocks ts ≠ [] := blocks_ne_nil (hts ▸ List.cons_ne_nil t us)
    have hsplit : segments ts = (blocks ts).dropLast.flatMap (segmentsAfter none) ++
        segmentsAfter none ((blocks ts).getLast hne) := by
      conv_lhs => rw [segments, ← List.dropLast_concat_getLast hne]
      rw [List.flatMap_append, List.flatMap_singleton]
    have hmem : s ∈ (blocks ts).dropLast.flatMap (segmentsAfter none) ∨
        s ∈ (segmentsAfter none ((blocks ts).getLast hne)).dropLast := by
      rw [hsplit] at h
      by_cases hlast : segmentsAfter none ((blocks ts).getLast hne) = []
      · rw [hlast, List.append_nil] at h
        exact .inl (List.mem_of_mem_dropLast h)
      · rw [List.dropLast_append_of_ne_nil hlast] at h
        exact List.mem_append.mp h
    rcases hmem with hfront | hlast
    · obtain ⟨block, hblock, hs⟩ := List.mem_flatMap.mp hfront
      exact (ends_of_mem_segmentsAfter none block).2 (closed_of_mem_dropLast hblock) s hs
    · exact (ends_of_mem_segmentsAfter none _).1 s hlast

/-- What stands in front of a segment. -/
theorem kind_in_front (h : segments ts = as ++ s :: bs) :
    ∀ t ∈ (as.flatMap Segment.tokens).getLast?, t.kind ∈ Production.lasts Production.item := by
  rcases List.eq_nil_or_concat' as with rfl | ⟨init, u, rfl⟩
  · simp
  · have hmem : u ∈ segments ts := by simp [h]
    have hends : u.Ends := by
      refine ends_of_mem_dropLast (?_ : u ∈ (segments ts).dropLast)
      rw [h, List.dropLast_append_of_ne_nil (List.cons_ne_nil s bs)]
      simp
    intro t ht
    rw [List.flatMap_append, List.flatMap_singleton,
      List.getLast?_append_of_ne_nil _ (tokens_ne_nil_of_mem_segments hmem)] at ht
    exact hends t ht

end Daybook.Tree
