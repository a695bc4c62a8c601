import Daybook.Proofs.Token.Cover
import Daybook.Tree.Segment

/-!
# Where items lie

The items of a source follow one another, and an item has the tokens within its span. About the
spans that `journal` gives to its items ([SPEC 13.6]).

* `TokenStream.within stream s`: the tokens within a span.

Results:
* `pairwise_span_items`: **no item reaches into the next.**
* `within_spanOf`: **the tokens within the span of an item are those that it was read from.**
-/

namespace Daybook

/-- The tokens within a span. -/
def TokenStream.within (stream : TokenStream) (s : Span) : List Token :=
  stream.tokens.filter fun t => s.start ≤ t.offset ∧ t.stop ≤ s.stop

namespace Tree

variable {taken pre post : List Token} {n : Nat} {source : String}

theorem start_spanOf (t : Token) (us : List Token) : (spanOf (t :: us)).start = t.offset := by
  simp only [spanOf, List.head?_cons, List.getLast?_cons]

/-- Tokens that end in front of a place have a span that ends there. -/
theorem stop_spanOf_le (h : ∀ t ∈ taken, t.stop ≤ n) : (spanOf taken).stop ≤ n := by
  unfold spanOf
  split
  · next first last hfirst hlast =>
    have hle := h first (List.mem_of_mem_head? hfirst)
    exact Nat.max_le.mpr
      ⟨h last (List.mem_of_getLast? hlast), Nat.le_trans (Nat.le_add_right _ _) hle⟩
  · exact Nat.zero_le n

/-- Tokens one behind the other end within their span. -/
theorem stop_le_spanOf (h : taken.Pairwise fun t u => t.stop ≤ u.offset) :
    ∀ t ∈ taken, t.stop ≤ (spanOf taken).stop := by
  intro t ht
  have hne := List.ne_nil_of_mem ht
  have hlast : (taken.getLast hne).stop ≤ (spanOf taken).stop := by
    simp only [spanOf, List.head?_eq_some_head hne, List.getLast?_eq_some_getLast hne]
    exact Nat.le_max_left _ _
  rw [← List.dropLast_concat_getLast hne] at h ht
  rcases List.mem_append.mp ht with hmem | hmem
  · have hle := (List.pairwise_append.mp h).2.2 t hmem _ (List.mem_singleton_self _)
    exact Nat.le_trans hle (Nat.le_trans (Nat.le_add_right _ _) hlast)
  · rw [List.mem_singleton.mp hmem]
    exact hlast

/-- **The tokens within the span of an item are those that it was read from.** -/
theorem within_spanOf (hne : taken ≠ []) (h : (tokenize source).tokens = pre ++ (taken ++ post)) :
    (tokenize source).within (spanOf taken) = taken := by
  obtain ⟨hpos, hordered⟩ := pairwise_stop_tokenize source
  rw [h] at hpos hordered
  obtain ⟨-, hmore, hpre⟩ := List.pairwise_append.mp hordered
  obtain ⟨htaken, -, hpost⟩ := List.pairwise_append.mp hmore
  obtain ⟨first, us, rfl⟩ := List.exists_cons_of_ne_nil hne
  have hstart := start_spanOf first us
  rw [TokenStream.within, h, List.filter_append, List.filter_append]
  have hbefore : pre.filter (fun t => (spanOf (first :: us)).start ≤ t.offset ∧
      t.stop ≤ (spanOf (first :: us)).stop) = [] := by
    refine List.filter_eq_nil_iff.mpr fun t ht => ?_
    have hle := hpre t ht first (by simp)
    have hlt := hpos t (by simp [ht])
    simp only [hstart, decide_eq_true_eq]
    omega
  have hbehind : post.filter (fun t => (spanOf (first :: us)).start ≤ t.offset ∧
      t.stop ≤ (spanOf (first :: us)).stop) = [] := by
    refine List.filter_eq_nil_iff.mpr fun t ht => ?_
    have hle := stop_spanOf_le fun u hu => hpost u hu t ht
    have hlt := hpos t (by simp [ht])
    simp only [decide_eq_true_eq]
    omega
  have hinside : (first :: us).filter (fun t => (spanOf (first :: us)).start ≤ t.offset ∧
      t.stop ≤ (spanOf (first :: us)).stop) = first :: us := by
    refine List.filter_eq_self.mpr fun t ht => ?_
    have hstop := stop_le_spanOf htaken t ht
    have hle : first.offset ≤ t.offset := by
      rcases List.mem_cons.mp ht with rfl | hmem
      · exact Nat.le_refl _
      · have hnext := (List.pairwise_cons.mp htaken).1 t hmem
        exact Nat.le_trans (Nat.le_add_right _ _) hnext
    simp only [hstart, decide_eq_true_eq]
    exact ⟨hle, hstop⟩
  rw [hbefore, hinside, hbehind, List.append_nil, List.nil_append]

/-- **No item reaches into the next.** -/
theorem pairwise_span_items (source : String) :
    (Tree.ofTokens (tokenize source).tokens).items.Pairwise
      fun x y => x.span.stop ≤ y.span.start := by
  have hordered := (pairwise_stop_tokenize source).2
  rw [← flatMap_tokens_segments (tokenize source).tokens, List.pairwise_flatMap] at hordered
  refine List.pairwise_filterMap.mpr (hordered.2.imp_of_mem fun {s s'} _ hs' hss' => ?_)
  intro x hx y hy
  obtain ⟨taken, rfl, hspan⟩ := Segment.item?_eq_some_iff.mp hx
  obtain ⟨taken', rfl, hspan'⟩ := Segment.item?_eq_some_iff.mp hy
  obtain ⟨u, us, rfl⟩ := List.exists_cons_of_ne_nil (tokens_ne_nil_of_mem_segments hs')
  rw [hspan, hspan', start_spanOf]
  exact stop_spanOf_le fun t ht => hss' t ht u List.mem_cons_self

end Tree

end Daybook
