import Daybook.Proofs.Tree.Region
import Daybook.Proofs.Tree.Unseen
import Mathlib.Data.List.Basic

/-!
# Blocks stand alone

A token list is read block by block. Nothing is lost by that: a reader that never stops between the
blocks, and takes the furthest failure with it all the way, returns the same tree. For a rule does
not see what stands behind whole lines, and a failure from the lines in front is never as far as the
first test of the line behind. `journal` reads straight through; `Tree.ofTokens` reads by blocks.

* `Failure.Stale f us`: at `us` the failure gives way to the first test there.
* `Tree.readThrough ts`: the tree of a token list that is read straight through.

Results:
* `segmentsAfter_lines`: **the segments of two lists read straight through are those of each**, but
  for what the failures of the first have behind them.
* `ofTokens_eq_readThrough`: **what is read by blocks is what is read straight through.**
* `ofTokens_lines_apart`: the items and faults of two lists are those of each.
-/

namespace Daybook

open Daybook.Tree.Parser

namespace Tree

variable {ts us rest : List Token} {t : Token} {f g : Failure} {fs : List Failure}
  {sofar sofar' : Option Failure}

/-! ## Failures in front of more tokens -/

theorem Failure.ahead_before (h : f.rest ≠ []) : (f.before us).ahead = f.ahead + us.length := by
  obtain ⟨rest, refusal⟩ := f
  obtain ⟨t, more, rfl⟩ := List.exists_cons_of_ne_nil h
  cases refusal with
  | none =>
    show (more ++ us).length = more.length + us.length
    exact List.length_append
  | some cause =>
    show (t :: more ++ us).length = (t :: more).length + us.length
    exact List.length_append

theorem Failure.furthest_before (hf : f.rest ≠ []) (hg : g.rest ≠ []) :
    (f.before us).furthest (g.before us) = (f.furthest g).before us := by
  have hrefusal : (g.before us).refusal = g.refusal := rfl
  unfold Failure.furthest
  simp only [hrefusal, Failure.ahead_before hf, Failure.ahead_before hg, Nat.add_lt_add_iff_right]
  split <;> rfl

theorem Failure.foldl_furthest_before (hf : f.rest ≠ []) (hfs : ∀ g ∈ fs, g.rest ≠ []) :
    (fs.map (Failure.before us)).foldl Failure.furthest (f.before us) =
      (fs.foldl Failure.furthest f).before us := by
  induction fs generalizing f with
  | nil => rfl
  | cons g fs ih =>
    obtain ⟨hg, hmore⟩ := List.forall_mem_cons.mp hfs
    have hnext : (f.furthest g).rest ≠ [] := by
      rcases f.furthest_mem g with h | h <;> rwa [h]
    rw [List.map_cons, List.foldl_cons, List.foldl_cons, Failure.furthest_before hf hg]
    exact ih hnext hmore

theorem Failure.furthest?_before (hfs : ∀ g ∈ fs, g.rest ≠ []) :
    Failure.furthest? (fs.map (Failure.before us)) =
      (Failure.furthest? fs).map (Failure.before us) := by
  cases fs with
  | nil => rfl
  | cons f fs =>
    obtain ⟨hf, hmore⟩ := List.forall_mem_cons.mp hfs
    exact congrArg some (Failure.foldl_furthest_before hf hmore)

theorem furthestAt_before (hts : ts ≠ []) (hsofar : ∀ f ∈ sofar, f.rest ≠ [])
    (hfs : ∀ g ∈ fs, g.rest ≠ []) :
    furthestAt (sofar.map (Failure.before us)) (ts ++ us) (fs.map (Failure.before us)) =
      (furthestAt sofar ts fs).before us := by
  have hstart : (sofar.getD ⟨ts, none⟩).rest ≠ [] := by
    cases sofar with
    | none => exact hts
    | some f => exact hsofar f rfl
  have hgetD : (sofar.map (Failure.before us)).getD ⟨ts ++ us, none⟩ =
      (sofar.getD ⟨ts, none⟩).before us := by cases sofar <;> rfl
  have hself : (⟨ts ++ us, none⟩ : Failure) = (⟨ts, none⟩ : Failure).before us := rfl
  have hfirst : ((sofar.getD ⟨ts, none⟩).furthest ⟨ts, none⟩).rest ≠ [] := by
    rcases (sofar.getD ⟨ts, none⟩).furthest_mem ⟨ts, none⟩ with h | h <;> rwa [h]
  unfold furthestAt
  rw [hgetD, hself, Failure.furthest_before hstart hts, Failure.foldl_furthest_before hfirst hfs]

/-! ## Failures from the lines in front -/

/-- Here the failure gives way to the first test, or it is the first test. -/
def Failure.Stale (f : Failure) (us : List Token) : Prop := us.length ≤ f.ahead ∨ f = ⟨us, none⟩

theorem Failure.stale_before (f : Failure) (us : List Token) : (f.before us).Stale us := by
  obtain ⟨rest, refusal⟩ := f
  cases refusal with
  | some cause =>
    refine .inl ?_
    show us.length ≤ (rest ++ us).length
    rw [List.length_append]
    exact Nat.le_add_left _ _
  | none =>
    cases rest with
    | nil => exact .inr rfl
    | cons t more =>
      refine .inl ?_
      show us.length ≤ (more ++ us).length
      rw [List.length_append]
      exact Nat.le_add_left _ _

theorem Failure.Stale.tail (h : f.Stale (t :: us)) : f.Stale us := by
  refine .inl ?_
  rcases h with hahead | rfl
  · exact Nat.le_trans (Nat.le_succ _) hahead
  · exact Nat.le_refl _

theorem Failure.Stale.furthest (h : f.Stale (t :: us)) :
    f.furthest ⟨t :: us, none⟩ = ⟨t :: us, none⟩ := by
  rcases h with hahead | rfl
  · have hlt : (⟨t :: us, none⟩ : Failure).ahead < f.ahead := Nat.lt_of_succ_le hahead
    simp only [Failure.furthest, hlt, decide_true, Bool.or_true, if_true]
  · rcases Failure.furthest_mem ⟨t :: us, none⟩ ⟨t :: us, none⟩ with h | h <;> exact h

theorem furthestAt_of_stale (h : f.Stale (t :: us)) (fs : List Failure) :
    furthestAt (some f) (t :: us) fs = furthestAt none (t :: us) fs := by
  have hself : (⟨t :: us, none⟩ : Failure).Stale (t :: us) := .inr rfl
  simp only [furthestAt, Option.getD_some, Option.getD_none, h.furthest, hself.furthest]

/-- **A failure from the lines in front does not count.** -/
theorem segmentsAfter_of_stale : ∀ {us : List Token}, f.Stale us →
    segmentsAfter (some f) us = segmentsAfter none us
  | [], _ => by rw [segmentsAfter_nil, segmentsAfter_nil]
  | t :: us, h => by
    by_cases ht : t.kind = .newline
    · rw [segmentsAfter_blank ht, segmentsAfter_blank ht, segmentsAfter_of_stale h.tail]
    · cases hresult : (Grammar.item (t :: us)).result with
      | some reply =>
        rw [segmentsAfter_item ht hresult, segmentsAfter_item ht hresult, furthestAt_of_stale h]
      | none =>
        rw [segmentsAfter_broken ht hresult, segmentsAfter_broken ht hresult,
          furthestAt_of_stale h]

theorem segmentsAfter_of_forall_stale (h : ∀ f ∈ sofar, f.Stale us) :
    segmentsAfter sofar us = segmentsAfter none us := by
  cases sofar with
  | none => rfl
  | some f => exact segmentsAfter_of_stale (h f rfl)

/-! ## Straight through -/

/-- The segment with more tokens behind the list. -/
def Segment.before (us : List Token) : Segment → Segment
  | broken taken failure => broken taken (failure.before us)
  | s => s

theorem inFrontOf_before (h : rest <:+ ts) (us : List Token) :
    inFrontOf (rest ++ us) (ts ++ us) = inFrontOf rest ts := by
  obtain ⟨front, rfl⟩ := h
  rw [List.append_assoc, inFrontOf_append_left, inFrontOf_append_left]

/-- What was found in front of whole lines is found there too if more stands behind them. At their
end another failure may be the furthest, but none that counts behind them. -/
structure Remembered (us : List Token) (sofar sofar' : Option Failure) (ts : List Token) :
    Prop where
  notBehind : ∀ f ∈ sofar, f.NotBehind ts
  eq : ts ≠ [] → sofar' = sofar.map (Failure.before us)
  stale : ∀ f ∈ sofar', f.Stale us

theorem remembered_none : Remembered us none none ts := ⟨by simp, fun _ => rfl, by simp⟩

theorem Remembered.blank (h : Remembered us sofar sofar' (t :: ts)) (ht : t.kind = .newline) :
    Remembered us sofar sofar' ts :=
  ⟨fun f hf => (h.notBehind f hf).tail ht, fun _ => h.eq (List.cons_ne_nil t ts), h.stale⟩

/-- What failed in front of whole lines has a token, for it is in front of their break. -/
theorem rest_ne_nil_of_line (hrest : InLine rest) (hline : ∀ {n : Token} {more : List Token},
    n.kind = .newline → n :: more <:+ rest → n :: more <:+ g.rest) : g.rest ≠ [] := by
  obtain ⟨n, hn, hbreak⟩ := hrest.1.exists_break hrest.2
  exact List.ne_nil_of_length_pos (Nat.lt_of_lt_of_le Nat.zero_lt_one (hline hn hbreak).length_le)

theorem Failure.NotBehind.rest_ne_nil (h : f.NotBehind ts) (hts : InLine ts) : f.rest ≠ [] :=
  rest_ne_nil_of_line hts fun hn hbreak =>
    h.elim (fun hpassed => hbreak.trans hpassed) fun hfirst => hfirst.line hn hbreak

theorem stale_furthestAt (sofar : Option Failure) (ts us : List Token) (fs : List Failure) :
    (furthestAt (sofar.map (Failure.before us)) (ts ++ us)
      (fs.map (Failure.before us))).Stale us := by
  have hself : (⟨ts ++ us, none⟩ : Failure) = (⟨ts, none⟩ : Failure).before us := rfl
  have hgetD : (sofar.map (Failure.before us)).getD ⟨ts ++ us, none⟩ =
      (sofar.getD ⟨ts, none⟩).before us := by cases sofar <;> rfl
  unfold furthestAt
  rcases List.mem_cons.mp (Failure.foldl_furthest_mem _ _) with heq | hmem
  · rw [heq, hgetD, hself]
    rcases Failure.furthest_mem ((sofar.getD ⟨ts, none⟩).before us) (Failure.before us ⟨ts, none⟩)
      with h | h
    · rw [h]
      exact Failure.stale_before _ us
    · rw [h]
      exact Failure.stale_before _ us
  · obtain ⟨g, -, hg⟩ := List.mem_map.mp hmem
    rw [← hg]
    exact g.stale_before us

theorem stale_furthest? (h : f ∈ Failure.furthest? (fs.map (Failure.before us))) : f.Stale us := by
  obtain ⟨g, -, rfl⟩ := List.mem_map.mp (Failure.furthest?_mem h)
  exact g.stale_before us

section

variable (hus : ∀ u ∈ us.head?, u.kind ≠ .indent)

include hus

/-- Behind an item the furthest failure is remembered. -/
theorem Remembered.item {x : Item} (hts : InLine ts) (h : Remembered us sofar sofar' ts)
    (hresult : (Grammar.item ts).result = some (x, rest)) :
    Remembered us (some (furthestAt sofar ts (Grammar.item ts).failures))
      (some (furthestAt sofar' (ts ++ us) (Grammar.item (ts ++ us)).failures)) rest := by
  obtain ⟨t, more, rfl⟩ := List.exists_cons_of_ne_nil hts.2
  have hrest : rest <:+ t :: more := Grammar.item.isSuffix hresult
  have hnear {g : Failure} (hg : g ∈ (Grammar.item (t :: more)).failures) :
      ∀ {n : Token} {us : List Token}, n.kind = .newline → n :: us <:+ rest → n :: us <:+ g.rest :=
    fun hn hbreak => Grammar.near_item.line hg hn (left_of_eq hresult ▸ hbreak)
  obtain ⟨hsuffix, hline⟩ := furthestAt_near h.notBehind hrest
    (fun g => Grammar.near_item.isSuffix) fun g hg _ _ => hnear hg
  rw [h.eq hts.2, Grammar.unseen_item hus _ hts]
  refine ⟨?_, fun hne => ?_, ?_⟩
  · rintro _ ⟨⟩
    exact Failure.notBehind_of_isSuffix hsuffix hrest hline
  · refine congrArg some (furthestAt_before hts.2 ?_ ?_)
    · exact fun f hf => (h.notBehind f hf).rest_ne_nil hts
    · exact fun g hg => rest_ne_nil_of_line ⟨hts.1.of_isSuffix hrest, hne⟩ (hnear hg)
  · rintro _ ⟨⟩
    exact stale_furthestAt sofar (t :: more) us _

/-- Where no item can be read the failure to report is the same. -/
theorem Remembered.furthestAt_broken (hts : InLine ts) (h : Remembered us sofar sofar' ts)
    (hresult : (Grammar.item ts).result = none) :
    furthestAt sofar' (ts ++ us) (Grammar.item (ts ++ us)).failures =
      (furthestAt sofar ts (Grammar.item ts).failures).before us := by
  rw [h.eq hts.2, Grammar.unseen_item hus _ hts]
  refine furthestAt_before hts.2 (fun f hf => (h.notBehind f hf).rest_ne_nil hts) fun g hg => ?_
  exact rest_ne_nil_of_line hts fun hn hbreak =>
    Grammar.near_item.line hg hn ((left_of_none hresult).symm ▸ hbreak)

theorem remembered_brokenRest (hts : InLine ts) :
    Remembered us (Failure.furthest? (Grammar.brokenRest ts).failures)
      (Failure.furthest? (Grammar.brokenRest (ts ++ us)).failures) (Grammar.brokenRest.left ts) := by
  have hrest : Grammar.brokenRest.left ts <:+ ts := Grammar.brokenRest.left_isSuffix ts
  rw [Grammar.unseen_brokenRest hus _ hts]
  refine ⟨fun f hf => ?_, fun hne => ?_, fun f => stale_furthest?⟩
  · have hfailed := Failure.furthest?_mem hf
    exact Failure.notBehind_of_isSuffix (Grammar.near_brokenRest.isSuffix hfailed) hrest
      fun hn hbreak => Grammar.near_brokenRest.line hfailed hn hbreak
  · exact Failure.furthest?_before fun g hg =>
      rest_ne_nil_of_line ⟨hts.1.of_isSuffix hrest, hne⟩ fun hn hbreak =>
        Grammar.near_brokenRest.line hg hn hbreak

/-- **The segments of two lists are those of each**, where the first is made of whole lines and the
second does not open with an indented one. -/
theorem segmentsAfter_lines (hts : Closed ts) (h : Remembered us sofar sofar' ts) :
    segmentsAfter sofar' (ts ++ us) =
      (segmentsAfter sofar ts).map (Segment.before us) ++ segmentsAfter none us := by
  fun_induction segmentsAfter sofar ts generalizing sofar' with
  | case1 sofar => exact segmentsAfter_of_forall_stale h.stale
  | case2 sofar t ts ht ih =>
    have hmore := ih (hts.of_isSuffix (List.suffix_cons t ts)) (h.blank ht)
    rw [List.cons_append, segmentsAfter_blank ht, hmore]
    rfl
  | case3 =>
    rename_i sofar t ts ht reply failure x rest hresult ih
    have hline : InLine (t :: ts) := ⟨hts, List.cons_ne_nil t ts⟩
    have hrest : rest <:+ t :: ts := Grammar.item.isSuffix hresult
    have hreply : (Grammar.item (t :: ts ++ us)).result = some (x, rest ++ us) := by
      rw [Grammar.unseen_item hus _ hline, Reply.before, hresult]
      rfl
    have hmore := ih (hts.of_isSuffix hrest) (h.item hus hline hresult)
    have hfront : inFrontOf (rest ++ us) (t :: (ts ++ us)) = inFrontOf rest (t :: ts) :=
      inFrontOf_before hrest us
    rw [List.cons_append] at hreply hmore ⊢
    rw [segmentsAfter_item ht hreply, hmore, hfront]
    rfl
  | case4 =>
    rename_i sofar t ts ht reply failure hresult rest ih
    have hline : InLine (t :: ts) := ⟨hts, List.cons_ne_nil t ts⟩
    have htail : InLine ts := by
      refine ⟨hts.of_isSuffix (List.suffix_cons t ts), ?_⟩
      rintro rfl
      exact ht (hts t rfl)
    have hrest : rest <:+ t :: ts :=
      (Grammar.brokenRest.left_isSuffix ts).trans (List.suffix_cons t ts)
    have hreply : (Grammar.item (t :: ts ++ us)).result = none := by
      rw [Grammar.unseen_item hus _ hline, Reply.before, hresult]
      rfl
    have hfailure := h.furthestAt_broken hus hline hresult
    have hleft : Grammar.brokenRest.left (ts ++ us) = rest ++ us :=
      (Grammar.unseen_brokenRest hus).left htail
    have hmore := ih (hts.of_isSuffix hrest) (remembered_brokenRest hus htail)
    have hfront : inFrontOf (rest ++ us) (t :: (ts ++ us)) = inFrontOf rest (t :: ts) :=
      inFrontOf_before hrest us
    rw [List.cons_append] at hreply hfailure ⊢
    rw [segmentsAfter_broken ht hreply, hfailure, hleft, hmore, hfront]
    rfl

end

/-! ## Trees -/

instance : Append Tree := ⟨fun a b => ⟨a.items ++ b.items, a.faults ++ b.faults⟩⟩

/-- The tree of these segments, where this is the last token of the list. -/
def ofSegments (last : Option Token) (segments : List Segment) : Tree :=
  ⟨segments.filterMap Segment.item?, (segments.filterMap Segment.failure?).map (Failure.fault last)⟩

/-- The tree of a token list that is read straight through. -/
def readThrough (ts : List Token) : Tree := ofSegments ts.getLast? (segmentsAfter none ts)

variable {segs : List Segment}

theorem ofSegments_append (last : Option Token) (segs segs' : List Segment) :
    ofSegments last (segs ++ segs') = ofSegments last segs ++ ofSegments last segs' := by
  simp only [ofSegments, List.filterMap_append, List.map_append]
  rfl

/-- A fault that does not lie at the end does not depend on the last token, and on no token behind
the one that it points at. -/
theorem Failure.fault_congr (h : f.rest ≠ []) (hrest : g.rest.head? = f.rest.head?)
    (hrefusal : g.refusal = f.refusal) (last last' : Option Token) :
    g.fault last = f.fault last' := by
  obtain ⟨t, more, hf⟩ := List.exists_cons_of_ne_nil h
  obtain ⟨more', hg⟩ : ∃ more', g.rest = t :: more' :=
    List.head?_eq_some_iff.mp (by rw [hrest, hf]; rfl)
  simp only [Failure.fault, hf, hg, hrefusal]

theorem ofSegments_congr (h : ∀ s ∈ segs, ∀ f ∈ s.failure?, f.rest ≠ [])
    (last last' : Option Token) :
    ofSegments last segs = ofSegments last' segs := by
  refine congrArg (Tree.mk _) (List.map_congr_left fun f hf => ?_)
  obtain ⟨s, hs, hfailure⟩ := List.mem_filterMap.mp hf
  exact Failure.fault_congr (h s hs f hfailure) rfl rfl last last'

theorem ofSegments_before (h : ∀ s ∈ segs, ∀ f ∈ s.failure?, f.rest ≠ [])
    (last last' : Option Token) :
    ofSegments last (segs.map (Segment.before us)) = ofSegments last' segs := by
  have hitem : Segment.item? ∘ Segment.before us = Segment.item? := by
    funext s
    cases s <;> rfl
  have hfailure : Segment.failure? ∘ Segment.before us =
      fun s => s.failure?.map (Failure.before us) := by
    funext s
    cases s <;> rfl
  simp only [ofSegments, List.filterMap_map, hitem, hfailure, ← List.map_filterMap, List.map_map]
  refine congrArg (Tree.mk _) (List.map_congr_left fun f hf => ?_)
  obtain ⟨s, hs, hs'⟩ := List.mem_filterMap.mp hf
  have hne := h s hs f hs'
  exact Failure.fault_congr (g := f.before us) hne (List.head?_append_of_ne_nil _ hne) rfl last last'

/-- **The tree of two lists read straight through is that of each.** -/
theorem readThrough_append (hts : Closed ts) (hus : ∀ u ∈ us.head?, u.kind ≠ .indent) :
    readThrough (ts ++ us) = readThrough ts ++ readThrough us := by
  have hfirst : ∀ s ∈ segmentsAfter none ts, ∀ f ∈ s.failure?, f.rest ≠ [] := fun s =>
    rest_ne_nil_of_mem_segmentsAfter hts
  have hsecond : ofSegments (ts ++ us).getLast? (segmentsAfter none us) = readThrough us := by
    cases us with
    | nil => rw [readThrough, segmentsAfter_nil]; rfl
    | cons u us => rw [List.getLast?_append_of_ne_nil _ (List.cons_ne_nil u us)]; rfl
  rw [readThrough, segmentsAfter_lines hus hts remembered_none, ofSegments_append, hsecond,
    ofSegments_before hfirst]
  rfl

/-- Behind the first block no block opens with an indented line. -/
theorem kind_head?_of_mem_tail {block : List Token} (h : block ∈ (blocks ts).tail) :
    ∀ t ∈ block.head?, t.kind ≠ .indent := by
  induction ts with
  | nil => exact absurd h List.not_mem_nil
  | cons t ts ih =>
    rw [blocks_cons] at h
    cases hblocks : blocks ts with
    | nil =>
      rw [hblocks] at h
      exact absurd h List.not_mem_nil
    | cons first more =>
      rw [hblocks] at ih h
      rw [addToken] at h
      split at h
      · next hends =>
        rcases List.mem_cons.mp h with rfl | hmore
        · intro u hu
          rw [Option.mem_def.mp hu] at hends
          simp only [Option.any_some, endsBlock, Bool.and_eq_true, decide_eq_true_eq] at hends
          exact hends.2
        · exact ih hmore
      · exact ih h

/-- Blocks that are read one by one make the tree of all of them. -/
theorem ofSegments_flatMap : ∀ bs : List (List Token), (∀ b ∈ bs.dropLast, Closed b) →
    (∀ b ∈ bs.tail, b ≠ [] ∧ ∀ t ∈ b.head?, t.kind ≠ .indent) →
    ofSegments bs.flatten.getLast? (bs.flatMap (segmentsAfter none)) = readThrough bs.flatten
  | [], _, _ => by
    rw [List.flatten_nil, readThrough, segmentsAfter_nil]
    rfl
  | [b], _, _ => by
    rw [List.flatMap_singleton, List.flatten_singleton]
    rfl
  | b :: c :: bs, hclosed, hopens => by
    obtain ⟨hb, hmore⟩ := List.forall_mem_cons.mp hclosed
    obtain ⟨⟨hc, hhead⟩, htail⟩ := List.forall_mem_cons.mp hopens
    have hne : (c :: bs).flatten ≠ [] := by simp [hc]
    have hindent : ∀ u ∈ (c :: bs).flatten.head?, u.kind ≠ .indent := by
      rwa [List.flatten_cons, List.head?_append_of_ne_nil _ hc]
    have hfirst : ∀ s ∈ segmentsAfter none b, ∀ f ∈ s.failure?, f.rest ≠ [] := fun s =>
      rest_ne_nil_of_mem_segmentsAfter hb
    have ih := ofSegments_flatMap (c :: bs) hmore htail
    calc ofSegments (b :: c :: bs).flatten.getLast?
          ((b :: c :: bs).flatMap (segmentsAfter none))
        = ofSegments (c :: bs).flatten.getLast? (segmentsAfter none b) ++
            ofSegments (c :: bs).flatten.getLast? ((c :: bs).flatMap (segmentsAfter none)) := by
          rw [List.flatten_cons, List.getLast?_append_of_ne_nil _ hne, List.flatMap_cons,
            ofSegments_append]
      _ = readThrough b ++ readThrough (c :: bs).flatten := by
          rw [ih, ofSegments_congr hfirst _ b.getLast?]
          rfl
      _ = readThrough (b :: c :: bs).flatten := (readThrough_append hb hindent).symm

/-- **What is read by blocks is what is read straight through.** -/
theorem ofTokens_eq_readThrough (ts : List Token) : Tree.ofTokens ts = readThrough ts := by
  have hblocks := ofSegments_flatMap (blocks ts) (fun b => closed_of_mem_dropLast) fun b hb =>
    ⟨ne_nil_of_mem_blocks (List.mem_of_mem_tail hb), kind_head?_of_mem_tail hb⟩
  rw [flatten_blocks] at hblocks
  exact hblocks

/-- **The tree of two lists is that of each**, where the first is made of whole lines and the second
does not open with an indented one. -/
theorem ofTokens_lines (hts : Closed ts) (hus : ∀ u ∈ us.head?, u.kind ≠ .indent) :
    Tree.ofTokens (ts ++ us) = Tree.ofTokens ts ++ Tree.ofTokens us := by
  simp only [ofTokens_eq_readThrough, readThrough_append hts hus]

/-- **What is broken harms nothing around it**: the items and faults of two lists are those of each,
in whatever order the offsets of the tokens are. This is no matter of the blocks: what is read
straight through is the same. -/
theorem ofTokens_lines_apart (hts : Closed ts) (hus : ∀ u ∈ us.head?, u.kind ≠ .indent) :
    (Tree.ofTokens (ts ++ us)).items = (Tree.ofTokens ts).items ++ (Tree.ofTokens us).items ∧
    (Tree.ofTokens (ts ++ us)).faults = (Tree.ofTokens ts).faults ++ (Tree.ofTokens us).faults ∧
    ∀ ws, Tree.ofTokens ws = readThrough ws := by
  rw [ofTokens_lines hts hus]
  exact ⟨rfl, rfl, ofTokens_eq_readThrough⟩

/-- A default commodity behind a keyword without an account, where the offsets run backwards. -/
theorem ofTokens_lines_apart_default :
    let ts : List Token := [⟨.accountKeyword, "account", ⟨20, 3, 1⟩, none⟩,
      ⟨.newline, "\n", ⟨27, 3, 8⟩, none⟩]
    let us : List Token := [⟨.defaultKeyword, "D", ⟨0, 1, 1⟩, none⟩, ⟨.number, "1", ⟨2, 1, 3⟩, none⟩,
      ⟨.newline, "\n", ⟨3, 1, 4⟩, none⟩]
    Closed ts ∧ (∀ u ∈ us.head?, u.kind ≠ .indent) ∧
    (Tree.ofTokens (ts ++ us)).items.map Located.span = [⟨0, 4⟩] ∧
    (Tree.ofTokens (ts ++ us)).faults = [⟨.unexpectedToken "line break", ⟨27, 28⟩, none, none⟩] := by
  intro ts us
  have hts : Closed ts := fun t ht => by
    obtain rfl := Option.some.inj ht
    rfl
  have hus : ∀ u ∈ us.head?, u.kind ≠ .indent := by decide
  obtain ⟨hitems, hfaults, -⟩ := ofTokens_lines_apart hts hus
  rw [hitems, hfaults]
  exact ⟨hts, hus, by decide +kernel, by decide +kernel⟩

end Tree

end Daybook
