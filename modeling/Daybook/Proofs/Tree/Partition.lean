import Daybook.Proofs.Token.Cover
import Daybook.Proofs.Tree.Exact
import Daybook.Proofs.Tree.Region
import Daybook.Proofs.Tree.Slots

/-!
# No token is lost

The segments of a token list hold all its tokens in order. Each is an item, an empty line or a
region that was given up, and what is returned is told by them: the items are those of the segments,
and each region has its fault. About `parse`, `journal` and `skip_item` ([SPEC 4.2]).

* `Segment.Sound`: what holds of a segment by itself.
* `PointsInto`: where the fault of a region is found.

Results:
* `slots_mergeSort`: sorted by place, the tokens of an item are its segment.
* `ofTokens_partition`: **what is returned partitions the tokens.**
-/

namespace Daybook.Tree

variable {ts taken region : List Token} {x : Item} {s : Segment} {f : Failure}

/-- An empty line is one break, an item keeps the tokens that it was read from, and a region that is
given up is not empty. -/
def Segment.Sound : Segment → Prop
  | blank newline => newline.kind = .newline
  | item x taken => taken ≠ [] ∧ taken.Perm x.tokens
  | broken taken _ => taken ≠ []

/-- The tokens of a region that is given up. -/
def Segment.region? : Segment → Option (List Token)
  | broken taken _ => some taken
  | _ => none

/-- The span is that of a token of the region, or it is the end of the region where nothing comes
behind it. -/
def PointsInto (span : Span) (region ts : List Token) : Prop :=
  (∃ t ∈ region, span = t.span) ∨
    region <:+ ts ∧ ∃ t ∈ region.getLast?, span = ⟨t.stop, t.stop⟩

theorem kind_of_mem_segments {t : Token} (h : .blank t ∈ segments ts) : t.kind = .newline := by
  obtain ⟨block, -, hblock⟩ := List.mem_flatMap.mp h
  revert hblock
  generalize (none : Option Failure) = sofar
  fun_induction segmentsAfter sofar block with
  | case1 => simp
  | case2 sofar u us hu ih =>
    intro hmem
    rcases List.mem_cons.mp hmem with heq | hmore
    · obtain rfl := Segment.blank.inj heq
      exact hu
    · exact ih hmore
  | case3 _ _ _ _ _ _ _ _ _ ih =>
    intro hmem
    exact ih ((List.mem_cons.mp hmem).resolve_left (by simp))
  | case4 _ _ _ _ _ _ _ _ ih =>
    intro hmem
    exact ih ((List.mem_cons.mp hmem).resolve_left (by simp))

/-- **Every segment is sound.** -/
theorem sound_of_mem_segments (h : s ∈ segments ts) : s.Sound := by
  have hne := tokens_ne_nil_of_mem_segments h
  cases s with
  | blank newline => exact kind_of_mem_segments h
  | item x taken => exact ⟨hne, x.rearranges taken (mem_spellings_of_mem_segments h)⟩
  | broken taken failure => exact hne

/-! ## Items of a source -/

/-- Tokens that stand one behind the other are found by sorting. -/
theorem mergeSort_eq_of_perm {slots : List Token} (hperm : taken.Perm slots)
    (hordered : taken.Pairwise fun t u => t.offset < u.offset) :
    slots.mergeSort (fun t u => t.offset ≤ u.offset) = taken := by
  have hsorted : (slots.mergeSort fun t u => t.offset ≤ u.offset).Pairwise
      fun t u => t.offset ≤ u.offset := by
    refine (List.pairwise_mergeSort ?_ ?_ slots).imp of_decide_eq_true
    · intro t u v htu huv
      simp only [decide_eq_true_eq] at htu huv ⊢
      exact Nat.le_trans htu huv
    · intro t u
      simp only [Bool.or_eq_true, decide_eq_true_eq]
      exact Nat.le_total t.offset u.offset
  have hsame : (slots.mergeSort fun t u => t.offset ≤ u.offset).Perm taken :=
    (List.mergeSort_perm slots _).trans hperm.symm
  have hnodup : (taken.map Token.offset).Nodup :=
    List.pairwise_map.mpr (hordered.imp Nat.ne_of_lt)
  refine hsame.eq_of_pairwise (fun t u ht hu htu hut => ?_) hsorted (hordered.imp Nat.le_of_lt)
  exact List.inj_on_of_nodup_map hnodup (hsame.mem_iff.mp ht) hu (Nat.le_antisymm htu hut)

/-- **Sorted by place, the tokens of an item are its segment.** -/
theorem slots_mergeSort (source : String) (h : .item x taken ∈ segments (tokenize source).tokens) :
    x.tokens.mergeSort (fun t u => t.offset ≤ u.offset) = taken := by
  refine mergeSort_eq_of_perm (x.rearranges taken (mem_spellings_of_mem_segments h)) ?_
  have hinfix := isInfix_of_mem_segments h
  exact (pairwise_offset_tokenize source).sublist hinfix.sublist

/-! ## Faults -/

theorem span_faultAtEnd (last : Token) :
    (faultAtEnd (some last)).span = ⟨last.stop, last.stop⟩ := by
  simp only [faultAtEnd]
  split <;> rfl

/-- A fault at a token. -/
theorem span_fault_of_cons {t : Token} {us : List Token} (hrest : f.rest = t :: us)
    (last : Option Token) : (f.fault last).span = t.span := by
  obtain ⟨rest, refusal⟩ := f
  obtain rfl : rest = t :: us := hrest
  cases refusal with
  | none => rfl
  | some cause => cases cause <;> rfl

/-- A fault at the end of the tokens. -/
theorem span_fault_of_nil (hrest : f.rest = []) (last : Token) :
    (f.fault (some last)).span = ⟨last.stop, last.stop⟩ := by
  rw [Failure.fault, hrest]
  exact span_faultAtEnd last

theorem pointsInto_of_reports (h : f.Reports taken ts) (hne : taken ≠ []) :
    PointsInto (f.fault ts.getLast?).span taken ts := by
  unfold Failure.Reports at h
  cases hrest : f.rest with
  | nil =>
    rw [hrest] at h
    obtain ⟨⟨front, rfl⟩, -⟩ := h
    have hlast : taken.getLast? = some (taken.getLast hne) := List.getLast?_eq_some_getLast hne
    refine .inr ⟨List.suffix_append front taken, _, hlast, ?_⟩
    rw [List.getLast?_append, hlast, Option.some_or]
    exact span_fault_of_nil hrest _
  | cons t more =>
    rw [hrest] at h
    exact .inl ⟨t, h, span_fault_of_cons hrest _⟩

/-- Each region has its fault. -/
theorem forall₂_faults {R : List Token → ParseFault → Prop} {last : Option Token} :
    ∀ segs : List Segment, (∀ taken f, .broken taken f ∈ segs → R taken (f.fault last)) →
      List.Forall₂ R (segs.filterMap Segment.region?)
        ((segs.filterMap Segment.failure?).map (Failure.fault last))
  | [], _ => .nil
  | s :: segs, h => by
    have hmore := forall₂_faults segs fun taken f hmem => h taken f (List.mem_cons_of_mem _ hmem)
    cases s with
    | broken taken f => exact .cons (h taken f List.mem_cons_self) hmore
    | blank => exact hmore
    | item => exact hmore

/-- **What is returned partitions the tokens.** -/
theorem ofTokens_partition (ts : List Token) :
    (segments ts).flatMap Segment.tokens = ts ∧
    (∀ s ∈ segments ts, s.Sound) ∧
    (Tree.ofTokens ts).items = (segments ts).filterMap Segment.item? ∧
    List.Forall₂ (fun region fault => PointsInto (ParseFault.span fault) region ts)
      ((segments ts).filterMap Segment.region?) (Tree.ofTokens ts).faults ∧
    ∀ source x taken, .item x taken ∈ segments (tokenize source).tokens →
      x.tokens.mergeSort (fun t u => t.offset ≤ u.offset) = taken := by
  refine ⟨flatMap_tokens_segments ts, fun s => sound_of_mem_segments, rfl, ?_,
    fun source x taken => slots_mergeSort source⟩
  refine forall₂_faults _ fun taken f hmem => ?_
  exact pointsInto_of_reports (reports_of_mem_segments hmem) (tokens_ne_nil_of_mem_segments hmem)

end Daybook.Tree
