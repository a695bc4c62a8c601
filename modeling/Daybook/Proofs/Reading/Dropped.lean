import Daybook.Proofs.Token.Dropped
import Daybook.Proofs.Tree.Exact
import Daybook.Proofs.Tree.Spans
import Daybook.Reading

/-!
# Items and the lines that are dropped

The grammar does not see the lines that are dropped. If the line below one is indented, it is read
as a line of the item above, also where the line that was dropped is a mistyped header of its own.
Any other line below it ends the item, and then the line that was dropped stands outside of all
items. About `recover` and `journal_item` ([SPEC 11.5]); `skip_item` would have passed over the
lines under a broken item.

* `TokenStream.next? stream f`: the first token behind a fault.
* `KeepsToLines source s`: the lines that an item with this span takes up.

Results:
* `exists_cut`: where a list is cut, a stretch of it is cut or lies on one side.
* `disjoint_or_indent`: **a line that was dropped is outside of an item unless an indented line of
  the item comes next.**
* `readTree_lines`: **an item has tokens on every line from its first to its last but those that
  were dropped in front of its indented lines.**
* `readJournal_mistyped_date`: two transactions become one.
-/

namespace Daybook

open Daybook.Text Daybook.Tree

/-- The first token behind a fault. -/
def TokenStream.next? (stream : TokenStream) (f : ScanFault) : Option Token :=
  stream.tokens.find? (f.stop ≤ ·.offset)

/-- The lines that an item with this span takes up. -/
structure KeepsToLines (source : String) (s : Span) : Prop where
  /-- A line that was dropped is outside of the item, unless an indented line of it comes next. -/
  dropped : ∀ f ∈ (tokenize source).faults, f.dropsLine → f.span.Disjoint s ∨
    ∃ t ∈ (tokenize source).within s, t.kind = .indent ∧ (tokenize source).next? f = some t
  /-- Every line between two tokens of the item has a token of it or was dropped inside of it. -/
  lines : ∀ t ∈ (tokenize source).within s, ∀ u ∈ (tokenize source).within s, ∀ n,
    t.place.line < n → n < u.place.line →
    (∃ v ∈ (tokenize source).within s, v.place.line = n) ∨
      ∃ f ∈ (tokenize source).faults, f.dropsLine ∧ f.place.line = n ∧
        s.start < f.place.offset ∧ f.stop < s.stop

variable {source : String} {taken as bs pre post : List Token} {x : Item} {f : ScanFault}
  {t u : Token} {n : Nat}

/-! ## Where a line was dropped -/

/-- **Where a list is cut, a stretch of it is cut or lies on one side.** -/
theorem exists_cut (h : as ++ (taken ++ bs) = pre ++ post) : taken ⊆ pre ∨ taken ⊆ post ∨
    ∃ front t u back, taken = front ++ t :: u :: back ∧ t ∈ pre.getLast? ∧ u ∈ post.head? := by
  rcases List.append_eq_append_iff.mp h with ⟨cs, rfl, hcs⟩ | ⟨cs, -, rfl⟩
  · rcases List.append_eq_append_iff.mp hcs with ⟨ds, rfl, -⟩ | ⟨ds, rfl, rfl⟩
    · exact .inl fun _ ht => List.mem_append_right as (List.mem_append_left ds ht)
    · rcases List.eq_nil_or_concat cs with rfl | ⟨front, t, rfl⟩
      · exact .inr (.inl fun _ hu => List.mem_append_left bs hu)
      · cases ds with
        | nil => exact .inl fun _ ht => List.mem_append_right as (by simpa using ht)
        | cons u back =>
          refine .inr (.inr ⟨front, t, u, back, ?_, ?_, rfl⟩)
          · rw [List.concat_eq_append, List.append_assoc, List.singleton_append]
          · rw [List.concat_eq_append, ← List.append_assoc, List.getLast?_concat]
            rfl
  · exact .inr (.inl fun _ hu => List.mem_append_right cs (List.mem_append_left bs hu))

/-- Behind a line that was dropped come the tokens that it parts from those in front of it. -/
theorem next?_eq_head? (htokens : (tokenize source).tokens = pre ++ post)
    (hparts : f.place.Parts pre post) (hbehind : ∀ t ∈ post, f.stop ≤ t.offset) :
    (tokenize source).next? f = post.head? := by
  have hfront : pre.find? (f.stop ≤ ·.offset) = none := by
    refine List.find?_eq_none.mpr fun t ht => ?_
    have hpos := (pairwise_stop_tokenize source).1 t (htokens ▸ List.mem_append_left post ht)
    have hle := (hparts.front t ht).1
    have hstop : f.place.offset ≤ f.stop := Nat.le_add_right _ _
    simp only [decide_eq_true_eq]
    omega
  rw [TokenStream.next?, htokens, List.find?_append, hfront, Option.none_or]
  cases post with
  | nil => rfl
  | cons u us => exact List.find?_cons_of_pos (decide_eq_true (hbehind u List.mem_cons_self))

/-- Inside an item only an indented line follows a line break. -/
theorem kind_of_mem_spellings {front back : List Token} (hx : front ++ t :: u :: back ∈ x.spellings)
    (ht : t.kind = .newline) : u.kind = .indent := by
  have hchain := (isChain_of_mem_spellings hx).right_of_append
  have hends := (List.isChain_cons_cons.mp hchain).1
  simpa [endsBlock, ht] using hends

/-- **A line that was dropped is outside of an item unless an indented line of the item comes
next.** -/
theorem disjoint_or_indent (hx : .item x taken ∈ segments (tokenize source).tokens)
    (hf : f ∈ (tokenize source).faults) (hdrops : f.dropsLine) :
    f.span.Disjoint (spanOf taken) ∨
      ∃ t ∈ taken, t.kind = .indent ∧ (tokenize source).next? f = some t := by
  obtain ⟨pre, post, htokens, hparts, hbehind⟩ := exists_parts_tokenize hf hdrops
  obtain ⟨as, bs, hinfix⟩ := isInfix_of_mem_segments hx
  have hsplit : as ++ (taken ++ bs) = pre ++ post := by
    rw [← htokens, ← hinfix, List.append_assoc]
    rfl
  rcases exists_cut hsplit with hfront | hback | ⟨front, t, u, back, rfl, ht, hu⟩
  · exact .inl (.inr (stop_spanOf_le fun t ht => (hparts.front t (hfront ht)).1))
  · obtain ⟨first, us, rfl⟩ := List.exists_cons_of_ne_nil (tokens_ne_nil_of_mem_segments hx)
    refine .inl (.inl ?_)
    rw [start_spanOf]
    exact hbehind first (hback List.mem_cons_self)
  · refine .inr ⟨u, by simp, ?_, (next?_eq_head? htokens hparts hbehind).trans hu⟩
    exact kind_of_mem_spellings (mem_spellings_of_mem_segments hx) (hparts.closed t ht)

/-! ## The lines of an item -/

/-- A line that was dropped between the lines of two tokens lies between the tokens. -/
theorem between_of_dropped (hf : f ∈ (tokenize source).faults) (hdrops : f.dropsLine)
    (ht : t ∈ (tokenize source).tokens) (hu : u ∈ (tokenize source).tokens)
    (hlt : t.place.line < f.place.line) (hgt : f.place.line < u.place.line) :
    t.stop ≤ f.place.offset ∧ f.stop ≤ u.offset := by
  obtain ⟨pre, post, htokens, hparts, hbehind⟩ := exists_parts_tokenize hf hdrops
  rw [htokens] at ht hu
  constructor
  · rcases List.mem_append.mp ht with hpre | hpost
    · exact (hparts.front t hpre).1
    · exact absurd (hparts.behind t hpost).2 (Nat.not_le.mpr hlt)
  · rcases List.mem_append.mp hu with hpre | hpost
    · exact absurd (hparts.front u hpre).2 (Nat.not_le.mpr hgt)
    · exact hbehind u hpost

/-- A line break between two tokens of a stretch is one of the stretch. -/
theorem mem_of_line_between (htokens : (tokenize source).tokens = as ++ (taken ++ bs))
    (ht : t ∈ taken) (hu : u ∈ taken) {w : Token} (hw : w ∈ (tokenize source).tokens)
    (hkind : w.kind = .newline) (hlt : t.place.line < w.place.line)
    (hgt : w.place.line < u.place.line) : w ∈ taken := by
  have hordered := pairwise_line_tokenize source
  rw [htokens] at hordered hw
  obtain ⟨-, hmore, hfront⟩ := List.pairwise_append.mp hordered
  have hback := (List.pairwise_append.mp hmore).2.2
  rcases List.mem_append.mp hw with has | hrest
  · have hline := (hfront w has t (List.mem_append_left bs ht)).2 hkind
    exact absurd hlt (Nat.lt_asymm hline)
  · refine (List.mem_append.mp hrest).resolve_right fun hbs => ?_
    exact absurd (hback u hu w hbs).1 (Nat.not_le.mpr hgt)

/-- What holds of the tokens of an item. -/
theorem keepsToLines_of_segments {front back : List Segment}
    (h : segments (tokenize source).tokens = front ++ .item x taken :: back) :
    KeepsToLines source (spanOf taken) := by
  have hmem : .item x taken ∈ segments (tokenize source).tokens := by simp [h]
  have htokens : (tokenize source).tokens =
      front.flatMap Segment.tokens ++ (taken ++ back.flatMap Segment.tokens) := eq_of_segments h
  have hwithin : (tokenize source).within (spanOf taken) = taken :=
    within_spanOf (tokens_ne_nil_of_mem_segments hmem) htokens
  constructor
  case dropped =>
    intro f hf hdrops
    rw [hwithin]
    exact disjoint_or_indent hmem hf hdrops
  case lines =>
    intro t ht u hu n hlt hgt
    obtain ⟨htmem, htin⟩ := List.mem_filter.mp ht
    obtain ⟨humem, huin⟩ := List.mem_filter.mp hu
    rw [hwithin] at ht hu ⊢
    rcases line_told_tokenize (Nat.one_le_of_lt hlt) humem hgt with
      ⟨w, hw, hkind, rfl⟩ | ⟨f, hf, hdrops, rfl⟩
    · exact .inl ⟨w, mem_of_line_between htokens ht hu hw hkind hlt hgt, rfl⟩
    · obtain ⟨hfront, hbehind⟩ := between_of_dropped hf hdrops htmem humem hlt hgt
      have hpos := (pairwise_stop_tokenize source).1
      have htpos := hpos t htmem
      have hupos := hpos u humem
      simp only [decide_eq_true_eq] at htin huin
      exact .inr ⟨f, hf, hdrops, rfl, by omega, by omega⟩

/-- **An item has tokens on every line from its first to its last but those that were dropped in
front of its indented lines.** -/
theorem readTree_lines (source : String) :
    ∀ x ∈ (readTree source).result, KeepsToLines source x.span := by
  intro x hx
  obtain ⟨taken, hs, hspan⟩ := exists_segment hx
  obtain ⟨front, back, hsplit⟩ := List.append_of_mem hs
  rw [hspan]
  exact keepsToLines_of_segments hsplit

/-! ## A mistyped date -/

/-- Two transactions, where the date of the second has a letter for a digit. -/
def mistypedDate : String := "2000/01/01 x\n  A  1\n2000/O1/02 y\n  B  2\n"

/-- The line that was dropped lies in the item, in front of its second posting. -/
theorem readTree_mistyped_date : ∃ x ∈ (readTree mistypedDate).result, x.span = ⟨0, 40⟩ ∧
    KeepsToLines mistypedDate x.span := by
  have hspans : (readTree mistypedDate).result.map (·.span) = [⟨0, 40⟩] := by decide +kernel
  obtain ⟨x, hx, hspan⟩ := List.map_eq_singleton_iff.mp hspans
  have hmem : x ∈ (readTree mistypedDate).result := by rw [hx]; exact List.mem_singleton_self x
  exact ⟨x, hmem, hspan, readTree_lines mistypedDate x hmem⟩

/-- **Two transactions become one**, and the posting of the second goes to the first. -/
theorem readJournal_mistyped_date :
    (¬ ∀ x ∈ (readTree mistypedDate).result, ∀ f ∈ (readTree mistypedDate).scanFaults,
      f.dropsLine → f.span.Disjoint x.span) ∧
    readJournal 2000 mistypedDate = .ok {
      result := ⟨[{
        date := ⟨2000, 1, 1, by decide⟩
        secondDate := none
        status := .unmarked
        chequeNumber := none
        description := .plain "x"
        postings := [
          ⟨.unmarked, ⟨.real, ["A"]⟩, some ⟨⟨false, 1, 0, by decide, by decide⟩, none⟩, none, none,
            []⟩,
          ⟨.unmarked, ⟨.real, ["B"]⟩, some ⟨⟨false, 2, 0, by decide, by decide⟩, none⟩, none, none,
            []⟩]
        tags := [] }], [], [], [], none⟩
      scanFaults := [⟨⟨20, 3, 1⟩, 12, .unknownLine "2000/O1/02 y"⟩]
      parseFaults := [] } := by
  have hspans : (readTree mistypedDate).result.map (·.span) = [⟨0, 40⟩] := by decide +kernel
  have hfaults : (readTree mistypedDate).scanFaults =
      [⟨⟨20, 3, 1⟩, 12, .unknownLine "2000/O1/02 y"⟩] := by decide +kernel
  refine ⟨fun hall => ?_, by decide +kernel⟩
  obtain ⟨x, hx, hspan⟩ := List.map_eq_singleton_iff.mp hspans
  have hdisjoint := hall x (by rw [hx]; exact List.mem_singleton_self x) _
    (by rw [hfaults]; exact List.mem_singleton_self _) rfl
  rw [hspan] at hdisjoint
  exact absurd hdisjoint (by rintro (h | h) <;> exact absurd h (by decide))

end Daybook
