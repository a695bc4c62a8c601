import Daybook.Proofs.Reading.Append
import Daybook.Proofs.Token.Stretch
import Daybook.Proofs.Tree.Opening
import Daybook.Proofs.Tree.Spans

/-!
# Items stand apart

An item is determined by the text at its span. If that text is cut out and read by itself, the same
item is found, without a fault, and nothing else. So an item can be shown, moved or edited with no
regard for the lines around it, and also if those hold faults. About `parse_to_raw` and the spans of
its items ([SPEC 13.6]).

* `StandsApart front inside x`: the item takes up the text `inside` behind `front`, and is read from
  that text alone.

Results:
* `readTree_behind`: tokens that spell an item are read as that item.
* `exists_standsApart`: the item of a segment stands apart.
* `readTree_items_apart`: **every item of a source stands apart**, and the items follow one another.
-/

namespace Daybook

open Daybook.Text Daybook.Tree

/-- The item takes up the text `inside` behind the text `front`, and is read from `inside` alone. -/
structure StandsApart (front inside : List Char) (x : Located Tree.Item) : Prop where
  start : byteLength front = x.span.start
  stop : byteLength (front ++ inside) = x.span.stop
  /-- The item starts with a line. -/
  opens : WholeLines front
  /-- It ends with a line, unless it declares a commodity and lacks its break. -/
  closes : inside.getLast? = some '\n' ∨ ∃ c, x.value = .commodity c ∧ c.newline = none
  /-- Its text is read without a fault. -/
  faults : (readTree (String.ofList inside)).parseFaults = []
  /-- The one item read there is this one, moved to the front. -/
  result : ∃ y, (readTree (String.ofList inside)).result = [y] ∧ Item.behind front y = x

variable {front inside back : List Char} {source : String} {taken us : List Token} {x : Tree.Item}
  {s e : Scanner} {first last : Token} {as bs : List Segment}

/-! ## Tokens that spell an item -/

/-- **Tokens that spell an item are read as that item**, also if a text in front moves them. -/
theorem readTree_behind (hx : taken ∈ x.spellings) (hus : us.map (Token.behind front) = taken) :
    (Tree.ofTokens us).faults = [] ∧
      ∃ y, (Tree.ofTokens us).items = [y] ∧ Item.behind front y = ⟨x, spanOf taken⟩ := by
  have hsettled : Settled (taken ++ []) [⟨x, spanOf taken⟩] :=
    .item hx (fun _ => by simp [Avoids]) .nil
  rw [List.append_nil, settled_iff] at hsettled
  obtain ⟨hfaults, hitems⟩ := hsettled
  rw [← hus] at hfaults hitems
  constructor
  · have hfailures := failures_onTokens (@kind_behind front) us
    rw [ofTokens_faults_eq_nil_iff] at hfaults ⊢
    exact List.map_eq_nil_iff.mp (hfailures.symm.trans hfaults)
  · rw [items_behind] at hitems
    obtain ⟨y, hy, hbehind⟩ := List.map_eq_singleton_iff.mp hitems
    exact ⟨y, hy, hbehind.trans (by rw [hus])⟩

/-- The span of tokens that take up a text. -/
theorem spanOf_stretch (hfirst : first ∈ taken.head?) (hlast : last ∈ taken.getLast?)
    (hplace : first.place = Place.start.advance front)
    (hstop : last.stop = byteLength (front ++ inside)) :
    spanOf taken = ⟨byteLength front, byteLength (front ++ inside)⟩ := by
  have hoffset : first.offset = byteLength front := by
    rw [Token.offset, hplace, Place.offset_advance]
    exact Nat.zero_add _
  have hle : byteLength front ≤ byteLength (front ++ inside) := by
    rw [byteLength_append]
    exact Nat.le_add_right _ _
  simp only [spanOf, Option.mem_def.mp hfirst, Option.mem_def.mp hlast, hoffset, hstop,
    Nat.max_eq_left hle]

/-! ## A declaration that lacks its line break -/

theorem exists_commodity_of_open (hx : x.Open) : ∃ c, x = .commodity c ∧ c.newline = none := by
  cases x with
  | commodity c => exact ⟨c, rfl, hx.1⟩
  | transaction => exact hx.elim
  | lineComment => exact hx.elim
  | price => exact hx.elim
  | account => exact hx.elim
  | defaultCommodity => exact hx.elim

/-- A declaration of a commodity that does not end with its line has no line break at all. -/
theorem newline_not_mem_of_commodity {c : Tree.CommodityDirective} (hx : taken ∈ c.spellings)
    (hlast : last ∈ taken.getLast?) (hkind : last.kind ≠ .newline) :
    ∀ t ∈ taken, t.kind ≠ .newline := by
  have hword := (Grammar.reads_commodityDirective.kinds taken).mpr ⟨c, trivial, hx⟩
  have hnone := Production.newline_not_mem_of_commodityDirective hword (by
    rw [List.getLast?_map, Option.mem_def.mp hlast]
    simpa using hkind)
  exact fun t ht heq => hnone (heq ▸ List.mem_map_of_mem ht)

/-- The keyword is not all of it. -/
theorem one_lt_length_of_commodity {c : Tree.CommodityDirective} (hx : taken ∈ c.spellings) :
    1 < taken.length := by
  have hitem : taken ∈ (Tree.Item.commodity c).spellings := hx
  obtain ⟨first, us, rfl, hkeyword⟩ := Grammar.exists_opener hitem
  cases us with
  | cons => exact Nat.succ_lt_succ (Nat.succ_pos _)
  | nil =>
    have hkind := kind_of_getLast?_item hitem first rfl
    rw [show first.kind = .commodityKeyword from hkeyword] at hkind
    exact absurd hkind (by decide)

/-- **A declaration of a commodity that lacks its line break is read by itself.** -/
theorem alone_of_commodity {c : Tree.CommodityDirective} (hx : first :: us ∈ c.spellings)
    (hstretch : Scanner.Stretch front inside back s e (first :: us)) (hfront : WholeLines front)
    (hbegins : s.Begins front (inside ++ back) first) (hkeyword : first.kind = .commodityKeyword)
    (hfinishes : Scanner.Finishes front inside back s e last)
    (hlast : last ∈ (first :: us).getLast?) (hbreak : last.kind ≠ .newline)
    (hchain : (first :: us).IsChain Token.Precedes) : Scanner.Alone inside back s e := by
  have hline := line_eq_of_isChain hchain fun t ht =>
    newline_not_mem_of_commodity hx hlast hbreak t (List.dropLast_subset _ ht)
  have hnone := hstretch.not_mem_of_line_eq hbegins.place hlast hbreak
    (hline first List.mem_cons_self last (List.mem_of_getLast? hlast))
  have hitem : first :: us ∈ (Tree.Item.commodity c).spellings := hx
  have htagName : last.kind ≠ .tagName := by
    intro heq
    exact absurd (heq ▸ kind_of_getLast?_item hitem last hlast) (by decide)
  obtain ⟨found, move, hnext⟩ := hbegins.next (by simp [hkeyword])
  rw [hkeyword] at hnext
  exact hstretch.run_of_commodity hfront (hfinishes.ends hbreak htagName) hnext
    (one_lt_length_of_commodity hx) hnone

/-! ## The text of an item -/

/-- **The item of a segment stands apart.** -/
theorem exists_standsApart
    (h : segments (tokenize source).tokens = as ++ .item x taken :: bs) :
    ∃ front inside back, source.toList = front ++ (inside ++ back) ∧
      StandsApart front inside ⟨x, spanOf taken⟩ := by
  have hmem : .item x taken ∈ segments (tokenize source).tokens := by simp [h]
  have hx := mem_spellings_of_mem_segments hmem
  have htokens : (tokenize source).tokens =
      as.flatMap Segment.tokens ++ (taken ++ bs.flatMap Segment.tokens) := eq_of_segments h
  obtain ⟨first, us, rfl, hopener, hopens, hcolumn⟩ := startsItem_of_segments h
  obtain ⟨last, hlast⟩ : ∃ last, (first :: us).getLast? = some last :=
    ⟨_, List.getLast?_eq_some_getLast (List.cons_ne_nil first us)⟩
  obtain ⟨front, inside, back, s, e, hsource, hstretch, hbegins, hfinishes⟩ :=
    Scanner.exists_stretch htokens rfl hlast
  have hfront : WholeLines front := by
    rw [← Place.column_eq_one_iff, ← hbegins.place]
    exact hcolumn
  have hchain : (first :: us).IsChain Token.Precedes := by
    have hall := isChain_tokenize source
    rw [htokens] at hall
    exact hall.right_of_append.left_of_append
  have hspan : spanOf (first :: us) = ⟨byteLength front, byteLength (front ++ inside)⟩ :=
    spanOf_stretch rfl hlast hbegins.place hfinishes.stop
  have hfirst : first.kind ≠ .newline := by
    intro heq
    rw [heq] at hopens
    exact absurd hopens (by decide)
  obtain ⟨found, move, hnext⟩ := hbegins.next hfirst
  -- either the text ends with its line, or the line declares a commodity
  obtain ⟨halone, hcloses⟩ : Scanner.Alone inside back s e ∧
      (inside.getLast? = some '\n' ∨ ∃ c, x = .commodity c ∧ c.newline = none) := by
    by_cases hkind : last.kind = .newline
    · have hbreak := hfinishes.wholeLines hkind
      have hwhole : WholeLines inside := by
        rintro c hc
        rw [hbreak] at hc
        exact (Option.some.inj hc).symm
      refine ⟨hstretch.run_of_wholeLines hwhole ?_, .inl hbreak⟩
      rintro rfl
      exact absurd hbreak (by simp)
    · have hopen : x.Open := (closed_or_open hx).resolve_left fun hclosed =>
        hkind (hclosed last hlast)
      obtain ⟨c, rfl, hnewline⟩ := exists_commodity_of_open hopen
      exact ⟨alone_of_commodity hx hstretch hfront hbegins hopener hfinishes hlast hkind hchain,
        .inr ⟨c, rfl, hnewline⟩⟩
  have hread := hstretch.tokens_behind hfront halone hnext hopens
  obtain ⟨hfaults, hresult⟩ := readTree_behind hx hread
  refine ⟨front, inside, back, hsource, ?_, ?_, hfront, hcloses, hfaults, hresult⟩
  · rw [hspan]
  · rw [hspan]

/-! ## All items of a source -/

/-- What stands apart takes up some text. -/
theorem StandsApart.start_lt_stop {x : Located Tree.Item} (h : StandsApart front inside x) :
    x.span.start < x.span.stop := by
  have hne : inside ≠ [] := by
    rintro rfl
    obtain ⟨y, hy, -⟩ := h.result
    have hnone : (readTree (String.ofList [])).result = [] := by decide +kernel
    rw [hnone] at hy
    exact absurd hy (by simp)
  rw [← h.start, ← h.stop, byteLength_append]
  exact Nat.lt_add_of_pos_right (byteLength_pos hne)

/-- **Every item of a source stands apart**: the text at its span, read by itself, holds this one
item and no fault. The item starts with a line and ends with a line, unless it declares a commodity
and lacks its line break, and the items of a source follow one another. -/
theorem readTree_items_apart (source : String) :
    (∀ x ∈ (readTree source).result, ∃ front inside back,
      source.toList = front ++ (inside ++ back) ∧ StandsApart front inside x) ∧
    (readTree source).result.Pairwise (fun x y => x.span.stop ≤ y.span.start) ∧
    ∀ x ∈ (readTree source).result, x.span.start < x.span.stop := by
  have hapart : ∀ x ∈ (readTree source).result, ∃ front inside back,
      source.toList = front ++ (inside ++ back) ∧ StandsApart front inside x := by
    rintro ⟨x, span⟩ hx
    obtain ⟨taken, hs, rfl⟩ := exists_segment hx
    obtain ⟨as, bs, hsplit⟩ := List.append_of_mem hs
    exact exists_standsApart hsplit
  refine ⟨hapart, pairwise_span_items source, fun x hx => ?_⟩
  obtain ⟨front, inside, back, -, h⟩ := hapart x hx
  exact h.start_lt_stop

end Daybook
