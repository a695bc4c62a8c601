import Daybook.Proofs.Reading.Apart
import Daybook.Proofs.Tree.FirstLine

/-!
# Declarations that do not end with their line

Only the declaration of a commodity may lack its line break. It then lacks all lines under it too,
for they would start in the middle of a line. If it does not end the source, its line goes on with
tokens that the rule has no place for. These are given up with the indented lines under them and
reported on that line, but the declaration is kept without what was given up. About
`commodity_directive`, whose line break is optional ([SPEC 4.2], [SPEC 15]).

* `Tree.CommodityDirective.head c`: the spellings of the part in front of the line break.

Results:
* `avoids_newline_of_item`: **a line break behind a declaration belongs to it.**
* `exists_broken_of_open`, `exists_fault_of_open`: what stands behind an open declaration was given
  up and is reported.
* `unended_commodity`: **a declaration without its line break ends the source, or the rest of its
  line is reported.**
* `commodity_kept_without_format`: a declaration loses its format to a stray token.
-/

namespace Daybook

open Text Daybook.Tree

namespace Tree

variable {ts rest taken front : List Token} {x : Item} {c : CommodityDirective}
  {as bs : List Segment} {s : Segment} {source : String}

/-! ## What the rule leaves behind -/

namespace Grammar

open Daybook.Tree.Parser

theorem result_map {α β : Type} {p : Parser α} {f : α → β} {b : β}
    (h : ((f <$> p) ts).result = some (b, rest)) : ∃ a, (p ts).result = some (a, rest) ∧ f a = b := by
  obtain ⟨a, mid, ha, hpure⟩ := result_bind h
  cases hpure
  exact ⟨a, ha, rfl⟩

/-- Where nothing is read that may be missing, it is missing. -/
theorem result_maybe_none {α : Type} {p : Parser α} (h : (maybe p ts).result = some (none, rest)) :
    rest = ts ∧ (p ts).result = none := by
  rcases result_orElse h with hsome | ⟨hnone, hrest⟩
  · obtain ⟨a, -, heq⟩ := result_map hsome
    cases heq
  · refine ⟨?_, ?_⟩
    · cases hrest
      rfl
    · cases hp : (p ts).result with
      | none => rfl
      | some reply =>
        rw [result_map_of_eq some hp] at hnone
        cases hnone

/-- Where nothing is repeated, nothing is taken. -/
theorem result_many_nil {α : Type} {p : Parser α} (h : (many p ts).result = some ([], rest)) :
    rest = ts := by
  unfold many at h
  rw [repeatOn] at h
  split at h
  · cases h
    rfl
  · split at h
    · obtain ⟨reply, -, heq⟩ := Option.map_eq_some_iff.mp h
      cases heq
    · cases h

theorem avoids_newline_of_commodityDirective
    (h : (commodityDirective ts).result = some (c, rest)) (hnewline : c.newline = none)
    (hlines : c.lines = []) : Avoids [.newline] rest := by
  obtain ⟨keyword, _, -, h⟩ := result_bind h
  obtain ⟨declaration, _, -, h⟩ := result_bind h
  obtain ⟨comment, behind, -, h⟩ := result_bind h
  obtain ⟨newline, mid, hbreak, h⟩ := result_bind h
  obtain ⟨lines, last, hmany, h⟩ := result_bind h
  cases h
  obtain rfl : newline = none := hnewline
  obtain rfl : lines = [] := hlines
  obtain ⟨rfl, hfails⟩ := result_maybe_none hbreak
  obtain rfl := result_many_nil hmany
  intro t ht hkind
  obtain ⟨more, rfl⟩ := List.head?_eq_some_iff.mp ht
  simp [token, satisfy, List.mem_singleton.mp hkind] at hfails

/-- **A line break behind a declaration belongs to it.** -/
theorem avoids_newline_of_item (h : (item ts).result = some (x, rest)) (hx : x.Open) :
    Avoids [.newline] rest := by
  obtain ⟨c, rfl, -⟩ := exists_commodity_of_open hx
  unfold item at h
  iterate 4
    rcases result_orElse h with h | ⟨-, h⟩
    · obtain ⟨_, -, heq⟩ := result_map h
      cases heq
  rcases result_orElse h with h | ⟨-, h⟩
  · obtain ⟨c', hc, heq⟩ := result_map h
    cases heq
    exact avoids_newline_of_commodityDirective hc hx.1 hx.2
  · obtain ⟨_, -, heq⟩ := result_map h
    cases heq

end Grammar

/-- Behind an open item the rest of its block starts with no line break. -/
theorem avoids_newline_of_segmentsAfter (hx : x.Open) (sofar : Option Failure) (ts : List Token) :
    ∀ as : List Segment, segmentsAfter sofar ts = as ++ .item x taken :: bs →
      Avoids [.newline] (bs.flatMap Segment.tokens) := by
  fun_induction segmentsAfter sofar ts with
  | case1 => simp
  | case2 sofar t ts _ ih =>
    intro as h
    rcases List.cons_eq_append_iff.mp h with ⟨-, heq⟩ | ⟨as, -, hmore⟩
    · exact absurd (List.cons.inj heq).1 (by simp)
    · exact ih as hmore
  | case3 sofar t ts _ reply failure y rest hresult ih =>
    intro as h
    rcases List.cons_eq_append_iff.mp h with ⟨-, heq⟩ | ⟨as, -, hmore⟩
    · obtain ⟨hsegment, rfl⟩ := List.cons.inj heq
      obtain ⟨rfl, -⟩ := Segment.item.inj hsegment
      rw [flatMap_tokens_segmentsAfter]
      exact Grammar.avoids_newline_of_item hresult hx
    · exact ih as hmore
  | case4 sofar t ts _ reply failure hresult rest ih =>
    intro as h
    rcases List.cons_eq_append_iff.mp h with ⟨-, heq⟩ | ⟨as, -, hmore⟩
    · exact absurd (List.cons.inj heq).1 (by simp)
    · exact ih as hmore

/-! ## A declaration that lacks its line break -/

/-- The part in front of the line break. -/
def CommodityDirective.head (c : CommodityDirective) : Language Token :=
  spellKind .commodityKeyword c.keyword * c.declaration.spellings *
    spellOption Comment.spellings c.comment

theorem newline_not_mem_of_head (h : front ∈ c.head) : ∀ t ∈ front, t.kind ≠ .newline := by
  obtain ⟨_, ⟨ks, hks, ds, hds, rfl⟩, cs, hcs, rfl⟩ := h
  have hnone {ts : List Token} {P : RegularExpression Kind} (hword : ts.map Token.kind ∈ P.matches')
      (hP : Kind.newline ∉ Production.uses P) : ∀ t ∈ ts, t.kind ≠ .newline := fun t ht heq =>
    hP (heq ▸ Production.mem_uses hword _ (List.mem_map_of_mem ht))
  have hkeyword := hnone (((reads_token .commodityKeyword).kinds ks).mpr ⟨_, trivial, hks⟩)
    (by decide)
  have hdeclaration := hnone ((Grammar.reads_declaration.kinds ds).mpr ⟨_, trivial, hds⟩)
    (by decide)
  have hcomment := hnone (((Grammar.reads_comment.maybe rfl).kinds cs).mpr ⟨_, trivial, hcs⟩)
    (by decide)
  simp only [List.mem_append]
  rintro t ((ht | ht) | ht)
  · exact hkeyword t ht
  · exact hdeclaration t ht
  · exact hcomment t ht

theorem head_ne_nil (h : front ∈ c.head) : front ≠ [] := by
  obtain ⟨_, ⟨ks, hks, ds, -, rfl⟩, cs, -, rfl⟩ := h
  obtain ⟨rfl, -⟩ := mem_spellKind.mp hks
  simp

/-- **A declaration that lacks its line break lacks the lines under it.** -/
theorem open_of_newline_eq_none (hx : taken ∈ c.spellings) (hchain : taken.IsChain Token.Precedes)
    (hnewline : c.newline = none) : c.lines = [] ∧ ∀ t ∈ taken, t.kind ≠ .newline := by
  obtain ⟨_, ⟨front, hfront, ns, hns, rfl⟩, ls, hls, rfl⟩ := hx
  rw [hnewline] at hns
  obtain rfl := (Language.mem_one ns).mp hns
  have hnone := newline_not_mem_of_head hfront
  have hlines : c.lines = [] := by
    by_contra hne
    obtain ⟨t, more, rfl, hindent⟩ := Grammar.exists_indent_of_mem_lines hne hls
    -- the first line would start right behind the last token of the declaration
    obtain ⟨init, u, rfl⟩ := (List.eq_nil_or_concat' front).resolve_left (head_ne_nil hfront)
    have hbehind : (init ++ (u :: t :: more)).IsChain Token.Precedes := by simpa using hchain
    have hprecedes := (List.isChain_cons_cons.mp hbehind.right_of_append).1
    exact hprecedes.indents (hnone u (by simp)) hindent
  rw [hlines] at hls
  obtain rfl := (Language.mem_one ls).mp hls
  simpa using ⟨hlines, hnone⟩

/-! ## What stands behind it -/

/-- Behind an open item no line break comes next. -/
theorem avoids_newline_of_segments (h : segments ts = as ++ .item x taken :: bs) (hx : x.Open)
    (htaken : ∀ t ∈ taken, t.kind ≠ .newline) : Avoids [.newline] (bs.flatMap Segment.tokens) := by
  obtain ⟨before, block, after, as', bs', hblocks, hblock, rfl⟩ := exists_of_flatMap h
  have havoids := avoids_newline_of_segmentsAfter hx none block as' hblock
  rw [List.flatMap_append]
  cases hmore : bs'.flatMap Segment.tokens with
  | cons t us =>
    rw [hmore] at havoids
    exact havoids
  | nil =>
    -- the block ends with the item and without a line break, so it is the last
    have hsuffix : taken <:+ block := by
      refine ⟨as'.flatMap Segment.tokens, ?_⟩
      rw [← flatMap_tokens_segmentsAfter none block, hblock, List.flatMap_append,
        List.flatMap_cons, hmore, List.append_nil]
      rfl
    have hlast : after = [] := by
      by_contra hne
      have hfront : block ∈ (blocks ts).dropLast := by
        rw [hblocks, List.dropLast_append_of_ne_nil (List.cons_ne_nil block _),
          List.dropLast_cons_of_ne_nil hne]
        exact List.mem_append_right before List.mem_cons_self
      have hmem : .item x taken ∈ segments ts := by simp [h]
      obtain ⟨n, hn, hend⟩ := ((closed_of_mem_dropLast hfront).of_isSuffix hsuffix).exists_break
        (tokens_ne_nil_of_mem_segments hmem)
      exact htaken n (hend.subset List.mem_cons_self) hn
    rw [hlast]
    exact fun t ht => absurd ht (by simp)

/-- **What stands behind an open item was given up.** -/
theorem exists_broken_of_open
    (h : segments (tokenize source).tokens = as ++ .item x taken :: s :: bs) (hx : x.Open)
    (htaken : ∀ t ∈ taken, t.kind ≠ .newline) : ∃ region f, s = .broken region f := by
  have hmem : .item x taken ∈ segments (tokenize source).tokens := by simp [h]
  have hs : s ∈ segments (tokenize source).tokens := by simp [h]
  have havoids := avoids_newline_of_segments h hx htaken
  cases hkind : s with
  | broken region f => exact ⟨region, f, rfl⟩
  | blank n =>
    subst hkind
    exact absurd (kind_of_mem_segments hs) (by simpa using havoids n rfl)
  | item y us =>
    subst hkind
    obtain ⟨init, last, rfl⟩ := (List.eq_nil_or_concat' taken).resolve_left
      (tokens_ne_nil_of_mem_segments hmem)
    have hsplit : segments (tokenize source).tokens =
        (as ++ [.item x (init ++ [last])]) ++ .item y us :: bs := by rw [h]; simp
    obtain ⟨u, us, rfl, -, -, hcolumn⟩ := startsItem_of_segments hsplit
    -- the item would start in the middle of a line
    have htokens := eq_of_segments h
    have hchain := isChain_tokenize source
    have hpos := column_pos_tokenize source last (by rw [htokens]; simp [Segment.tokens])
    have hbehind : (as.flatMap Segment.tokens ++ init ++
        (last :: u :: (us ++ bs.flatMap Segment.tokens))).IsChain Token.Precedes := by
      rw [htokens] at hchain
      simpa [Segment.tokens] using hchain
    have hprecedes := (List.isChain_cons_cons.mp hbehind.right_of_append).1
    have hlt := (hprecedes.inLine (htaken last (by simp))).2
    omega

theorem kind_of_mem_dropLast_firstLine (ts : List Token) :
    ∀ t ∈ (firstLine ts).dropLast, t.kind ≠ .newline := by
  induction ts with
  | nil => simp [firstLine]
  | cons u ts ih =>
    rw [firstLine]
    split
    · simp
    · next hu =>
      intro t ht
      rcases mem_dropLast_cons ht with ⟨rfl, -⟩ | hmore
      · exact hu
      · exact ih t hmore

/-- The first line of a list goes on in a longer one. -/
theorem firstLine_subset_append (us vs : List Token) : firstLine us ⊆ firstLine (us ++ vs) := by
  by_cases hbreak : ∃ n ∈ us, n.kind = .newline
  · obtain ⟨n, hn, hkind⟩ := hbreak
    rw [firstLine_append_of_break hn hkind]
    exact List.Subset.refl _
  · rw [firstLine_append (by simpa using hbreak)]
    exact List.subset_append_of_subset_left _ (firstLine_isPrefix us).subset

/-- The fault of a region points into the first line of all that stands there. -/
theorem pointsIntoLine_behind {f : Failure} (h : segments ts = as ++ .broken taken f :: bs) :
    PointsIntoLine (f.fault ts.getLast?).span (taken ++ bs.flatMap Segment.tokens) ts := by
  cases hrest : f.rest with
  | nil =>
    obtain ⟨rfl, -⟩ := last_of_segments h hrest
    simpa using pointsIntoLine_of_segments h
  | cons t us =>
    have hpoints := pointsAt_of_segments h
    rw [Failure.PointsAt, hrest] at hpoints
    exact .inl ⟨t, firstLine_subset_append _ _ hpoints, span_fault_of_cons hrest _⟩

/-- Tokens without a line break among them and those up to the next one stand on one line. -/
theorem line_eq_of_open {behind : List Token} (hchain : (taken ++ behind).IsChain Token.Precedes)
    (htaken : ∀ t ∈ taken, t.kind ≠ .newline) :
    ∀ t ∈ taken ++ firstLine behind, ∀ u ∈ taken ++ firstLine behind,
      t.place.line = u.place.line := by
  have hline : taken ++ firstLine behind <+: taken ++ behind :=
    (List.prefix_append_right_inj taken).mpr (firstLine_isPrefix behind)
  have hupto := List.IsChain.prefix hchain hline
  refine line_eq_of_isChain hupto fun t ht => ?_
  by_cases hnil : firstLine behind = []
  · rw [hnil, List.append_nil] at ht
    exact htaken t (List.mem_of_mem_dropLast ht)
  · rw [List.dropLast_append_of_ne_nil hnil] at ht
    exact (List.mem_append.mp ht).elim (htaken t) (kind_of_mem_dropLast_firstLine behind t)

/-- Behind the last token of a source there is none. -/
theorem eq_nil_of_getLast?_eq {before behind : List Token}
    (htokens : (tokenize source).tokens = before ++ (taken ++ behind)) (hne : taken ≠ [])
    (hlast : taken.getLast? = (tokenize source).tokens.getLast?) : behind = [] := by
  by_contra hsome
  have hordered := pairwise_offset_tokenize source
  rw [htokens] at hordered hlast
  rw [List.getLast?_append_of_ne_nil _ (by simp [hne]), List.getLast?_append_of_ne_nil _ hsome,
    List.getLast?_eq_some_getLast hsome] at hlast
  have hlt := (List.pairwise_append.mp (List.pairwise_append.mp hordered).2.1).2.2 _
    (List.mem_of_mem_getLast? hlast) _ (List.getLast_mem hsome)
  exact Nat.lt_irrefl _ hlt

/-- What was given up behind an open item is reported on its line. -/
theorem exists_fault_of_open
    (h : segments (tokenize source).tokens = as ++ .item x taken :: s :: bs) (hx : x.Open)
    (htaken : ∀ t ∈ taken, t.kind ≠ .newline) :
    ∃ fault ∈ (readTree source).parseFaults,
      PointsIntoLine fault.span ((s :: bs).flatMap Segment.tokens) (tokenize source).tokens := by
  obtain ⟨region, f, rfl⟩ := exists_broken_of_open h hx htaken
  have hregion : segments (tokenize source).tokens =
      (as ++ [.item x taken]) ++ .broken region f :: bs := by rw [h]; simp
  have hfailure : f ∈ (segments (tokenize source).tokens).filterMap Segment.failure? :=
    List.mem_filterMap.mpr ⟨.broken region f, by simp [hregion], rfl⟩
  exact ⟨_, List.mem_map_of_mem hfailure, pointsIntoLine_behind hregion⟩

end Tree

/-! ## Declarations of a source -/

/-- **A declaration without its line break ends the source, or the rest of its line is reported.**
It has no lines under it. The tokens behind it go on with its line, and its last token is the last
of all just if no fault of the grammar points into that line behind it. -/
theorem unended_commodity (source : String) {x : Located Tree.Item} {c : Tree.CommodityDirective}
    (hx : x ∈ (readTree source).result) (hc : x.value = .commodity c) (hnewline : c.newline = none) :
    c.lines = [] ∧ ∃ before taken behind,
      (tokenize source).tokens = before ++ (taken ++ behind) ∧
      (tokenize source).within x.span = taken ∧
      (∀ t ∈ taken ++ firstLine behind, ∀ u ∈ taken ++ firstLine behind,
        t.place.line = u.place.line) ∧
      (taken.getLast? = (tokenize source).tokens.getLast? ↔
        ¬ ∃ fault ∈ (readTree source).parseFaults,
          PointsIntoLine fault.span behind (tokenize source).tokens) := by
  obtain ⟨taken, hmem, hspan⟩ := Tree.exists_segment hx
  obtain ⟨as, bs, hsplit⟩ := List.append_of_mem hmem
  have htokens : (tokenize source).tokens =
      as.flatMap Segment.tokens ++ (taken ++ bs.flatMap Segment.tokens) := eq_of_segments hsplit
  have hne : taken ≠ [] := tokens_ne_nil_of_mem_segments hmem
  have hspelled : taken ∈ c.spellings := by
    have hitem := mem_spellings_of_mem_segments hmem
    rwa [hc] at hitem
  have hchain := isChain_tokenize source
  rw [htokens] at hchain
  have hbehind := hchain.right_of_append
  obtain ⟨hlines, htaken⟩ := open_of_newline_eq_none hspelled hbehind.left_of_append hnewline
  have hopen : x.value.Open := hc ▸ ⟨hnewline, hlines⟩
  refine ⟨hlines, _, taken, _, htokens, hspan ▸ within_spanOf hne htokens,
    line_eq_of_open hbehind htaken, ?_⟩
  constructor
  · rintro hlast ⟨fault, -, hpoints⟩
    rw [eq_nil_of_getLast?_eq htokens hne hlast] at hpoints
    rcases hpoints with ⟨t, ht, -⟩ | ⟨-, -, t, ht, -⟩
    · exact absurd ht List.not_mem_nil
    · cases ht
  · intro hnone
    cases bs with
    | nil =>
      rw [htokens, List.flatMap_nil, List.append_nil, List.getLast?_append_of_ne_nil _ hne]
    | cons s bs => exact absurd (exists_fault_of_open hsplit hopen htaken) hnone

/-! ## A stray token -/

/-- A declaration with a stray token behind it, and a format and a comment under it. -/
def strayCommodity : String := "commodity CAD EUR\n  format 1.00 CAD\n  ; k: v\n"

/-- What is left of the declaration. -/
def strippedDeclaration : Tree.CommodityDirective where
  keyword := { kind := .commodityKeyword, image := "commodity", place := ⟨0, 1, 1⟩ }
  declaration := .name
    { kind := .commodity, image := "CAD", place := ⟨10, 1, 11⟩, payload := some (.text "CAD") }
  comment := none
  newline := none
  lines := []

/-- What is read of it, and what is reported. -/
theorem readTree_strayCommodity :
    (readTree strayCommodity).result = [⟨.commodity strippedDeclaration, ⟨0, 13⟩⟩] ∧
      ((tokenize strayCommodity).within ⟨0, 13⟩).getLast? ≠
        (tokenize strayCommodity).tokens.getLast? ∧
      (readTree strayCommodity).parseFaults.map (·.cause) =
        [.unexpectedToken "commodity 'EUR'"] := by
  decide +kernel

/-- **The declaration is kept without its format and its comment.** It has no line break, and its
last token is not the last one. -/
theorem commodity_kept_without_format :
    (readTree strayCommodity).result = [⟨.commodity strippedDeclaration, ⟨0, 13⟩⟩] ∧
      strippedDeclaration.newline = none ∧
      ((tokenize strayCommodity).within ⟨0, 13⟩).getLast? ≠
        (tokenize strayCommodity).tokens.getLast? ∧
      (readTree strayCommodity).parseFaults.map (·.cause) =
        [.unexpectedToken "commodity 'EUR'"] :=
  ⟨readTree_strayCommodity.1, rfl, readTree_strayCommodity.2⟩

/-- The same declaration, with what was given up behind it. -/
theorem unended_commodity_stray :
    strippedDeclaration.newline = none ∧ strippedDeclaration.lines = [] ∧
      ∃ before taken behind,
      (tokenize strayCommodity).tokens = before ++ (taken ++ behind) ∧
      (tokenize strayCommodity).within ⟨0, 13⟩ = taken ∧
      (∀ t ∈ taken ++ firstLine behind, ∀ u ∈ taken ++ firstLine behind,
        t.place.line = u.place.line) ∧
      (taken.getLast? = (tokenize strayCommodity).tokens.getLast? ↔
        ¬ ∃ fault ∈ (readTree strayCommodity).parseFaults,
          PointsIntoLine fault.span behind (tokenize strayCommodity).tokens) := by
  have hmem : ⟨.commodity strippedDeclaration, ⟨0, 13⟩⟩ ∈ (readTree strayCommodity).result := by
    rw [readTree_strayCommodity.1]
    exact List.mem_singleton_self _
  exact ⟨rfl, unended_commodity strayCommodity hmem rfl rfl⟩

end Daybook
