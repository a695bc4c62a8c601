import Daybook.Proofs.Tree.Rules
import Daybook.Tree.Segment

/-!
# The grammar reads exactly its language

The tokens of a journal are read without a fault just in case their kinds are a word of the language
of journals, and what is read is then the derivation of that word. The language is ambiguous in one
place only: a line break behind a commodity that lacks its own may belong to it or be an empty line.
It is read as part of the commodity. About `journal` and `journal_item` ([SPEC 4.2]).

* `Derives C ts xs`: the items `xs` can be read from `ts`, with empty lines between them.
* `Derivation`, `Settled`: all derivations, and those that leave such a line break to the commodity.

Results:
* `derivation_iff`: **what can be derived is the language.**
* `Derives.settle`: every derivation has a settled one that differs in such line breaks only.
* `parses_exactly`: **a journal is read without a fault just in case it has a derivation, and what
  is read is its settled derivation.**
-/

namespace Daybook.Tree

open RegularExpression Grammar Production
open scoped Computability

/-- The items that can be read from the tokens. Behind an item `x` the tokens are as `C x` says. -/
inductive Derives (C : Item → List Token → Prop) : List Token → List (Located Item) → Prop
  /-- Nothing. -/
  | nil : Derives C [] []
  /-- An empty line. -/
  | blank {t : Token} {ts : List Token} {xs : List (Located Item)} (ht : t.kind = .newline)
      (h : Derives C ts xs) : Derives C (t :: ts) xs
  /-- An item. -/
  | item {x : Item} {front rest : List Token} {xs : List (Located Item)}
      (hfront : front ∈ x.spellings) (hrest : C x rest) (h : Derives C rest xs) :
      Derives C (front ++ rest) (⟨x, spanOf front⟩ :: xs)

/-- Any derivation. -/
abbrev Derivation : List Token → List (Located Item) → Prop := Derives fun _ _ => True

/-- The derivations in which a line break behind a commodity that lacks its own belongs to it. -/
abbrev Settled : List Token → List (Located Item) → Prop :=
  Derives fun x rest => x.Open → Avoids [.newline] rest

/-- The item without a line break that could be read as an empty line behind it. -/
def Item.trimmed : Item → Item
  | commodity c => if c.lines = [] then .commodity { c with newline := none } else .commodity c
  | x => x

variable {C : Item → List Token → Prop} {ts us vs front rest : List Token} {x : Item}
  {xs ys : List (Located Item)} {sofar : Option Failure}

/-! ## Derivations and the language -/

/-- A derivation starts with an empty line or an item. -/
theorem Derives.head (h : Derives C ts xs) :
    ∀ t ∈ ts.head?, t.kind = .newline ∨ t.kind.opensItem := by
  cases h with
  | nil => simp
  | blank ht _ =>
    rintro _ ⟨⟩
    exact .inl ht
  | @item x _ _ _ hfront _ _ =>
    obtain ⟨t, us, rfl, ht⟩ := exists_opener hfront
    rintro _ ⟨⟩
    rw [ht]
    exact .inr (opensItem_opener x)

theorem Derives.blanks (hus : us.map Token.kind ∈ (char Kind.newline).star.matches')
    (h : Derives C vs xs) : Derives C (us ++ vs) xs := by
  refine flatten_induction (P := fun word => ∀ us : List Token, us.map Token.kind = word →
    Derives C (us ++ vs) xs) ?_ ?_ hus us rfl
  · intro us hus
    obtain rfl := List.map_eq_nil_iff.mp hus
    exact h
  · intro u v hu _ ih us hus
    obtain ⟨as, bs, rfl, hbreak, rfl⟩ := List.map_eq_append_iff.mp hus
    obtain rfl : u = [.newline] := hu
    obtain ⟨t, rfl, ht⟩ := List.map_eq_singleton_iff.mp hbreak
    exact .blank ht (ih bs rfl)

/-- **What can be derived is the language.** -/
theorem derivation_iff : ts.map Token.kind ∈ journal.matches' ↔ ∃ xs, Derivation ts xs := by
  constructor
  · intro hword
    obtain ⟨us, vs, hus, hvs, rfl⟩ := map_mem_mul.mp hword
    suffices h : ∃ xs, Derivation vs xs by
      obtain ⟨xs, hxs⟩ := h
      exact ⟨xs, hxs.blanks hus⟩
    refine flatten_induction (P := fun word => ∀ vs : List Token, vs.map Token.kind = word →
      ∃ xs, Derivation vs xs) ?_ ?_ hvs vs rfl
    · intro vs hvs
      obtain rfl := List.map_eq_nil_iff.mp hvs
      exact ⟨[], .nil⟩
    · intro u v hu _ ih vs hvs
      obtain ⟨as, bs, rfl, rfl, rfl⟩ := List.map_eq_append_iff.mp hvs
      obtain ⟨front, blanks, hfront, hblanks, rfl⟩ := map_mem_mul.mp hu
      obtain ⟨x, -, hx⟩ := (reads_item.kinds front).mp hfront
      obtain ⟨xs, hxs⟩ := ih bs rfl
      refine ⟨⟨x, spanOf front⟩ :: xs, ?_⟩
      rw [List.append_assoc]
      exact .item hx trivial (hxs.blanks hblanks)
  · rintro ⟨xs, h⟩
    induction h with
    | nil => exact Language.append_mem_mul (Language.nil_mem_kstar _) (Language.nil_mem_kstar _)
    | blank ht _ ih =>
      obtain ⟨u, hu, v, hv, happend⟩ := ih
      refine ⟨.newline :: u, append_mem_kstar (u := [.newline]) rfl hu, v, hv, ?_⟩
      rw [List.map_cons, ht, ← happend]
      rfl
    | item hfront _ _ ih =>
      obtain ⟨u, hu, v, hv, happend⟩ := ih
      have hitem := (reads_item.kinds _).mpr ⟨_, trivial, hfront⟩
      refine ⟨[], Language.nil_mem_kstar _, _,
        append_mem_kstar (Language.append_mem_mul hitem hu) hv, ?_⟩
      rw [List.map_append, ← happend]
      exact List.append_assoc ..

/-! ## Settled derivations -/

/-- A commodity that lacks its line break can have one. -/
theorem Item.Open.exists_append {t : Token} (hx : x.Open) (hfront : front ∈ x.spellings)
    (ht : t.kind = .newline) :
    ∃ y : Item, ¬ y.Open ∧ y.trimmed = x.trimmed ∧ front ++ [t] ∈ y.spellings := by
  cases x with
  | commodity c =>
    obtain ⟨hnewline, hlines⟩ := hx
    refine ⟨.commodity { c with newline := some t }, fun hy => absurd hy.1 (by simp), ?_, ?_⟩
    · simp [Item.trimmed, hlines]
    · obtain ⟨_, ⟨u, hu, n, hn, rfl⟩, l, hl, rfl⟩ := hfront
      rw [hnewline] at hn
      rw [hlines] at hl
      obtain rfl := (Language.mem_one n).mp hn
      obtain rfl := (Language.mem_one l).mp hl
      refine ⟨_, ⟨u, hu, [t], mem_spellKind.mpr ⟨rfl, ht⟩, rfl⟩, [], ?_, by simp⟩
      rw [hlines]
      rfl
  | transaction => exact hx.elim
  | lineComment => exact hx.elim
  | price => exact hx.elim
  | account => exact hx.elim
  | defaultCommodity => exact hx.elim

/-- **Every derivation has a settled one that differs in the line breaks of commodities only.** -/
theorem Derives.settle (h : Derivation ts xs) :
    ∃ ys, Settled ts ys ∧ ys.map (·.value.trimmed) = xs.map (·.value.trimmed) := by
  induction h with
  | nil => exact ⟨[], .nil, rfl⟩
  | blank ht _ ih =>
    obtain ⟨ys, hys, htrimmed⟩ := ih
    exact ⟨ys, .blank ht hys, htrimmed⟩
  | @item x front rest xs hfront _ _ ih =>
    obtain ⟨ys, hys, htrimmed⟩ := ih
    by_cases hrest : x.Open → Avoids [.newline] rest
    · exact ⟨_, .item hfront hrest hys, by simp [htrimmed]⟩
    · obtain ⟨hx, hbreak⟩ := Classical.not_imp.mp hrest
      -- the line break in front of the rest is taken for an empty line, and goes to the commodity
      cases hys with
      | nil => exact absurd (by simp [Avoids]) hbreak
      | @blank t rest _ ht hys =>
        obtain ⟨y, hy, hyx, hspelled⟩ := hx.exists_append hfront ht
        refine ⟨⟨y, spanOf (front ++ [t])⟩ :: ys, ?_, by simp [htrimmed, hyx]⟩
        have hsettled : Settled _ _ := .item hspelled (fun hopen => absurd hopen hy) hys
        rwa [List.append_assoc] at hsettled
      | @item z _ _ _ hz _ _ =>
        obtain ⟨t, us, rfl, ht⟩ := exists_opener hz
        refine absurd ?_ hbreak
        rintro _ ⟨⟩ hmem
        have hopens := opensItem_opener z
        rw [← ht, List.mem_singleton.mp hmem] at hopens
        exact absurd hopens (by decide)

/-! ## Blocks of a derivation -/

/-- Where no block ends behind a token, it is in the block of the next one. -/
theorem blocks_cons_of_not_ends {t u : Token} {block : List Token} {more : List (List Token)}
    (hends : endsBlock t u = false) (h : blocks ts = (u :: block) :: more) :
    blocks (t :: ts) = (t :: u :: block) :: more := by
  rw [blocks_cons, h]
  simp [addToken, hends]

/-- Where no block ends inside these tokens or behind them, the next block takes them in. -/
theorem blocks_absorb {u : Token} {block : List Token} {more : List (List Token)}
    (hfront : (front ++ [u]).IsChain fun t u => endsBlock t u = false)
    (h : blocks (u :: us) = (u :: block) :: more) :
    blocks (front ++ u :: us) = (front ++ u :: block) :: more := by
  induction front with
  | nil => exact h
  | cons t front ih =>
    have hmore := ih hfront.tail
    cases front with
    | nil => exact blocks_cons_of_not_ends (List.isChain_cons_cons.mp hfront).1 hmore
    | cons s front => exact blocks_cons_of_not_ends (List.isChain_cons_cons.mp hfront).1 hmore

/-- No block ends inside an item. -/
theorem isChain_of_mem_spellings (hfront : front ∈ x.spellings) :
    front.IsChain fun t u => endsBlock t u = false := by
  have hword := (reads_item.kinds front).mpr ⟨x, trivial, hfront⟩
  refine (List.isChain_map Token.kind).mp (isChain_item hword) |>.imp fun t u htu => ?_
  by_cases ht : t.kind = .newline
  · simp [endsBlock, htu ht]
  · simp [endsBlock, ht]

/-- The tokens of an item are in one block. -/
theorem blocks_of_mem_spellings (hfront : front ∈ x.spellings) : blocks front = [front] := by
  obtain ⟨t, us, hcons, -⟩ := exists_opener hfront
  obtain ⟨init, u, rfl⟩ := List.eq_nil_or_concat' front |>.resolve_left (by simp [hcons])
  have hlast : blocks [u] = [[u]] := rfl
  exact blocks_absorb (isChain_of_mem_spellings hfront) hlast

/-! ## Segments of a derivation -/

/-- The segments hold these items and nothing is broken. -/
structure Clean (segments : List Segment) (xs : List (Located Item)) : Prop where
  items : segments.filterMap Segment.item? = xs
  failures : segments.filterMap Segment.failure? = []

theorem Clean.append {as bs : List Segment} (ha : Clean as xs) (hb : Clean bs ys) :
    Clean (as ++ bs) (xs ++ ys) where
  items := by rw [List.filterMap_append, ha.items, hb.items]
  failures := by rw [List.filterMap_append, ha.failures, hb.failures, List.append_nil]

/-- An item at the front of a block is read. -/
theorem segmentsAfter_append (hfront : front ∈ x.spellings)
    (hrest : ∀ t ∈ rest.head?, t.kind = .newline ∨ t.kind.opensItem)
    (hx : x.Open → Avoids [.newline] rest) :
    ∃ failure, segmentsAfter sofar (front ++ rest) =
      .item x front :: segmentsAfter (some failure) rest := by
  obtain ⟨t, us, rfl, ht⟩ := exists_opener hfront
  have hkind : t.kind ≠ .newline := by
    intro heq
    have hopens := opensItem_opener x
    rw [← ht, heq] at hopens
    exact absurd hopens (by decide)
  have hsegments : segmentsAfter sofar (t :: (us ++ rest)) = _ :=
    segmentsAfter_item hkind (item_complete hfront hrest hx)
  rw [← List.cons_append, inFrontOf_append_left] at hsegments
  exact ⟨_, hsegments⟩

/-- The segments of the blocks, where this is the furthest failure in front of the first. -/
def segmentsFrom (sofar : Option Failure) : List (List Token) → List Segment
  | [] => []
  | block :: more => segmentsAfter sofar block ++ more.flatMap (segmentsAfter none)

theorem segmentsFrom_none (bs : List (List Token)) :
    segmentsFrom none bs = bs.flatMap (segmentsAfter none) := by
  cases bs <;> rfl

theorem endsBlock_of_head {t u : Token} (ht : t.kind = .newline)
    (hu : u.kind = .newline ∨ u.kind.opensItem) : endsBlock t u := by
  have hindent : u.kind ≠ .indent := by
    rintro heq
    rw [heq] at hu
    exact absurd hu (by decide)
  simp [endsBlock, ht, hindent]

/-- **A settled derivation is what is read.** -/
theorem Derives.clean (h : Settled ts xs) (sofar : Option Failure) :
    Clean (segmentsFrom sofar (blocks ts)) xs := by
  induction h generalizing sofar with
  | nil => exact ⟨rfl, rfl⟩
  | @blank t ts xs ht h ih =>
    have hends : ∀ t' ∈ [t].getLast?, ∀ u ∈ ts.head?, endsBlock t' u := by
      rintro _ ⟨⟩ u hu
      exact endsBlock_of_head ht (h.head u hu)
    have hblocks : blocks (t :: ts) = [t] :: blocks ts := blocks_append hends
    have hblank : Clean (segmentsAfter sofar [t]) [] := by
      rw [segmentsAfter_blank ht, segmentsAfter_nil]
      exact ⟨rfl, rfl⟩
    rw [hblocks, segmentsFrom, ← segmentsFrom_none]
    exact hblank.append (ih none)
  | @item x front rest xs hfront hx h ih =>
    by_cases hends : ∀ t ∈ front.getLast?, ∀ u ∈ rest.head?, endsBlock t u
    · -- the block ends with the item
      obtain ⟨failure, hsegments⟩ : ∃ failure, segmentsAfter sofar (front ++ []) =
          .item x front :: segmentsAfter (some failure) [] :=
        segmentsAfter_append hfront (by simp) fun _ => by simp [Avoids]
      rw [List.append_nil, segmentsAfter_nil] at hsegments
      have hitem : Clean (segmentsAfter sofar front) [⟨x, spanOf front⟩] := by
        rw [hsegments]
        exact ⟨rfl, rfl⟩
      rw [blocks_append hends, blocks_of_mem_spellings hfront, List.singleton_append, segmentsFrom,
        ← segmentsFrom_none]
      exact hitem.append (ih none)
    · -- the item lacks its line break, and the block goes on
      simp only [not_forall] at hends
      obtain ⟨t, ht, u, hu, hends⟩ := hends
      obtain ⟨us, rfl⟩ := List.head?_eq_some_iff.mp hu
      obtain ⟨block, more, hblocks⟩ := exists_blocks_cons u us
      have hchain : (front ++ [u]).IsChain fun t u => endsBlock t u = false := by
        refine (isChain_of_mem_spellings hfront).append (List.isChain_singleton u) ?_
        rintro t' ht' _ ⟨⟩
        rw [Option.mem_unique ht' ht]
        exact Bool.eq_false_iff.mpr hends
      obtain ⟨failure, hsegments⟩ : ∃ failure, segmentsAfter sofar (front ++ u :: block) =
          .item x front :: segmentsAfter (some failure) (u :: block) :=
        segmentsAfter_append hfront h.head hx
      have hmore := ih (some failure)
      rw [hblocks, segmentsFrom] at hmore
      rw [blocks_absorb hchain hblocks, segmentsFrom, hsegments]
      have hitem : Clean [.item x front] [⟨x, spanOf front⟩] := ⟨rfl, rfl⟩
      exact hitem.append hmore

/-! ## Derivations of what is read -/

theorem Derives.append (hts : Derivation ts xs) (hus : Derivation us ys) :
    Derivation (ts ++ us) (xs ++ ys) := by
  induction hts with
  | nil => exact hus
  | blank ht _ ih => exact .blank ht ih
  | item hfront _ _ ih =>
    rw [List.append_assoc]
    exact .item hfront trivial ih

theorem derivation_segmentsAfter (sofar : Option Failure) (ts : List Token)
    (h : (segmentsAfter sofar ts).filterMap Segment.failure? = []) :
    Derivation ts ((segmentsAfter sofar ts).filterMap Segment.item?) := by
  fun_induction segmentsAfter sofar ts with
  | case1 => exact .nil
  | case2 sofar t ts ht ih => exact .blank ht (ih h)
  | case3 sofar t ts _ reply failure x rest hresult ih =>
    obtain ⟨-, front, hfront, happend⟩ := reads_item.sound hresult
    rw [← happend, inFrontOf_append_left] at h ⊢
    exact .item hfront trivial (ih h)
  | case4 => simp [Segment.failure?] at h

/-- What is read without a fault is a derivation. -/
theorem derivation_segments (h : (segments ts).filterMap Segment.failure? = []) :
    Derivation ts ((segments ts).filterMap Segment.item?) := by
  suffices hblocks : ∀ bs : List (List Token),
      (bs.flatMap (segmentsAfter none)).filterMap Segment.failure? = [] →
      Derivation bs.flatten ((bs.flatMap (segmentsAfter none)).filterMap Segment.item?) by
    have hderivation := hblocks (blocks ts) h
    rwa [flatten_blocks] at hderivation
  intro bs
  induction bs with
  | nil => exact fun _ => .nil
  | cons block more ih =>
    intro hbs
    rw [List.flatMap_cons, List.filterMap_append] at hbs ⊢
    obtain ⟨hblock, hmore⟩ := List.append_eq_nil_iff.mp hbs
    exact (derivation_segmentsAfter none block hblock).append (ih hmore)

/-! ## The grammar and its language -/

theorem ofTokens_faults_eq_nil_iff :
    (Tree.ofTokens ts).faults = [] ↔ (segments ts).filterMap Segment.failure? = [] :=
  List.map_eq_nil_iff

/-- A settled derivation is what is read, and nothing else is. -/
theorem settled_iff : Settled ts xs ↔
    (Tree.ofTokens ts).faults = [] ∧ (Tree.ofTokens ts).items = xs := by
  have hread {ys : List (Located Item)} (h : Settled ts ys) : Clean (segments ts) ys := by
    have hclean := h.clean none
    rwa [segmentsFrom_none] at hclean
  constructor
  · intro h
    exact ⟨ofTokens_faults_eq_nil_iff.mpr (hread h).failures, (hread h).items⟩
  · rintro ⟨hfaults, rfl⟩
    have hderivation := derivation_segments (ofTokens_faults_eq_nil_iff.mp hfaults)
    obtain ⟨ys, hys, -⟩ := hderivation.settle
    rwa [show (Tree.ofTokens ts).items = ys from (hread hys).items]

theorem mem_spellings_of_mem_segmentsAfter {taken : List Token} :
    .item x taken ∈ segmentsAfter sofar ts → taken ∈ x.spellings := by
  fun_induction segmentsAfter sofar ts with
  | case1 => simp
  | case2 _ _ _ _ ih => exact fun h => ih ((List.mem_cons.mp h).resolve_left (by simp))
  | case3 sofar t ts _ reply failure y rest hresult ih =>
    intro h
    rcases List.mem_cons.mp h with heq | hmore
    · obtain ⟨-, front, hfront, happend⟩ := reads_item.sound hresult
      rw [← happend, inFrontOf_append_left] at heq
      obtain ⟨rfl, rfl⟩ := Segment.item.inj heq
      exact hfront
    · exact ih hmore
  | case4 _ _ _ _ _ _ _ _ ih => exact fun h => ih ((List.mem_cons.mp h).resolve_left (by simp))

/-- An item is spelled by the tokens of its segment. -/
theorem mem_spellings_of_mem_segments {taken : List Token} (h : .item x taken ∈ segments ts) :
    taken ∈ x.spellings := by
  obtain ⟨block, -, hblock⟩ := List.mem_flatMap.mp h
  exact mem_spellings_of_mem_segmentsAfter hblock

/-- Every item, also of a journal with faults, is spelled by a stretch of the tokens that starts
with the kind of token that opens such an item. -/
theorem spelled_of_mem_items {y : Located Item} (h : y ∈ (Tree.ofTokens ts).items) :
    ∃ t us, t :: us <:+: ts ∧ t :: us ∈ y.value.spellings ∧ y.span = spanOf (t :: us) ∧
      t.kind = y.value.opener := by
  obtain ⟨taken, hs, hspan⟩ := exists_segment h
  have hspelled := mem_spellings_of_mem_segments hs
  obtain ⟨t, us, rfl, ht⟩ := exists_opener hspelled
  exact ⟨t, us, isInfix_of_mem_segments hs, hspelled, hspan, ht⟩

/-- **A journal is read without a fault just in case its kinds are a word of the language, and what
is read is its settled derivation.** All derivations agree with it up to the line breaks that may
also be empty lines, and the first token of an item decides its rule. -/
theorem parses_exactly (ts : List Token) :
    ((Tree.ofTokens ts).faults = [] ↔ ts.map Token.kind ∈ journal.matches') ∧
    (∀ xs, Settled ts xs ↔ (Tree.ofTokens ts).faults = [] ∧ (Tree.ofTokens ts).items = xs) ∧
    (∀ xs, Derivation ts xs →
      (Tree.ofTokens ts).items.map (·.value.trimmed) = xs.map (·.value.trimmed)) ∧
    ∀ x ∈ (Tree.ofTokens ts).items, ∃ t us, t :: us <:+: ts ∧ t :: us ∈ x.value.spellings ∧
      x.span = spanOf (t :: us) ∧ t.kind = x.value.opener := by
  refine ⟨?_, fun _ => settled_iff, fun xs h => ?_, fun _ => spelled_of_mem_items⟩
  · rw [derivation_iff]
    constructor
    · intro hfaults
      exact ⟨_, derivation_segments (ofTokens_faults_eq_nil_iff.mp hfaults)⟩
    · rintro ⟨xs, h⟩
      obtain ⟨ys, hys, -⟩ := h.settle
      exact (settled_iff.mp hys).1
  · obtain ⟨ys, hys, htrimmed⟩ := h.settle
    rw [(settled_iff.mp hys).2, htrimmed]

end Daybook.Tree
