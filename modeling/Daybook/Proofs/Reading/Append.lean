import Daybook.Proofs.Journal.Loops
import Daybook.Proofs.Token.Append
import Daybook.Proofs.Tree.OnTokens
import Daybook.Proofs.Tree.Through
import Daybook.Proofs.Written.OnTokens
import Daybook.Proofs.Written.Stages
import Daybook.Reading

/-!
# A journal is the sum of its parts

Whole lines can be read apart from what stands behind them. Every stage keeps to this: the tokenizer
starts afresh behind a line feed, the grammar at a line that is not indented, and what an item means
depends on no other item. So the journal of two texts is that of the first followed by that of the
second, and the faults of the second are only moved. About `parse_to_cooked_with` ([SPEC 8]).

* `Means year items j`: the items of a tree mean this journal.

Results:
* `means_append`: **what two lists of items mean is what each means.**
* `ofTokens_append`: the tree of two token lists.
* `readJournal_append`: **the journal of two texts.**
-/

namespace Daybook

open Daybook.Text Daybook.Tree

/-! ## With a text in front -/

/-- The span with a text in front of the source. -/
def Span.behind (front : List Char) (s : Span) : Span :=
  ⟨byteLength front + s.start, byteLength front + s.stop⟩

/-- The fault with a text in front of the source. -/
def ParseFault.behind (front : List Char) (f : ParseFault) : ParseFault :=
  { f with span := f.span.behind front }

/-- The item with a text in front of the source. -/
def Tree.Item.behind (front : List Char) (x : Located Item) : Located Item :=
  ⟨onTokens (Token.behind front) x.value, x.span.behind front⟩

variable {front : List Char}

theorem kind_behind (t : Token) : (t.behind front).kind = t.kind := rfl

theorem moves_behind (front : List Char) : Written.Moves (Token.behind front) where
  kind _ := rfl
  image _ := rfl
  payload _ := rfl
  offset_le t u := Nat.add_le_add_iff_left
  stop_lt t u := by
    rw [Token.stop_behind]
    exact Nat.add_lt_add_iff_left

namespace Tree

theorem spanOf_behind {ts : List Token} (hne : ts ≠ []) :
    spanOf (ts.map (Token.behind front)) = (spanOf ts).behind front := by
  have hfirst : ts.head? = some (ts.head hne) := List.head?_eq_some_head hne
  have hlast : ts.getLast? = some (ts.getLast hne) := List.getLast?_eq_some_getLast hne
  simp only [spanOf, List.head?_map, List.getLast?_map, hfirst, hlast, Option.map_some,
    Token.offset_behind, Token.stop_behind, Span.behind, Nat.add_max_add_left]

theorem item?_behind {s : Segment} (hne : s.tokens ≠ []) :
    (onTokens (Token.behind front) s).item? = s.item?.map (Item.behind front) := by
  cases s with
  | blank newline => rfl
  | broken taken failure => rfl
  | item x taken =>
    have hspan : spanOf (taken.map (Token.behind front)) = (spanOf taken).behind front :=
      spanOf_behind hne
    show some (⟨_, spanOf (taken.map (Token.behind front))⟩ : Located Item) = _
    rw [hspan]
    rfl

/-- The items behind a text are the old ones, moved. -/
theorem items_behind (us : List Token) : (Tree.ofTokens (us.map (Token.behind front))).items =
    (Tree.ofTokens us).items.map (Item.behind front) := by
  have hsegments : segments (us.map (Token.behind front)) =
      (segments us).map (onTokens (Token.behind front)) := segments_onTokens kind_behind us
  simp only [Tree.ofTokens, hsegments, List.filterMap_map, List.map_filterMap]
  exact List.filterMap_congr fun s hs => item?_behind (tokens_ne_nil_of_mem_segments hs)

theorem faultAtEnd_behind (last : Token) :
    faultAtEnd (some (last.behind front)) = (faultAtEnd (some last)).behind front := by
  simp only [faultAtEnd, kind_behind, Token.stop_behind]
  split <;> rfl

/-- A failure is reported the same behind a text, with the last token there. -/
theorem fault_behind (f : Failure) (last : Token) :
    (onTokens (Token.behind front) f).fault (some (last.behind front)) =
      (f.fault (some last)).behind front := by
  cases hrest : f.rest with
  | nil =>
    have hrest' : (onTokens (Token.behind front) f).rest = [] := by
      show f.rest.map _ = []
      rw [hrest]
      rfl
    simp only [Failure.fault, hrest, hrest']
    exact faultAtEnd_behind last
  | cons t ts =>
    have hrest' : (onTokens (Token.behind front) f).rest =
        t.behind front :: ts.map (Token.behind front) := by
      show f.rest.map _ = _
      rw [hrest]
      rfl
    have hrefusal : (onTokens (Token.behind front) f).refusal = f.refusal := rfl
    have hspan : (t.behind front).span = t.span.behind front := by
      simp only [Token.span, Token.stop_behind]
      rfl
    have hdescribe : (t.behind front).describe = t.describe := rfl
    have himage : (t.behind front).image = t.image := rfl
    simp only [Failure.fault, hrest, hrest', hrefusal, hspan, hdescribe, himage]
    rcases f.refusal with _ | _ | _ <;> rfl

/-- The faults behind a text are the old ones, moved. -/
theorem faults_behind (us : List Token) : (Tree.ofTokens (us.map (Token.behind front))).faults =
    (Tree.ofTokens us).faults.map (ParseFault.behind front) := by
  have hfailures : (segments (us.map (Token.behind front))).filterMap Segment.failure? =
      ((segments us).filterMap Segment.failure?).map (onTokens (Token.behind front)) :=
    failures_onTokens kind_behind us
  simp only [Tree.ofTokens, hfailures, List.map_map]
  refine List.map_congr_left fun f hf => ?_
  obtain ⟨last, hlast⟩ : ∃ last, us.getLast? = some last := by
    cases us with
    | nil => simp [segments, blocks] at hf
    | cons u us => exact ⟨_, List.getLast?_eq_some_getLast (List.cons_ne_nil u us)⟩
  rw [List.getLast?_map, hlast]
  exact fault_behind f last

/-- **The tree of two token lists**, of which the second stands behind the text of the first. -/
theorem ofTokens_append {ts us : List Token} (hts : Closed ts)
    (hus : ∀ u ∈ us.head?, u.kind ≠ .indent) :
    Tree.ofTokens (ts ++ us.map (Token.behind front)) =
      ⟨(Tree.ofTokens ts).items ++ (Tree.ofTokens us).items.map (Item.behind front),
        (Tree.ofTokens ts).faults ++ (Tree.ofTokens us).faults.map (ParseFault.behind front)⟩ := by
  have hhead : ∀ u ∈ (us.map (Token.behind front)).head?, u.kind ≠ .indent := by
    rw [List.head?_map]
    intro u hu
    obtain ⟨v, hv, rfl⟩ := Option.map_eq_some_iff.mp hu
    exact hus v hv
  rw [ofTokens_lines hts hhead, ← items_behind, ← faults_behind]
  rfl

end Tree

/-! ## What items mean -/

/-- The items of a tree mean this journal, where a missing year is this one. -/
def Means (year : Int) (items : List (Located Tree.Item)) (j : Journal) : Prop :=
  (Written.Journal.ofTree items >>= Journal.ofWritten year) = .ok j

variable {year : Int} {xs ys : List (Located Tree.Item)} {j k l : Journal}

/-- An item means a journal. -/
def MeansItem (year : Int) (x : Located Tree.Item) (j : Journal) : Prop :=
  ∃ w, Written.Item.ofTree x.value = .ok w ∧ Journal.ofItem year w = .ok j

/-- The written items say what the items of the tree say, each in its place. -/
theorem written_ofTree_eq_ok_iff {w : Written.Journal} : Written.Journal.ofTree xs = .ok w ↔
    List.Forall₂ (fun x v => Written.Item.ofTree x.value = .ok v.value ∧ v.span = x.span)
      xs w.items := by
  have hitem : ∀ (x : Located Tree.Item) (v : Located Written.Item),
      (Written.Item.ofTree x.value >>= fun item => pure ⟨item, x.span⟩) = .ok v ↔
        Written.Item.ofTree x.value = .ok v.value ∧ v.span = x.span := by
    intro x v
    rw [bind_eq_ok]
    constructor
    · rintro ⟨item, hitem, heq⟩
      obtain rfl := Except.ok.inj heq
      exact ⟨hitem, rfl⟩
    · rintro ⟨hitem, hspan⟩
      exact ⟨v.value, hitem, by rw [← hspan]; rfl⟩
  unfold Written.Journal.ofTree
  rw [bind_eq_ok]
  constructor
  · rintro ⟨items, hitems, heq⟩
    obtain rfl := Except.ok.inj heq
    exact (mapM_eq_ok_iff.mp hitems).imp fun x v h => (hitem x v).mp h
  · intro h
    exact ⟨w.items, mapM_eq_ok_iff.mpr (h.imp fun x v h => (hitem x v).mpr h), rfl⟩

theorem ofWritten_eq_ok_iff {w : Written.Journal} : Journal.ofWritten year w = .ok j ↔
    ∃ parts, List.Forall₂ (fun v part => Journal.ofItem year v.value = .ok part) w.items parts ∧
      j = Journal.concat parts := by
  rw [Journal.ofWritten_eq]
  constructor
  · intro h
    obtain ⟨parts, hparts, heq⟩ := bind_eq_ok.mp ((map_eq_pure_bind _ _).symm.trans h)
    exact ⟨parts, mapM_eq_ok_iff.mp hparts, (Except.ok.inj heq).symm⟩
  · rintro ⟨parts, hparts, rfl⟩
    rw [mapM_eq_ok_iff.mpr hparts]
    rfl

/-- **Items mean the journals that each of them means**, one after the other. -/
theorem means_iff : Means year xs j ↔
    ∃ parts, List.Forall₂ (MeansItem year) xs parts ∧ j = Journal.concat parts := by
  unfold Means
  rw [bind_eq_ok]
  simp only [written_ofTree_eq_ok_iff, ofWritten_eq_ok_iff]
  constructor
  · rintro ⟨w, hw, parts, hparts, rfl⟩
    refine ⟨parts, (forall₂_comp_iff.mp ⟨w.items, hw, hparts⟩).imp ?_, rfl⟩
    rintro x part ⟨v, ⟨hv, -⟩, hpart⟩
    exact ⟨v.value, hv, hpart⟩
  · rintro ⟨parts, hparts, rfl⟩
    obtain ⟨items, hitems, hmeans⟩ := forall₂_comp_iff.mpr (hparts.imp fun x part h => by
      obtain ⟨v, hv, hpart⟩ := h
      exact (⟨⟨v, x.span⟩, ⟨hv, rfl⟩, hpart⟩ : ∃ u : Located Written.Item,
        (Written.Item.ofTree x.value = .ok u.value ∧ u.span = x.span) ∧
          Journal.ofItem year u.value = .ok part))
    exact ⟨⟨items⟩, hitems, parts, hmeans, rfl⟩

theorem concat_append (ps qs : List Journal) :
    Journal.concat (ps ++ qs) = Journal.concat ps ++ Journal.concat qs := by
  induction ps with
  | nil => exact (Journal.empty_append _).symm
  | cons p ps ih =>
    show p ++ Journal.concat (ps ++ qs) = (p ++ Journal.concat ps) ++ Journal.concat qs
    rw [ih, Journal.append_assoc]

/-- **What two lists of items mean is what each means.** -/
theorem means_append : Means year (xs ++ ys) l ↔
    ∃ j k, Means year xs j ∧ Means year ys k ∧ l = j ++ k := by
  simp only [means_iff, forall₂_append_left_iff]
  constructor
  · rintro ⟨parts, ⟨ps, qs, hps, hqs, rfl⟩, rfl⟩
    exact ⟨_, _, ⟨ps, hps, rfl⟩, ⟨qs, hqs, rfl⟩, concat_append ps qs⟩
  · rintro ⟨j, k, ⟨ps, hps, rfl⟩, ⟨qs, hqs, rfl⟩, rfl⟩
    exact ⟨ps ++ qs, ⟨ps, qs, hps, hqs, rfl⟩, (concat_append ps qs).symm⟩

/-- Items that are moved mean the same. -/
theorem means_behind : Means year (ys.map (Item.behind front)) k ↔ Means year ys k := by
  have hitem : ∀ x part, MeansItem year (Item.behind front x) part ↔ MeansItem year x part := by
    intro x part
    have hsame := Written.item_ofTree_onTokens (moves_behind front) x.value
    unfold MeansItem
    rw [← hsame]
    rfl
  simp only [means_iff, List.forall₂_map_left_iff, hitem]

/-! ## The journal of two texts -/

theorem readJournal_eq_ok_iff {source : String} {r : Reading Journal} :
    readJournal year source = .ok r ↔
      Means year (Tree.ofTokens (tokenize source).tokens).items r.result ∧
        r.scanFaults = (tokenize source).faults ∧
        r.parseFaults = (Tree.ofTokens (tokenize source).tokens).faults := by
  unfold readJournal readWritten readTree Means
  simp only
  cases Written.Journal.ofTree (Tree.ofTokens (tokenize source).tokens).items with
  | error e => exact ⟨fun h => (nomatch h), fun h => (nomatch h.1)⟩
  | ok w =>
    show Reading.withResult _ <$> Journal.ofWritten year w = .ok r ↔
      Journal.ofWritten year w = .ok r.result ∧ _
    cases Journal.ofWritten year w with
    | error e => exact ⟨fun h => (nomatch h), fun h => (nomatch h.1)⟩
    | ok j =>
      constructor
      · intro h
        obtain rfl := Except.ok.inj h
        exact ⟨rfl, rfl, rfl⟩
      · rintro ⟨hresult, hscan, hparse⟩
        obtain rfl := Except.ok.inj hresult
        cases r
        simp only at hscan hparse
        rw [hscan, hparse]
        rfl

/-- **The journal of two texts is that of the first followed by that of the second**, if the first
is made of whole lines and the second does not open with an indented line. The two are read if each
is, the later default commodity counts, and the faults of the second are moved behind the first. -/
theorem readJournal_append (year : Int) {a b : String} (ha : WholeLines a.toList)
    (hb : ∀ t ∈ (tokenize b).opened?, t.kind ≠ .indent) :
    ((∃ r, readJournal year (a ++ b) = .ok r) ↔
      (∃ r, readJournal year a = .ok r) ∧ ∃ s, readJournal year b = .ok s) ∧
    ∀ r s, readJournal year a = .ok r → readJournal year b = .ok s →
      readJournal year (a ++ b) = .ok {
        result := {
          transactions := r.result.transactions ++ s.result.transactions
          accounts := r.result.accounts ++ s.result.accounts
          prices := r.result.prices ++ s.result.prices
          commodities := r.result.commodities ++ s.result.commodities
          defaultCommodity := s.result.defaultCommodity.or r.result.defaultCommodity }
        scanFaults := r.scanFaults ++ s.scanFaults.map (ScanFault.behind a.toList)
        parseFaults := r.parseFaults ++ s.parseFaults.map (ParseFault.behind a.toList) } := by
  have hstream := tokenize_append ha hb
  have hhead : ∀ u ∈ (tokenize b).tokens.head?, u.kind ≠ .indent := by
    intro u hu hindent
    obtain ⟨us, hus⟩ := List.head?_eq_some_iff.mp hu
    refine hb u ?_ hindent
    simp [TokenStream.opened?, hus, hindent]
  have htree : ∀ front, Tree.ofTokens ((tokenize a).tokens ++
      (tokenize b).tokens.map (Token.behind front)) = _ := fun _ =>
    ofTokens_append (kind_getLast?_tokenize ha) hhead
  have hread : ∀ r, readJournal year (a ++ b) = .ok r ↔
      (∃ j k, Means year (Tree.ofTokens (tokenize a).tokens).items j ∧
        Means year (Tree.ofTokens (tokenize b).tokens).items k ∧ r.result = j ++ k) ∧
      r.scanFaults = (tokenize a).faults ++ (tokenize b).faults.map (ScanFault.behind a.toList) ∧
      r.parseFaults = (Tree.ofTokens (tokenize a).tokens).faults ++
        (Tree.ofTokens (tokenize b).tokens).faults.map (ParseFault.behind a.toList) := by
    intro r
    rw [readJournal_eq_ok_iff, hstream]
    simp only [htree, means_append, means_behind]
  refine ⟨⟨?_, ?_⟩, ?_⟩
  · rintro ⟨r, hr⟩
    obtain ⟨⟨j, k, hj, hk, -⟩, -⟩ := (hread r).mp hr
    exact ⟨⟨⟨j, _, _⟩, readJournal_eq_ok_iff.mpr ⟨hj, rfl, rfl⟩⟩,
      ⟨⟨k, _, _⟩, readJournal_eq_ok_iff.mpr ⟨hk, rfl, rfl⟩⟩⟩
  · rintro ⟨⟨r, hr⟩, ⟨s, hs⟩⟩
    have hj := (readJournal_eq_ok_iff.mp hr).1
    have hk := (readJournal_eq_ok_iff.mp hs).1
    exact ⟨⟨r.result ++ s.result, _, _⟩, (hread _).mpr ⟨⟨_, _, hj, hk, rfl⟩, rfl, rfl⟩⟩
  · intro r s hr hs
    obtain ⟨hj, hscanr, hparser⟩ := readJournal_eq_ok_iff.mp hr
    obtain ⟨hk, hscans, hparses⟩ := readJournal_eq_ok_iff.mp hs
    rw [hscanr, hscans, hparser, hparses]
    exact (hread _).mpr ⟨⟨_, _, hj, hk, rfl⟩, rfl, rfl⟩

/-- A default commodity with a line behind it that starts no item. -/
theorem readJournal_default_append_unknown :
    readJournal 2024 ("D 1 EUR\n" ++ "?\n") = .ok {
      result := ⟨[], [], [], [], some ⟨⟨false, 1, 0, by decide, by decide⟩, some "EUR"⟩⟩
      scanFaults := [⟨⟨8, 2, 1⟩, 1, .unknownLine "?"⟩]
      parseFaults := [] } :=
  (readJournal_append 2024 (a := "D 1 EUR\n") (b := "?\n") (by decide) (by decide +kernel)).2
    ⟨⟨[], [], [], [], some ⟨⟨false, 1, 0, by decide, by decide⟩, some "EUR"⟩⟩, [], []⟩
    ⟨.empty, [⟨⟨0, 1, 1⟩, 1, .unknownLine "?"⟩], []⟩ (by decide +kernel) (by decide +kernel)

end Daybook
