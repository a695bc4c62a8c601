import Daybook.Proofs.Token.Step

/-!
# Nothing of a source is lost

The tokenizer covers a source with tiles that stand one behind the other: tokens, faults, layout
between tokens, and lines that are not recognised with the break behind them. A fault grows while
the characters right behind it are unexpected too; it stays one tile. About `run` with both branches
of `recover` ([SPEC 11.1], [SPEC 11.5]).

* `Tile.StandsAt`: what a tile says about the place and the text where it stands.
* `Tiled`: tiles that stand one behind the other.

Results:
* `tiled_tokenize`: **the source is its tiles in order**, and the tokens and faults are those of the
  tiles.
* `Tiled.pairwise`, `Tiled.token_slice?`, `Tiled.fault_slice?`, `Tiled.uncovered`: the spans follow
  from it.
* `tokenize_lossless`: no byte is dropped or taken twice.
-/

namespace Daybook

open Lexeme Text

/-! ## Tiles -/

/-- A piece of a source as the tokenizer goes through it. -/
inductive Tile
  /-- A token. -/
  | token (t : Token)
  /-- Text that nothing reads. -/
  | fault (f : ScanFault) (text : List Char)
  /-- A line that is not recognised, and the break behind it. -/
  | line (f : ScanFault) (text gap : List Char)
  /-- Spaces and tabs. -/
  | layout (text : List Char)

namespace Tile

/-- The text of a tile. -/
def text : Tile → List Char
  | token t => t.image.toList
  | fault _ text => text
  | line _ text gap => text ++ gap
  | layout text => text

/-- The token of a tile. -/
def token? : Tile → Option Token
  | token t => some t
  | _ => none

/-- The fault of a tile. -/
def fault? : Tile → Option ScanFault
  | fault f _ => some f
  | line f _ _ => some f
  | _ => none

/-- A fault that stands at a place and covers a text. -/
def FaultAt (p : Place) (f : ScanFault) (text : List Char) : Prop :=
  f.place = p ∧ f.length = byteLength text ∧ text ≠ []

/-- What a tile says of the place where it stands. -/
def StandsAt (p : Place) : Tile → Prop
  | token t => t.place = p ∧ t.image.toList ≠ []
  | fault f text => FaultAt p f text
  | line f text gap =>
    FaultAt p f text ∧ f.cause = .unknownLine (String.ofList text) ∧ IsBreak gap
  | layout text => text ≠ [] ∧ ∀ c ∈ text, isLayout c

end Tile

/-- The text of tiles. -/
def textOf (tiles : List Tile) : List Char := tiles.flatMap Tile.text

/-- Tiles that stand one behind the other. -/
def Tiled : Place → List Tile → Prop
  | _, [] => True
  | p, x :: xs => x.StandsAt p ∧ Tiled (p.advance x.text) xs

variable {p : Place} {x : Tile} {xs ys : List Tile}

theorem textOf_cons (x : Tile) (xs : List Tile) : textOf (x :: xs) = x.text ++ textOf xs :=
  List.flatMap_cons

theorem textOf_append (xs ys : List Tile) : textOf (xs ++ ys) = textOf xs ++ textOf ys :=
  List.flatMap_append

theorem tiled_append : Tiled p (xs ++ ys) ↔ Tiled p xs ∧ Tiled (p.advance (textOf xs)) ys := by
  induction xs generalizing p with
  | nil => exact ⟨fun h => ⟨trivial, h⟩, fun h => h.2⟩
  | cons x xs ih =>
    rw [List.cons_append, Tiled, Tiled, ih, textOf_cons, Place.advance_append, and_assoc]

/-- The place of a tile among others. -/
theorem Tiled.standsAt (h : Tiled p (xs ++ x :: ys)) : x.StandsAt (p.advance (textOf xs)) :=
  (tiled_append.mp h).2.1

theorem tiled_singleton : Tiled p [x] ↔ x.StandsAt p := ⟨fun h => h.1, fun h => ⟨h, trivial⟩⟩

/-! ## The spans of tiles -/

/-- The span of the token or fault of a tile. -/
def Tile.span? : Tile → Option Span
  | token t => some t.span
  | fault f _ => some f.span
  | line f _ _ => some f.span
  | layout _ => none

/-- The part of a tile that its token or fault covers. -/
def Tile.covered : Tile → List Char
  | token t => t.image.toList
  | fault _ text => text
  | line _ text _ => text
  | layout _ => []

/-- A token or fault starts where its tile stands and covers its part of the tile. -/
theorem Tile.StandsAt.span_eq {s : Span} (h : x.StandsAt p) (hs : x.span? = some s) :
    s = ⟨p.offset, p.offset + byteLength x.covered⟩ ∧ x.covered ≠ [] := by
  cases x with
  | token t =>
    obtain ⟨rfl, hne⟩ := h
    exact ⟨(Option.some.inj hs).symm, hne⟩
  | fault f text =>
    obtain ⟨rfl, hlen, hne⟩ := h
    refine ⟨?_, hne⟩
    rw [← Option.some.inj hs, Tile.covered, ← hlen]
    rfl
  | line f text gap =>
    obtain ⟨⟨rfl, hlen, hne⟩, -⟩ := h
    refine ⟨?_, hne⟩
    rw [← Option.some.inj hs, Tile.covered, ← hlen]
    rfl
  | layout text => simp [Tile.span?] at hs

theorem Tile.exists_text (x : Tile) : ∃ gap, x.text = x.covered ++ gap := by
  cases x with
  | token t => exact ⟨[], (List.append_nil _).symm⟩
  | fault f text => exact ⟨[], (List.append_nil _).symm⟩
  | line f text gap => exact ⟨gap, rfl⟩
  | layout text => exact ⟨text, rfl⟩

theorem Tiled.offset_le_start (h : Tiled p xs) {s : Span} (hs : s ∈ xs.filterMap Tile.span?) :
    p.offset ≤ s.start := by
  induction xs generalizing p with
  | nil => exact absurd hs List.not_mem_nil
  | cons x xs ih =>
    obtain ⟨y, hy, hspan⟩ := List.mem_filterMap.mp hs
    rcases List.mem_cons.mp hy with rfl | hmem
    · obtain ⟨rfl, -⟩ := h.1.span_eq hspan
      exact Nat.le_refl _
    · have hrest := ih h.2 (List.mem_filterMap.mpr ⟨y, hmem, hspan⟩)
      rw [Place.offset_advance] at hrest
      omega

theorem Tile.byteLength_covered_le (x : Tile) : byteLength x.covered ≤ byteLength x.text := by
  obtain ⟨gap, hgap⟩ := x.exists_text
  rw [hgap, byteLength_append]
  exact Nat.le_add_right _ _

theorem Tiled.stop_le_offset (h : Tiled p xs) {s : Span} (hs : s ∈ xs.filterMap Tile.span?) :
    s.stop ≤ (p.advance (textOf xs)).offset := by
  obtain ⟨y, hy, hspan⟩ := List.mem_filterMap.mp hs
  obtain ⟨front, back, rfl⟩ := List.append_of_mem hy
  have hstop := (h.standsAt.span_eq hspan).1
  have hle := y.byteLength_covered_le
  rw [hstop]
  simp only [Place.offset_advance, textOf_append, textOf_cons, byteLength_append]
  omega

/-- Spans stand in the order of their tiles, and none reaches into the next. -/
theorem Tiled.pairwise (h : Tiled p xs) :
    (xs.filterMap Tile.span?).Pairwise fun s t => s.stop ≤ t.start := by
  induction xs generalizing p with
  | nil => exact List.Pairwise.nil
  | cons x xs ih =>
    cases hx : x.span? with
    | none =>
      rw [List.filterMap_cons_none hx]
      exact ih h.2
    | some s =>
      rw [List.filterMap_cons_some hx]
      refine List.pairwise_cons.mpr ⟨fun t ht => ?_, ih h.2⟩
      have hstart := h.2.offset_le_start ht
      have hle := x.byteLength_covered_le
      obtain ⟨rfl, -⟩ := h.1.span_eq hx
      rw [Place.offset_advance] at hstart
      exact Nat.le_trans (Nat.add_le_add_left hle _) hstart

/-- What the source holds at the span of a tile. -/
theorem Tiled.slice? (h : Tiled .start xs) (hx : x ∈ xs) {s : Span} (hs : x.span? = some s) :
    s.slice? (String.ofList (textOf xs)) = some (String.ofList x.covered) ∧ x.covered ≠ [] := by
  obtain ⟨front, back, rfl⟩ := List.append_of_mem hx
  obtain ⟨hspan, hne⟩ := h.standsAt.span_eq hs
  obtain ⟨gap, hgap⟩ := x.exists_text
  refine ⟨?_, hne⟩
  have hslice := Span.slice?_append (textOf front) x.covered (gap ++ textOf back)
  rw [hspan, Place.offset_advance, textOf_append, textOf_cons, hgap, List.append_assoc]
  simpa [Place.start] using hslice

/-- A character of two texts is one of the second or one of the first. -/
theorem append_eq_append_cons {text gap left right : List Char} {c : Char}
    (h : text ++ gap = left ++ c :: right) :
    (∃ skipped, left = text ++ skipped ∧ gap = skipped ++ c :: right) ∨
      ∃ kept, text = left ++ c :: kept := by
  rcases List.append_eq_append_iff.mp h with ⟨skipped, hleft, hgap⟩ | ⟨kept, htext, hkept⟩
  · exact .inl ⟨skipped, hleft, hgap⟩
  · cases kept with
    | nil => exact .inl ⟨[], by rw [htext, List.append_nil, List.append_nil], hkept.symm⟩
    | cons d kept =>
      obtain ⟨rfl, -⟩ := List.cons.inj hkept
      exact .inr ⟨kept, htext⟩

/-- The tile that a character belongs to. -/
theorem exists_tile : ∀ {xs : List Tile} {before after : List Char} {c : Char},
    textOf xs = before ++ c :: after → ∃ front x back left right,
      xs = front ++ x :: back ∧ x.text = left ++ c :: right ∧ before = textOf front ++ left
  | [], before, after, c, h => by simp [textOf] at h
  | x :: xs, before, after, c, h => by
    rw [textOf_cons] at h
    rcases append_eq_append_cons h with ⟨left, rfl, hxs⟩ | ⟨right, hx⟩
    · obtain ⟨front, y, back, l, r, rfl, hy, rfl⟩ := exists_tile hxs
      exact ⟨x :: front, y, back, l, r, rfl, hy, by rw [textOf_cons, List.append_assoc]⟩
    · exact ⟨[], x, xs, before, right, rfl, hx, rfl⟩

/-! ## The tokenizer lays tiles -/

/-- Tiles that the tokenizer has laid over what it has passed. -/
structure Laid (passed : List Char) (s : Scanner) (tiles : List Tile) : Prop where
  tiled : Tiled .start tiles
  text : textOf tiles = passed
  tokens : tiles.filterMap Tile.token? = s.tokens.reverse
  faults : tiles.filterMap Tile.fault? = s.faults.reverse
  place : s.place = Place.start.advance passed

variable {passed rest : List Char} {s : Scanner} {tiles : List Tile}

theorem span?_of_fault? {x : Tile} {f : ScanFault} (h : x.fault? = some f) :
    x.span? = some f.span := by
  cases x <;> simp_all [Tile.fault?, Tile.span?]

/-- One more tile. -/
theorem Laid.snoc (h : Laid passed s tiles) {x : Tile} {s' : Scanner} (hx : x.StandsAt s.place)
    (htokens : s'.tokens = x.token?.toList ++ s.tokens)
    (hfaults : s'.faults = x.fault?.toList ++ s.faults)
    (hplace : s'.place = s.place.advance x.text) :
    Laid (passed ++ x.text) s' (tiles ++ [x]) where
  tiled := by
    refine tiled_append.mpr ⟨h.tiled, tiled_singleton.mpr ?_⟩
    rwa [h.text, ← h.place]
  text := by
    rw [textOf_append, h.text]
    simp [textOf]
  tokens := by
    rw [List.filterMap_append, h.tokens, htokens, List.reverse_append]
    cases hx : x.token? <;> simp [hx]
  faults := by
    rw [List.filterMap_append, h.faults, hfaults, List.reverse_append]
    cases hx : x.fault? <;> simp [hx]
  place := by rw [hplace, h.place, Place.advance_append]

/-- A fault that ends right here is the last tile. -/
theorem Laid.exists_last_fault (h : Laid passed s tiles) {last : ScanFault}
    {faults : List ScanFault}
    (hfaults : s.faults = last :: faults) (hstop : last.stop = s.place.offset) :
    ∃ init text, tiles = init ++ [.fault last text] := by
  have hmem : last ∈ tiles.filterMap Tile.fault? := by
    rw [h.faults, hfaults]
    simp
  rcases List.eq_nil_or_concat tiles with rfl | ⟨init, x, rfl⟩
  · exact absurd hmem List.not_mem_nil
  rw [List.concat_eq_append] at *
  have htiled := tiled_append.mp h.tiled
  have hx : x.StandsAt (Place.start.advance (textOf init)) := htiled.2.1
  have hplace : s.place.offset =
      (Place.start.advance (textOf init)).offset + byteLength x.text := by
    rw [h.place, ← h.text, textOf_append, Place.advance_append, Place.offset_advance]
    simp [textOf]
  -- a fault in front of the last tile ends in front of it
  have hearlier : x.fault? = none → x.text ≠ [] → False := by
    intro hnone htext
    rw [List.filterMap_append, List.filterMap_cons_none hnone, List.filterMap_nil,
      List.append_nil] at hmem
    obtain ⟨y, hy, hfault⟩ := List.mem_filterMap.mp hmem
    have hle := htiled.1.stop_le_offset (List.mem_filterMap.mpr ⟨y, hy, span?_of_fault? hfault⟩)
    have hpos := byteLength_pos htext
    have hlast : last.span.stop = last.stop := rfl
    omega
  have hlast : ∀ f, x.fault? = some f → f = last := by
    intro f hf
    have hall := h.faults
    rw [List.filterMap_append, List.filterMap_cons_some hf, List.filterMap_nil, hfaults,
      List.reverse_cons] at hall
    exact (List.cons.inj (List.append_inj' hall rfl).2).1
  cases x with
  | token t => exact (hearlier rfl hx.2).elim
  | layout text => exact (hearlier rfl hx.1).elim
  | fault f text =>
    obtain rfl := hlast f rfl
    exact ⟨init, text, rfl⟩
  | line f text gap =>
    obtain rfl := hlast f rfl
    obtain ⟨⟨hfp, hlen, -⟩, -, hbreak⟩ := hx
    have hpos := byteLength_pos hbreak.ne_nil
    rw [Tile.text, byteLength_append] at hplace
    rw [ScanFault.stop, hfp, hlen] at hstop
    omega

/-- The last fault grows by a text right behind it. -/
theorem Laid.grow {init : List Tile} {last : ScanFault} {text more : List Char}
    (h : Laid passed s (init ++ [.fault last text])) {faults : List ScanFault}
    (hfaults : s.faults = last :: faults) {s' : Scanner} (htokens : s'.tokens = s.tokens)
    (hfaults' : s'.faults = { last with length := last.length + byteLength more } :: faults)
    (hplace : s'.place = s.place.advance more) :
    ∃ tiles', Laid (passed ++ more) s' tiles' := by
  have htiled := tiled_append.mp h.tiled
  obtain ⟨hat, hlen, hne⟩ := htiled.2.1
  have hold := h.faults
  rw [List.filterMap_append, hfaults, List.reverse_cons] at hold
  refine ⟨init ++ [.fault { last with length := last.length + byteLength more } (text ++ more)],
    ?_, ?_, ?_, ?_, ?_⟩
  · refine tiled_append.mpr ⟨htiled.1, tiled_singleton.mpr ⟨hat, ?_, ?_⟩⟩
    · rw [hlen, byteLength_append]
    · simp [hne]
  · rw [← h.text]
    simp [textOf, Tile.text]
  · rw [htokens, ← h.tokens, List.filterMap_append, List.filterMap_append]
    rfl
  · rw [hfaults', List.reverse_cons, ← (List.append_inj' hold rfl).1, List.filterMap_append]
    rfl
  · rw [hplace, h.place, Place.advance_append]

theorem Laid.token (h : Laid passed s tiles) {kind : Kind} {image : List Char}
    {payload : Option Payload} (hne : image ≠ []) {s' : Scanner}
    (htokens : s'.tokens = ⟨kind, String.ofList image, s.place, payload⟩ :: s.tokens)
    (hfaults : s'.faults = s.faults) (hplace : s'.place = s.place.advance image) :
    ∃ tiles', Laid (passed ++ image) s' tiles' := by
  have htext : (Tile.token ⟨kind, String.ofList image, s.place, payload⟩).text = image :=
    String.toList_ofList
  have hat : (Tile.token ⟨kind, String.ofList image, s.place, payload⟩).StandsAt s.place :=
    ⟨rfl, by rwa [String.toList_ofList]⟩
  have hlaid := h.snoc hat htokens hfaults (by rw [hplace, htext])
  rw [htext] at hlaid
  exact ⟨_, hlaid⟩

theorem Laid.unexpected (h : Laid passed s tiles) {text : List Char} (hne : text ≠ [])
    (mode : Mode) :
    ∃ tiles', Laid (passed ++ text) ((s.reportMore text mode).pass text) tiles' := by
  have hplace : ((s.reportMore text mode).pass text).place = s.place.advance text := by
    simp only [Scanner.pass, s.place_reportMore]
  obtain ⟨last, faults, hfaults, ⟨hstop, -⟩, hmore⟩ | hmore := s.reportMore_cases text mode <;>
    rw [hmore] at hplace ⊢
  · obtain ⟨init, old, rfl⟩ := h.exists_last_fault hfaults hstop
    exact h.grow hfaults rfl rfl hplace
  · exact ⟨_, h.snoc (x := .fault ⟨s.place, byteLength text, .unexpected mode⟩ text)
      ⟨rfl, rfl, hne⟩ rfl rfl hplace⟩

/-- **A step lays a tile**, or makes the last one longer. -/
theorem Laid.step (h : Laid passed s tiles) (hne : rest ≠ []) :
    ∃ tiles', Laid (passed ++ rest.take (s.next rest).taken) (s.step rest) tiles' := by
  have hcomes := comes_next (s := s) hne
  have hplace := s.place_step rest
  simp only [Scanner.step] at hplace ⊢
  generalize s.next rest = e at hcomes hplace ⊢
  cases hcomes with
  | @layout n hpos hlen hlayout =>
    exact ⟨_, h.snoc (x := .layout (rest.take n)) ⟨take_ne_nil hpos hne, hlayout⟩ rfl rfl hplace⟩
  | @newline n hpos =>
    exact h.token (take_ne_nil hpos hne) rfl rfl hplace
  | @token kind found =>
    exact h.token (take_ne_nil found.length_pos hne) rfl rfl hplace
  | @unknownLine n b hpos text gap tail hmode hnone hrest htext hgap hline hbreak =>
    have htake : rest.take n = text := by rw [hrest, ← htext, List.take_left]
    have htaken : rest.take (n + b) = text ++ gap := by
      rw [hrest, ← htext, ← hgap, ← List.append_assoc, ← List.length_append, List.take_left]
    have hfault :
        Tile.FaultAt s.place ⟨s.place, byteLength text, .unknownLine (.ofList text)⟩ text :=
      ⟨rfl, rfl, htake ▸ take_ne_nil hpos hne⟩
    simp only [Event.taken, Scanner.record, htake, htaken] at hplace ⊢
    rcases hbreak with rfl | hbreak
    · rw [List.append_nil] at hplace ⊢
      exact ⟨_, h.snoc (x := .fault _ text) hfault rfl rfl hplace⟩
    · exact ⟨_, h.snoc (x := .line _ text gap) ⟨hfault, rfl, hbreak⟩ rfl rfl hplace⟩
  | unexpected =>
    exact h.unexpected (take_ne_nil Nat.one_pos hne) _

theorem laid_start : Laid [] .start [] where
  tiled := trivial
  text := rfl
  tokens := rfl
  faults := rfl
  place := rfl

/-- Whatever has been passed is covered with tiles. -/
theorem exists_laid {source : List Char} (h : Scanner.Reached source s rest) :
    ∃ passed tiles, passed ++ rest = source ∧ Laid passed s tiles := by
  induction h with
  | start => exact ⟨[], [], rfl, laid_start⟩
  | step _ hne ih =>
    obtain ⟨passed, tiles, hsource, hlaid⟩ := ih
    obtain ⟨tiles', hlaid'⟩ := hlaid.step hne
    refine ⟨_, tiles', ?_, hlaid'⟩
    rw [List.append_assoc, List.take_append_drop, hsource]

/-- **The source is its tiles in order**, with its tokens and its faults among them. -/
theorem tiled_tokenize (source : String) : ∃ tiles, Tiled .start tiles ∧
    textOf tiles = source.toList ∧ tiles.filterMap Tile.token? = (tokenize source).tokens ∧
    tiles.filterMap Tile.fault? = (tokenize source).faults := by
  have hstart : Scanner.Reached source.toList .start source.toList := .start
  obtain ⟨passed, tiles, hsource, hlaid⟩ := exists_laid (Scanner.reached_run hstart)
  rw [List.append_nil] at hsource
  exact ⟨tiles, hlaid.tiled, by rw [hlaid.text, hsource], hlaid.tokens, hlaid.faults⟩

/-! ## What follows for tokens and faults -/

/-- Spans of which none reaches into the other. -/
def Span.Disjoint (s t : Span) : Prop := s.stop ≤ t.start ∨ t.stop ≤ s.start

/-- The byte with this number lies in the span. -/
def Span.Holds (s : Span) (i : Nat) : Prop := s.start ≤ i ∧ i < s.stop

/-- The spans of all tokens and of all faults. -/
def TokenStream.spans (stream : TokenStream) : List Span :=
  stream.tokens.map Token.span ++ stream.faults.map ScanFault.span

/-- The byte lies in the break right behind a line that was not recognised. -/
def InSkippedBreak (source : String) (faults : List ScanFault) (i : Nat) : Prop :=
  ∃ f ∈ faults, (∃ text, f.cause = .unknownLine text) ∧ ∃ gap, IsBreak gap ∧
    (⟨f.stop, f.stop + byteLength gap⟩ : Span).slice? source = some (String.ofList gap) ∧
    f.stop ≤ i ∧ i < f.stop + byteLength gap

/-- What a token stream says of its source if nothing of the source is lost. -/
structure Lossless (source : String) (stream : TokenStream) : Prop where
  /-- A token is the text at its span. -/
  token : ∀ t ∈ stream.tokens, t.image ≠ "" ∧ t.span.slice? source = some t.image
  /-- The span of a fault holds some text. -/
  fault : ∀ f ∈ stream.faults, ∃ text, text ≠ "" ∧ f.span.slice? source = some text
  /-- No byte is taken twice. -/
  disjoint : stream.spans.Pairwise Span.Disjoint
  /-- A byte that is in no span is layout, or in the break behind a line that was not recognised. -/
  uncovered : ∀ before c after, source.toList = before ++ c :: after → ∀ i, byteLength before ≤ i →
    i < byteLength before + c.utf8Size → (∀ s ∈ stream.spans, ¬ s.Holds i) →
    isLayout c ∨ InSkippedBreak source stream.faults i

theorem Span.Disjoint.symm {s t : Span} (h : s.Disjoint t) : t.Disjoint s := Or.symm h

/-- The spans of tiles, sorted by what the tiles are. -/
theorem perm_spans : ∀ tiles : List Tile, (tiles.filterMap Tile.span?).Perm
    ((tiles.filterMap Tile.token?).map Token.span ++
      (tiles.filterMap Tile.fault?).map ScanFault.span)
  | [] => .nil
  | .token t :: tiles => (perm_spans tiles).cons t.span
  | .layout _ :: tiles => perm_spans tiles
  | .fault f _ :: tiles => ((perm_spans tiles).cons f.span).trans List.perm_middle.symm
  | .line f _ _ :: tiles => ((perm_spans tiles).cons f.span).trans List.perm_middle.symm

theorem ofList_ne_empty {text : List Char} (h : text ≠ []) : String.ofList text ≠ "" := by
  intro heq
  exact h (by rw [← String.toList_ofList (l := text), heq]; rfl)

variable {source : String}

theorem Tiled.token_slice? (h : Tiled .start tiles) (htext : textOf tiles = source.toList)
    {t : Token} (ht : t ∈ tiles.filterMap Tile.token?) :
    t.image ≠ "" ∧ t.span.slice? source = some t.image := by
  obtain ⟨x, hx, htoken⟩ := List.mem_filterMap.mp ht
  obtain rfl : x = .token t := by cases x <;> simp_all [Tile.token?]
  obtain ⟨hslice, hne⟩ := h.slice? hx rfl
  rw [htext, String.ofList_toList] at hslice
  rw [Tile.covered, String.ofList_toList] at hslice
  refine ⟨fun hempty => hne ?_, hslice⟩
  rw [Tile.covered, hempty]
  rfl

theorem Tiled.fault_slice? (h : Tiled .start tiles) (htext : textOf tiles = source.toList)
    {f : ScanFault} (hf : f ∈ tiles.filterMap Tile.fault?) :
    ∃ text, text ≠ "" ∧ f.span.slice? source = some text := by
  obtain ⟨x, hx, hfault⟩ := List.mem_filterMap.mp hf
  obtain ⟨hslice, hne⟩ := h.slice? hx (span?_of_fault? hfault)
  rw [htext, String.ofList_toList] at hslice
  exact ⟨String.ofList x.covered, ofList_ne_empty hne, hslice⟩

/-- A character that a tile covers lies in its span, with all its bytes. -/
theorem Tile.StandsAt.exists_holds (h : x.StandsAt p) {left right : List Char} {c : Char}
    (hx : x.covered = left ++ c :: right) {i : Nat} (hle : p.offset + byteLength left ≤ i)
    (hlt : i < p.offset + byteLength left + c.utf8Size) : ∃ s, x.span? = some s ∧ s.Holds i := by
  have hbytes : byteLength x.covered = byteLength left + (c.utf8Size + byteLength right) := by
    rw [hx, byteLength_append, byteLength_cons]
  cases hspan : x.span? with
  | none =>
    have hnil : x.covered = [] := by cases x <;> simp_all [Tile.span?, Tile.covered]
    rw [hnil] at hx
    simp at hx
  | some s =>
    obtain ⟨rfl, -⟩ := h.span_eq hspan
    refine ⟨_, rfl, Nat.le_trans (Nat.le_add_right _ _) hle, ?_⟩
    show i < p.offset + byteLength x.covered
    omega

/-- **What no span holds** is layout or a break behind a line that was not recognised. -/
theorem Tiled.uncovered (h : Tiled .start tiles) (htext : textOf tiles = source.toList)
    {before after : List Char} {c : Char} (hsource : source.toList = before ++ c :: after) {i : Nat}
    (hle : byteLength before ≤ i) (hlt : i < byteLength before + c.utf8Size)
    (hfree : ∀ s ∈ tiles.filterMap Tile.span?, ¬ s.Holds i) :
    isLayout c ∨ InSkippedBreak source (tiles.filterMap Tile.fault?) i := by
  obtain ⟨front, x, back, left, right, rfl, hx, rfl⟩ := exists_tile (htext.trans hsource)
  have hat := h.standsAt
  have hoffset : (Place.start.advance (textOf front)).offset = byteLength (textOf front) := by
    rw [Place.offset_advance]
    exact Nat.zero_add _
  rw [byteLength_append] at hle hlt
  have hcovered : ∀ l r, x.covered = l ++ c :: r → byteLength l = byteLength left → False := by
    intro l r hl hlen
    obtain ⟨s, hspan, hholds⟩ := hat.exists_holds hl (i := i) (by omega) (by omega)
    exact hfree s (List.mem_filterMap.mpr ⟨x, by simp, hspan⟩) hholds
  cases x with
  | token t => exact (hcovered left right hx rfl).elim
  | fault f text => exact (hcovered left right hx rfl).elim
  | layout text =>
    refine .inl (hat.2 c ?_)
    rw [show text = left ++ c :: right from hx]
    simp
  | line f text gap =>
    obtain ⟨⟨hplace, hlen, -⟩, hcause, hbreak⟩ := hat
    rcases append_eq_append_cons (show text ++ gap = left ++ c :: right from hx) with
      ⟨skipped, rfl, hgap⟩ | ⟨kept, rfl⟩
    · have hstop : f.stop = byteLength (textOf front ++ text) := by
        rw [ScanFault.stop, hplace, hoffset, hlen, byteLength_append]
      have hbytes : byteLength gap = byteLength skipped + (c.utf8Size + byteLength right) := by
        rw [hgap, byteLength_append, byteLength_cons]
      have hslice := Span.slice?_append (textOf front ++ text) gap (textOf back)
      rw [byteLength_append] at hle hlt
      refine .inr ⟨f, List.mem_filterMap.mpr ⟨.line f text gap, by simp, rfl⟩, ⟨_, hcause⟩, gap,
        hbreak, ?_, ?_, ?_⟩
      · rw [← String.ofList_toList (s := source), ← htext, textOf_append, textOf_cons, hstop]
        simpa [Tile.text] using hslice
      · rw [hstop, byteLength_append]
        omega
      · rw [hstop, byteLength_append]
        omega
    · exact (hcovered left kept rfl rfl).elim

/-- Each token takes something, and the tokens stand one behind the other. -/
theorem pairwise_stop_tokenize (source : String) :
    (∀ t ∈ (tokenize source).tokens, t.offset < t.stop) ∧
      (tokenize source).tokens.Pairwise fun t u => t.stop ≤ u.offset := by
  obtain ⟨tiles, htiled, -, htokens, -⟩ := tiled_tokenize source
  have htile {x : Tile} {t : Token} (hx : x.token? = some t) : x = .token t := by
    cases x <;> simp_all [Tile.token?]
  have hordered := List.pairwise_filterMap.mp htiled.pairwise
  rw [← htokens, List.pairwise_filterMap]
  constructor
  · intro t ht
    obtain ⟨x, hx, hxt⟩ := List.mem_filterMap.mp ht
    obtain rfl := htile hxt
    exact Nat.lt_add_of_pos_right (byteLength_pos (htiled.slice? hx rfl).2)
  · refine hordered.imp fun hxy t ht u hu => ?_
    obtain rfl := htile ht
    obtain rfl := htile hu
    exact hxy _ rfl _ rfl

/-- Each token starts behind the start of the one before it. -/
theorem pairwise_offset_tokenize (source : String) :
    (tokenize source).tokens.Pairwise fun t u => t.offset < u.offset := by
  obtain ⟨hpos, hordered⟩ := pairwise_stop_tokenize source
  exact hordered.imp_of_mem fun ht _ hle => Nat.lt_of_lt_of_le (hpos _ ht) hle

/-- **Nothing of a source is lost.** The tokenizer comes to the end of the source in steps that each
move on, take no more than is left and never pass the end. Each token is the text at its span and
each fault covers some text, no byte is covered twice, and the bytes that are not covered are layout
between tokens or the break behind a line that was not recognised. -/
theorem tokenize_lossless (source : String) :
    (∃ s, Scanner.Reached source.toList s [] ∧
      tokenize source = ⟨s.tokens.reverse, s.faults.reverse⟩) ∧
    (∀ s rest, Scanner.Reached source.toList s rest →
      s.place.offset + byteLength rest = byteLength source.toList ∧
      (s.place.offset < byteLength source.toList → (s.next rest).taken ≤ rest.length ∧
        s.place.offset < (s.step rest).place.offset ∧
        (s.step rest).place.offset ≤ byteLength source.toList)) ∧
    Lossless source (tokenize source) := by
  obtain ⟨tiles, htiled, htext, htokens, hfaults⟩ := tiled_tokenize source
  refine ⟨⟨_, Scanner.reached_run .start, rfl⟩, ?_, ?_⟩
  · intro s rest hreached
    have htotal := Scanner.offset_add_byteLength hreached
    refine ⟨htotal, fun hlt => ?_⟩
    have hne : rest ≠ [] := by
      rintro rfl
      rw [byteLength_nil] at htotal
      omega
    obtain ⟨hpos, hle⟩ := s.offset_step hne
    exact ⟨taken_next_le hne, hpos, htotal ▸ hle⟩
  · have hperm := perm_spans tiles
    rw [htokens, hfaults] at hperm
    refine ⟨?_, ?_, ?_, ?_⟩
    · rw [← htokens]
      exact fun t ht => htiled.token_slice? htext ht
    · rw [← hfaults]
      exact fun f hf => htiled.fault_slice? htext hf
    · have hordered := htiled.pairwise.imp fun hle => (.inl hle : Span.Disjoint _ _)
      exact (hperm.pairwise_iff Span.Disjoint.symm).mp hordered
    · intro before c after hsource i hle hlt hfree
      rw [← hfaults]
      exact htiled.uncovered htext hsource hle hlt fun s hs => hfree s (hperm.mem_iff.mp hs)

end Daybook
