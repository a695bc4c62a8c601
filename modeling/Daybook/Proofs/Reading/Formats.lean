import Daybook.Proofs.Reading.Refused

/-!
# Formats of commodities

A commodity is declared by its name or by an amount, and has any number of formats and comments
under it. All in all one amount may show its format, and a format has to name the commodity that is
declared. What is wrong is looked for in a fixed order, and the first thing found is what the
declaration is refused for. No two of these things can be found first, so what becomes of a
declaration can be told without an order. About `cook_commodity` (invariant 3 of [SPEC 3], [SPEC
4.4]).

* `CommodityDirective.present c`: the amounts that show the format, all in all.
* `CommodityDirective.Shows c f`: one amount shows the format, and it names the commodity.
* `CommodityDirective.Becomes c outcome`: what becomes of a declaration.
* `CommodityDirective.Validated c outcome`: each outcome, and exactly when it is the one.

Results:
* `ofWritten_eq_iff`: **a declaration becomes what the formats that it has tell.**
* `ofWritten_congr`: comments change nothing but tags.
* `ofWritten_formats`: **exactly when a commodity is refused, for what, and what else it becomes.**
-/

namespace Daybook

namespace Written

/-- The amount that a commodity is declared by. -/
def Declaration.inline? : Declaration → Option NamedAmount
  | amount shown => some shown
  | name _ => none

theorem Declaration.inline?_eq_some_iff {declaration : Declaration} {shown : NamedAmount} :
    declaration.inline? = some shown ↔ declaration = .amount shown := by
  cases declaration <;> simp [inline?]

theorem Declaration.inline?_eq_none_iff {declaration : Declaration} :
    declaration.inline? = none ↔ declaration = .name declaration.commodity := by
  cases declaration <;> simp [inline?, commodity]

namespace CommodityDirective

/-- The amounts that show the format: the one that declares the commodity, and those under it. -/
def present (c : CommodityDirective) : List NamedAmount :=
  c.declaration.inline?.toList ++ c.formats

/-- This amount and no other shows the format, and it names the commodity that is declared. -/
def Shows (c : CommodityDirective) (f : NamedAmount) : Prop :=
  c.present = [f] ∧ f.commodity = c.declaration.commodity

/-- The tags of the declaration and of the comments under it. -/
def tags (c : CommodityDirective) : List Tag :=
  tagsOf c.comment ++ c.lines.flatMap CommodityContent.tags

/-- What becomes of a declaration. -/
inductive Becomes (c : CommodityDirective) : Except JournalFault CommodityEntry → Prop
  /-- There is more than one format under it. -/
  | manyFormats (h : 1 < c.formats.length) :
    Becomes c (.error (.manyFormats c.declaration.commodity c.formats.length))
  /-- There is one, and the commodity is declared by an amount. -/
  | conflictingFormat {shown f : NamedAmount} (hinline : c.declaration.inline? = some shown)
      (hformats : c.formats = [f]) :
    Becomes c (.error (.conflictingFormat c.declaration.commodity))
  /-- There is one that names another commodity. -/
  | otherCommodity {f : NamedAmount} (hinline : c.declaration.inline? = none)
      (hformats : c.formats = [f]) (hother : f.commodity ≠ c.declaration.commodity) :
    Becomes c (.error (.otherCommodity c.declaration.commodity f.commodity))
  /-- One amount shows the format, but its number is no decimal. -/
  | invalidNumber {f : NamedAmount} (hshows : c.Shows f)
      (hnumber : Decimal.ofChars? (spelledNumber f.number) = none) :
    Becomes c (.error (.invalidNumber f.toAmount.value))
  /-- One amount shows the format. -/
  | shown {f : NamedAmount} {q : Decimal} (hshows : c.Shows f)
      (hnumber : Decimal.ofWritten f.toAmount = .ok q) :
    Becomes c (.ok ⟨c.declaration.commodity, some ⟨q, some c.declaration.commodity⟩, c.tags⟩)
  /-- No amount does. -/
  | bare (h : c.present = []) : Becomes c (.ok ⟨c.declaration.commodity, none, c.tags⟩)

end CommodityDirective

end Written

open Written

variable {c d : CommodityDirective} {f : NamedAmount} {fault : JournalFault}
  {outcome : Except JournalFault CommodityEntry}

/-! ## The format chosen -/

theorem formatOf_of_many (h : 1 < c.formats.length) : formatOf c.declaration c.formats =
    .error (.manyFormats c.declaration.commodity c.formats.length) := by
  unfold formatOf
  rcases hformats : c.formats with _ | ⟨f, _ | ⟨g, more⟩⟩
  · simp [hformats] at h
  · simp [hformats] at h
  · rfl

theorem formatOf_of_conflict {shown : NamedAmount} (hinline : c.declaration.inline? = some shown)
    (hformats : c.formats = [f]) : formatOf c.declaration c.formats =
      .error (.conflictingFormat c.declaration.commodity) := by
  rw [Declaration.inline?_eq_some_iff.mp hinline, hformats]
  rfl

theorem formatOf_of_other (hinline : c.declaration.inline? = none) (hformats : c.formats = [f])
    (hother : f.commodity ≠ c.declaration.commodity) : formatOf c.declaration c.formats =
      .error (.otherCommodity c.declaration.commodity f.commodity) := by
  rw [Declaration.inline?_eq_none_iff.mp hinline, hformats]
  exact if_neg hother

theorem formatOf_of_bare (h : c.present = []) : formatOf c.declaration c.formats = .ok none := by
  obtain ⟨hinline, hformats⟩ := List.append_eq_nil_iff.mp h
  rw [Declaration.inline?_eq_none_iff.mp (Option.toList_eq_nil_iff.mp hinline), hformats]
  rfl

/-- **One amount that names the commodity is chosen.** -/
theorem formatOf_of_shows (h : c.Shows f) : formatOf c.declaration c.formats = .ok (some f) := by
  obtain ⟨hpresent, hsame⟩ := h
  cases hinline : c.declaration.inline? with
  | none =>
    rw [CommodityDirective.present, hinline] at hpresent
    have hformats : c.formats = [f] := hpresent
    rw [Declaration.inline?_eq_none_iff.mp hinline, hformats]
    exact if_pos hsame
  | some shown =>
    rw [CommodityDirective.present, hinline] at hpresent
    obtain ⟨rfl, hformats⟩ : shown = f ∧ c.formats = [] := List.cons.inj hpresent
    rw [Declaration.inline?_eq_some_iff.mp hinline, hformats]
    rfl

/-! ## What becomes of a declaration -/

theorem ofWritten_of_refused (h : formatOf c.declaration c.formats = .error fault) :
    CommodityEntry.ofWritten c = .error fault := by
  show formatOf c.declaration c.formats >>= _ = _
  rw [h]
  rfl

theorem ofWritten_of_chosen {shown : Option NamedAmount}
    (h : formatOf c.declaration c.formats = .ok shown) : CommodityEntry.ofWritten c =
      (fun format => ⟨c.declaration.commodity, format, c.tags⟩) <$>
        optionally (fun a => Amount.ofWritten a.toAmount) shown := by
  show formatOf c.declaration c.formats >>= _ = _
  rw [h]
  rfl

namespace Written.CommodityDirective

theorem Becomes.eq (h : c.Becomes outcome) :
    CommodityEntry.ofWritten c = outcome := by
  cases h with
  | manyFormats hmany => exact ofWritten_of_refused (formatOf_of_many hmany)
  | conflictingFormat hinline hformats =>
    exact ofWritten_of_refused (formatOf_of_conflict hinline hformats)
  | otherCommodity hinline hformats hother =>
    exact ofWritten_of_refused (formatOf_of_other hinline hformats hother)
  | @invalidNumber f hshows hnumber =>
    have hnone : Decimal.ofChars? (spelledNumber f.toAmount.number) = none := hnumber
    have hamount : Amount.ofWritten f.toAmount = .error (.invalidNumber f.toAmount.value) := by
      rw [Amount.ofWritten, Decimal.ofWritten, hnone]
      rfl
    rw [ofWritten_of_chosen (formatOf_of_shows hshows), optionally, hamount]
    rfl
  | @shown f q hshows hnumber =>
    have hamount : Amount.ofWritten f.toAmount = .ok ⟨q, some c.declaration.commodity⟩ := by
      rw [Amount.ofWritten, hnumber, ← hshows.2]
      rfl
    rw [ofWritten_of_chosen (formatOf_of_shows hshows), optionally, hamount]
    rfl
  | bare hnone =>
    rw [ofWritten_of_chosen (formatOf_of_bare hnone)]
    rfl

theorem present_ne_nil_iff : c.present ≠ [] ↔ c.declaration.inline?.isSome ∨ c.formats ≠ [] := by
  unfold present
  cases c.declaration.inline? <;> simp

/-- One amount that shows the format is understood, or its number is no decimal. -/
theorem Shows.exists_becomes (h : c.Shows f) : ∃ outcome, c.Becomes outcome := by
  cases hnumber : Decimal.ofChars? (spelledNumber f.number) with
  | none => exact ⟨_, .invalidNumber h hnumber⟩
  | some quantity =>
    have hsome : Decimal.ofChars? (spelledNumber f.toAmount.number) = some quantity := hnumber
    obtain ⟨q, hq⟩ : ∃ q, Decimal.ofWritten f.toAmount = .ok q :=
      ⟨_, by rw [Decimal.ofWritten, hsome]⟩
    exact ⟨_, .shown h hq⟩

/-- Something becomes of every declaration. -/
theorem exists_becomes (c : CommodityDirective) : ∃ outcome, c.Becomes outcome := by
  rcases hformats : c.formats with _ | ⟨f, _ | ⟨g, more⟩⟩
  · cases hinline : c.declaration.inline? with
    | none => exact ⟨_, .bare (by rw [present, hinline, hformats]; rfl)⟩
    | some shown =>
      have hshows : c.Shows shown := by
        refine ⟨by rw [present, hinline, hformats]; rfl, ?_⟩
        rw [Declaration.inline?_eq_some_iff.mp hinline]
        rfl
      exact hshows.exists_becomes
  · cases hinline : c.declaration.inline? with
    | some shown => exact ⟨_, .conflictingFormat hinline hformats⟩
    | none =>
      by_cases hsame : f.commodity = c.declaration.commodity
      · have hshows : c.Shows f := ⟨by rw [present, hinline, hformats]; rfl, hsame⟩
        exact hshows.exists_becomes
      · exact ⟨_, .otherCommodity hinline hformats hsame⟩
  · exact ⟨_, .manyFormats (by simp [hformats])⟩

end Written.CommodityDirective

/-- **A declaration becomes what the formats that it has tell.** -/
theorem ofWritten_eq_iff : CommodityEntry.ofWritten c = outcome ↔ c.Becomes outcome := by
  refine ⟨?_, CommodityDirective.Becomes.eq⟩
  rintro rfl
  obtain ⟨outcome, hbecomes⟩ := c.exists_becomes
  rwa [hbecomes.eq]

/-- **Comments change nothing but tags.** -/
theorem ofWritten_congr (hdeclaration : d.declaration = c.declaration)
    (hformats : d.formats = c.formats) : CommodityEntry.ofWritten d =
      (fun e => { e with tags := d.tags }) <$> CommodityEntry.ofWritten c := by
  cases hchosen : formatOf c.declaration c.formats with
  | error fault =>
    rw [ofWritten_of_refused hchosen,
      ofWritten_of_refused (by rw [hdeclaration, hformats, hchosen])]
    rfl
  | ok shown =>
    rw [ofWritten_of_chosen hchosen, ofWritten_of_chosen (by rw [hdeclaration, hformats, hchosen]),
      hdeclaration, Functor.map_map]

/-! ## Refused or understood -/

/-- What a declaration is refused for, and what it becomes if it is not. -/
structure Written.CommodityDirective.Validated (c : CommodityDirective)
    (outcome : Except JournalFault CommodityEntry) : Prop where
  /-- There is more than one format under it. -/
  manyFormats : outcome = .error (.manyFormats c.declaration.commodity c.formats.length) ↔
    1 < c.formats.length
  /-- There is one beside the amount that declares the commodity. -/
  conflictingFormat : outcome = .error (.conflictingFormat c.declaration.commodity) ↔
    c.declaration.inline?.isSome ∧ c.formats.length = 1
  /-- The only one names another commodity. -/
  otherCommodity : ∀ name, outcome = .error (.otherCommodity c.declaration.commodity name) ↔
    c.declaration.inline? = none ∧ (∃ f, c.formats = [f] ∧ f.commodity = name) ∧
      name ≠ c.declaration.commodity
  /-- The number of the only amount is no decimal. -/
  invalidNumber : ∀ text, outcome = .error (.invalidNumber text) ↔
    ∃ f, c.Shows f ∧ Decimal.ofChars? (spelledNumber f.number) = none ∧ text = f.toAmount.value
  /-- Nothing else is wrong. -/
  refused : ∀ fault, outcome = .error fault →
    fault = .manyFormats c.declaration.commodity c.formats.length ∨
    fault = .conflictingFormat c.declaration.commodity ∨
    (∃ name, fault = .otherCommodity c.declaration.commodity name) ∨
    ∃ text, fault = .invalidNumber text
  /-- The entry has the name and the tags, and the quantity of the only amount. -/
  understood : ∀ e, outcome = .ok e ↔ e.commodity = c.declaration.commodity ∧ e.tags = c.tags ∧
    (c.present = [] ∧ e.format = none ∨ ∃ f q, c.Shows f ∧
      Decimal.ofWritten f.toAmount = .ok q ∧ e.format = some ⟨q, some c.declaration.commodity⟩)
  /-- It has a format if there is an amount that shows it. -/
  isSome_format : ∀ e, outcome = .ok e →
    (e.format.isSome ↔ c.declaration.inline?.isSome ∨ c.formats ≠ [])

/-- **Each outcome, and exactly when it is the one.** -/
theorem Written.CommodityDirective.validated_ofWritten (c : CommodityDirective) :
    c.Validated (CommodityEntry.ofWritten c) := by
  constructor
  · exact ofWritten_eq_iff.trans ⟨fun h => by cases h; assumption, .manyFormats⟩
  · refine ofWritten_eq_iff.trans ⟨fun h => ?_, fun h => ?_⟩
    · cases h with
      | conflictingFormat hinline hformats => simp [hinline, hformats]
    · obtain ⟨hinline, hlength⟩ := h
      obtain ⟨shown, hshown⟩ := Option.isSome_iff_exists.mp hinline
      obtain ⟨f, hf⟩ := List.length_eq_one_iff.mp hlength
      exact .conflictingFormat hshown hf
  · refine fun name => ofWritten_eq_iff.trans ⟨fun h => ?_, fun h => ?_⟩
    · cases h with
      | otherCommodity hinline hformats hother => exact ⟨hinline, ⟨_, hformats, rfl⟩, hother⟩
    · obtain ⟨hinline, ⟨f, hformats, rfl⟩, hother⟩ := h
      exact .otherCommodity hinline hformats hother
  · refine fun text => ofWritten_eq_iff.trans ⟨fun h => ?_, fun h => ?_⟩
    · cases h with
      | invalidNumber hshows hnumber => exact ⟨_, hshows, hnumber, rfl⟩
    · obtain ⟨f, hshows, hnumber, rfl⟩ := h
      exact .invalidNumber hshows hnumber
  · intro fault hfault
    cases ofWritten_eq_iff.mp hfault with
    | manyFormats => exact .inl rfl
    | conflictingFormat => exact .inr (.inl rfl)
    | otherCommodity => exact .inr (.inr (.inl ⟨_, rfl⟩))
    | invalidNumber => exact .inr (.inr (.inr ⟨_, rfl⟩))
  · refine fun e => ofWritten_eq_iff.trans ⟨fun h => ?_, fun h => ?_⟩
    · cases h with
      | shown hshows hnumber => exact ⟨rfl, rfl, .inr ⟨_, _, hshows, hnumber, rfl⟩⟩
      | bare hnone => exact ⟨rfl, rfl, .inl ⟨hnone, rfl⟩⟩
    · obtain ⟨commodity, format, tags⟩ := e
      obtain ⟨rfl, rfl, ⟨hnone, rfl⟩ | ⟨f, q, hshows, hnumber, rfl⟩⟩ := h
      · exact .bare hnone
      · exact .shown hshows hnumber
  · intro e he
    cases ofWritten_eq_iff.mp he with
    | shown hshows =>
      have hne : c.present ≠ [] := hshows.1 ▸ List.cons_ne_nil _ _
      exact ⟨fun _ => present_ne_nil_iff.mp hne, fun _ => rfl⟩
    | bare hnone => exact ⟨nofun, fun h => absurd hnone (present_ne_nil_iff.mpr h)⟩

/-- Every commodity of a journal is declared. -/
theorem exists_directive_of_mem_commodities {year : Int} {w : Written.Journal} {j : Journal}
    (h : Journal.ofWritten year w = .ok j) {e : CommodityEntry} (he : e ∈ j.commodities) :
    ∃ c, CommodityEntry.ofWritten c = .ok e := by
  obtain ⟨parts, hparts, rfl⟩ := ofWritten_eq_ok_iff.mp h
  have hentries := forall₂_concat lists_commodities rfl (fun _ _ => rfl) hparts
  obtain ⟨v, -, c, -, hc⟩ := exists_of_mem_right hentries he
  exact ⟨c, hc⟩

/-- **Exactly when a commodity is refused, for what, and what else it becomes.** So the format of a
commodity in a journal names that commodity, and the comments under a declaration, which are no
formats, change nothing but the tags. -/
theorem ofWritten_formats :
    (∀ c : CommodityDirective, c.Validated (CommodityEntry.ofWritten c)) ∧
    (∀ year w j, Journal.ofWritten year w = .ok j →
      ∀ e ∈ j.commodities, ∀ a ∈ e.format, a.commodity = some e.commodity) ∧
    ∀ c d : CommodityDirective, d.declaration = c.declaration → d.formats = c.formats →
      CommodityEntry.ofWritten d =
        (fun e => { e with tags := d.tags }) <$> CommodityEntry.ofWritten c := by
  refine ⟨fun c => c.validated_ofWritten, fun year w j hj e he a ha => ?_,
    fun c d => ofWritten_congr⟩
  obtain ⟨c, hc⟩ := exists_directive_of_mem_commodities hj he
  cases ofWritten_eq_iff.mp hc with
  | shown =>
    obtain rfl := Option.some.inj ha
    rfl
  | bare => cases ha

end Daybook
