import Daybook.Journal.OfWritten
import Daybook.Proofs.Json.Form
import Daybook.Written.Json

/-!
# Written journals are read back

The stored form of a written journal holds all of it. The members of an object have different names,
a tag stands in front of them, and every case of a type has a tag of its own, so nothing that is
stored is taken for something else. Only the places of the items have a bound: they are machine
words. About the stored form of the raw journal ([SPEC 12.4]).

* `Span.IsStorable s`: the ends of a span are machine words.

Results:
* an instance of `ReadsAs` for each part of a written journal.
* `decode_encode_written`: **a written journal is read back as it is, and means the same.**
-/

namespace Daybook

open JsonForm

/-- The ends of a span are machine words. -/
def Span.IsStorable (s : Span) : Prop :=
  s.start < 0x10000000000000000 ∧ s.stop < 0x10000000000000000

theorem decode_encode_span {s : Span} (h : s.IsStorable) : decode (encode s) = some s := by
  unfold instJsonFormSpan
  simp [Json.read, decode_encode_nat h.1, decode_encode_nat h.2]

/-- A value with its place. -/
theorem decode_encode_located {α : Type} [JsonForm α] [ReadsAs α id] {x : Located α}
    (h : x.span.IsStorable) : decode (encode x) = some x := by
  unfold instJsonFormLocated
  simp [Json.read, decode_encode_span h]

namespace Written

/-! ## Parts of an item -/

instance : ReadsAs Sign id where
  encode_ne_null s := by cases s <;> nofun
  decode_encode s := by cases s <;> rfl

instance : ReadsAs Amount id where
  encode_ne_null _ := Json.object_ne_null _
  decode_encode a := by
    unfold instJsonFormAmount
    simp [Json.read]

instance : ReadsAs NamedAmount id where
  encode_ne_null _ := Json.object_ne_null _
  decode_encode a := by
    unfold instJsonFormNamedAmount
    simp [Json.read]

instance : ReadsAs CommentPart id where
  encode_ne_null p := by cases p <;> exact Json.object_ne_null _
  decode_encode p := by
    unfold instJsonFormCommentPart
    cases p <;> simp [Json.read, Json.name?]

instance : ReadsAs Comment id where
  encode_ne_null _ := Json.object_ne_null _
  decode_encode c := by
    unfold instJsonFormComment
    simp [Json.read]

theorem decode_encode_writtenAccount (a : Account) :
    writtenAccountForm.decode (writtenAccountForm.encode a) = some a := by
  obtain ⟨kind, path⟩ := a
  unfold writtenAccountForm
  cases kind <;> simp [Json.read, Json.name?]

instance : @ReadsAs Account writtenAccountForm id :=
  @ReadsAs.mk _ writtenAccountForm _ nofun decode_encode_writtenAccount

instance : ReadsAs Declaration id where
  encode_ne_null d := by cases d <;> exact Json.object_ne_null _
  decode_encode d := by
    unfold instJsonFormDeclaration
    cases d <;> simp [Json.read, Json.name?]

instance : ReadsAs CommodityContent id where
  encode_ne_null c := by cases c <;> exact Json.object_ne_null _
  decode_encode c := by
    unfold instJsonFormCommodityContent
    cases c <;> simp [Json.read, Json.name?]

/-! ## A tag in front of the members -/

/-- Values of the type are stored as objects, and one is read back with a tag in front of its
members. -/
class ReadsTagged (α : Type) [JsonForm α] : Prop where
  /-- There are members that a tag can stand in front of. -/
  exists_members (a : α) : ∃ members, encode a = .object members
  /-- None of them is taken for the tag, nor the tag for one of them. -/
  decode_tagged (tag : String) (a : α) : decode ((encode a).tagged tag) = some a

attribute [simp] ReadsTagged.decode_tagged

section Tagged

variable {α : Type} [JsonForm α] [ReadsTagged α]

theorem tagged_ne_null (tag : String) (a : α) : (encode a).tagged tag ≠ .null := by
  obtain ⟨members, h⟩ := ReadsTagged.exists_members a
  rw [h]
  exact Json.object_ne_null _

@[simp]
theorem get_type_tagged (tag : String) (a : α) :
    ((encode a).tagged tag).get "type" = .string tag := by
  obtain ⟨members, h⟩ := ReadsTagged.exists_members a
  simp [h]

end Tagged

instance : ReadsTagged Posting where
  exists_members _ := ⟨_, rfl⟩
  decode_tagged _ p := by
    unfold instJsonFormPosting
    simp [Json.read]

instance : ReadsTagged Comment where
  exists_members _ := ⟨_, rfl⟩
  decode_tagged _ c := by
    unfold instJsonFormComment
    simp [Json.read]

instance : ReadsAs Content id where
  encode_ne_null c := by cases c <;> exact tagged_ne_null _ _
  decode_encode c := by
    unfold instJsonFormContent
    cases c <;> simp

instance : ReadsTagged Transaction where
  exists_members _ := ⟨_, rfl⟩
  decode_tagged _ t := by
    unfold instJsonFormTransaction
    simp [Json.read]

instance : ReadsTagged LineComment where
  exists_members _ := ⟨_, rfl⟩
  decode_tagged _ c := by
    unfold instJsonFormLineComment
    simp [Json.read]

instance : ReadsTagged PriceDirective where
  exists_members _ := ⟨_, rfl⟩
  decode_tagged _ p := by
    unfold instJsonFormPriceDirective
    simp [Json.read]

instance : ReadsTagged AccountDirective where
  exists_members _ := ⟨_, rfl⟩
  decode_tagged _ a := by
    unfold instJsonFormAccountDirective
    simp [Json.read]

instance : ReadsTagged CommodityDirective where
  exists_members _ := ⟨_, rfl⟩
  decode_tagged _ c := by
    unfold instJsonFormCommodityDirective
    simp [Json.read]

instance : ReadsTagged DefaultDirective where
  exists_members _ := ⟨_, rfl⟩
  decode_tagged _ d := by
    unfold instJsonFormDefaultDirective
    simp [Json.read]

instance : ReadsAs Item id where
  encode_ne_null x := by cases x <;> exact tagged_ne_null _ _
  decode_encode x := by
    unfold instJsonFormItem
    cases x <;> simp [Json.tag?]

/-! ## Journals -/

/-- **A written journal is read back as it is**, so what is read means the same in every year. -/
theorem decode_encode_written {w : Journal} (h : ∀ x ∈ w.items, x.span.IsStorable) :
    decode (encode w) = some w ∧
      ∀ year, (decode (encode w)).map (Daybook.Journal.ofWritten year) =
        some (Daybook.Journal.ofWritten year w) := by
  have hitems : decode (encode w.items) = some (w.items.map id) :=
    decode_encode_of_forall fun x hx => decode_encode_located (h x hx)
  have hread : decode (encode w) = some w := by
    unfold instJsonFormJournal
    simp [Json.read, hitems]
  exact ⟨hread, fun year => by rw [hread, Option.map_some]⟩

/-- A comment with a marker of two bytes, and a transaction with an empty text, an account without
names and tags with and without a value. -/
theorem decode_encode_written_empty_names :
    ∃ w : Journal, w.items.length = 2 ∧ (∀ x ∈ w.items, x.span.IsStorable) ∧
      decode (encode w) = some w ∧
      ∀ year, (decode (encode w)).map (Daybook.Journal.ofWritten year) =
        some (Daybook.Journal.ofWritten year w) := by
  have hstorable : ∀ x ∈ [
      (⟨.lineComment ⟨'é', ""⟩, ⟨0, 2⟩⟩ : Located Item),
      ⟨.transaction ⟨"1/2", none, .pending, some "", some (.payeeMemo "" "ü"), none,
        [.comment ⟨[.text "", .tag ⟨"a", some ""⟩]⟩,
          .posting ⟨.unmarked, ⟨.balanced, []⟩, some ⟨.negative, "x", none, ""⟩,
            some ⟨true, true, ⟨.positive, "", some "", ""⟩⟩, none, some ⟨[.tag ⟨"", none⟩]⟩⟩]⟩,
        ⟨0xFFFFFFFFFFFFFFFF, 3⟩⟩], x.span.IsStorable := by
    simp [Span.IsStorable]
  exact ⟨⟨_⟩, rfl, hstorable, decode_encode_written hstorable⟩

end Written

end Daybook
