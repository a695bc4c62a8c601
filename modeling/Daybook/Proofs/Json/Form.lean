import Daybook.Journal.TermsJson

/-!
# Reading back what is stored

A value is stored as JSON and read back from it. What is read need not be the value itself: a
decimal loses the sign of a zero. So every type comes with a function, and a value is read back as
what the function makes of it; it is the identity for most types. The stored form of a list is read
element by element, and that of a record member by member. About the stored forms of [SPEC 12.4].
Out of scope: the text of a JSON value.

* `JsonForm.ReadsAs α f`: every value `a` of the type is read back as `f a`, and none is stored as
  `null`.

Results:
* `decode_encode_option`: a value that may be missing is read back, since only a missing one is
  stored as `null`.
* `decode_encode_of_forall`: a list is read back if its elements are.
* an instance of `ReadsAs` for each term of a journal.
-/

namespace Daybook

/-- Every value of the type is read back as what `f` makes of it, and none is stored as `null`. -/
class JsonForm.ReadsAs (α : Type) [JsonForm α] (f : outParam (α → α)) : Prop where
  /-- Only a missing value is stored as `null`. -/
  encode_ne_null (a : α) : encode a ≠ .null
  /-- What is read back. -/
  decode_encode (a : α) : decode (encode a) = some (f a)

open JsonForm

attribute [simp] ReadsAs.decode_encode

/-! ## Members of an object -/

namespace Json

theorem object_ne_null (members : List (String × Json)) : object members ≠ null := nofun

theorem string_ne_null (value : String) : string value ≠ null := nofun

variable {name other : String} {j : Json} {members : List (String × Json)}

@[simp]
theorem get_cons_self : (object ((name, j) :: members)).get name = j := by simp [get, member?]

@[simp]
theorem get_cons_of_ne (h : name ≠ other) :
    (object ((other, j) :: members)).get name = (object members).get name := by
  simp [get, member?, List.lookup_cons, beq_false_of_ne h]

@[simp]
theorem tagged_object (tag : String) :
    tagged tag (object members) = object (("type", string tag) :: members) := rfl

end Json

/-! ## Values without members, and values that may be missing -/

instance : ReadsAs String id := ⟨nofun, fun _ => rfl⟩

instance : ReadsAs Bool id := ⟨nofun, fun _ => rfl⟩

instance : ReadsAs Char id where
  encode_ne_null := nofun
  decode_encode c := by
    unfold instJsonFormChar
    simp

/-- A machine word is read back. -/
theorem decode_encode_nat {n : Nat} (h : n < 0x10000000000000000) :
    decode (encode n) = some n := by
  unfold instJsonFormNat
  have hword : (n : Int) < 0x10000000000000000 := by omega
  simp [hword]

section Containers

variable {α : Type} [JsonForm α] {f : α → α}

/-- Only `null` stands for a missing value. -/
theorem decode_option_of_ne_null {j : Json} (h : j ≠ .null) :
    decode j = (decode j).map (some : α → Option α) := by
  cases j <;> first | rfl | exact absurd rfl h

/-- **A value that may be missing is read back**: only a missing one is stored as `null`. -/
@[simp]
theorem decode_encode_option [ReadsAs α f] (a : Option α) :
    decode (encode a) = some (a.map f) := by
  cases a with
  | none => rfl
  | some a =>
    show decode (encode a) = _
    rw [decode_option_of_ne_null (ReadsAs.encode_ne_null a), ReadsAs.decode_encode]
    rfl

/-- **A list is read back if its elements are.** -/
theorem decode_encode_of_forall {as : List α} (h : ∀ a ∈ as, decode (encode a) = some (f a)) :
    decode (encode as) = some (as.map f) := by
  show (as.map encode).mapM decode = _
  induction as with
  | nil => rfl
  | cons a as ih =>
    obtain ⟨ha, has⟩ := List.forall_mem_cons.mp h
    rw [List.map_cons, List.mapM_cons, ha, ih has]
    rfl

instance [ReadsAs α f] : ReadsAs (List α) (List.map f) where
  encode_ne_null := nofun
  decode_encode _ := decode_encode_of_forall fun a _ => ReadsAs.decode_encode a

end Containers

/-! ## Terms of a journal -/

instance : ReadsAs Tag id where
  encode_ne_null _ := Json.object_ne_null _
  decode_encode t := by
    unfold instJsonFormTag
    simp [Json.read]

instance : ReadsAs Status id where
  encode_ne_null s := by cases s <;> nofun
  decode_encode s := by cases s <;> rfl

instance : ReadsAs Description id where
  encode_ne_null d := by cases d <;> exact Json.object_ne_null _
  decode_encode d := by
    unfold instJsonFormDescription
    cases d <;> simp [Json.read]

/-- The lot price with another amount. -/
def LotPrice.mapAmount {α : Type} (f : α → α) (l : LotPrice α) : LotPrice α :=
  { l with amount := f l.amount }

/-- The assertion with another amount. -/
def Assertion.mapAmount {α : Type} (f : α → α) (a : Assertion α) : Assertion α :=
  { a with amount := f a.amount }

@[simp]
theorem LotPrice.mapAmount_id {α : Type} : LotPrice.mapAmount (id : α → α) = id := rfl

@[simp]
theorem Assertion.mapAmount_id {α : Type} : Assertion.mapAmount (id : α → α) = id := rfl

section Amounts

variable {α : Type} [JsonForm α] {f : α → α} [ReadsAs α f]

instance : ReadsAs (LotPrice α) (LotPrice.mapAmount f) where
  encode_ne_null _ := Json.object_ne_null _
  decode_encode l := by
    unfold instJsonFormLotPrice
    cases h : l.isTotal <;> simp [Json.read, Json.name?, LotPrice.mapAmount, h]

instance : ReadsAs (Assertion α) (Assertion.mapAmount f) where
  encode_ne_null _ := Json.object_ne_null _
  decode_encode a := by
    unfold instJsonFormAssertion
    cases h : a.isStrong <;> simp [Json.read, Json.name?, Assertion.mapAmount, h]

end Amounts

end Daybook
