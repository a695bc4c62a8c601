/-!
# JSON values

Journals are stored as JSON ([SPEC 12.4]). A value is a tree; how it is laid out as text is left to
whoever writes it. `JsonForm` says how a type is stored and read back.

A member that is missing reads as `null`, and only an optional value can be read from `null`: so a
missing optional value is absent, and any other missing member is refused. Members that are not
asked for are passed over. A name that stands for a value without members may be written as a text
or as an object whose one member holds nothing.

Out of scope: the text of a JSON value, and members that occur twice.
-/

namespace Daybook

/-- A JSON value. -/
inductive Json
  /-- `null` -/
  | null
  /-- A truth value. -/
  | bool (value : Bool)
  /-- The number `mantissa · 10 ^ -exponent`. -/
  | number (mantissa : Int) (exponent : Nat)
  /-- A text. -/
  | string (value : String)
  /-- A list. -/
  | array (elements : List Json)
  /-- Named members, in the order in which they are written. -/
  | object (members : List (String × Json))
deriving Repr, Inhabited

namespace Json

/-- The member of this name. -/
def member? : Json → String → Option Json
  | object members, name => members.lookup name
  | _, _ => none

/-- The member of this name, or `null`. -/
def get (j : Json) (name : String) : Json := (j.member? name).getD null

/-- An object with a tag in front of its members. -/
def tagged (tag : String) : Json → Json
  | object members => object (("type", string tag) :: members)
  | other => other

end Json

/-- How values of a type are stored as JSON and read back. -/
class JsonForm (α : Type) where
  /-- The stored form. -/
  encode : α → Json
  /-- The value that a stored form holds. -/
  decode : Json → Option α

export JsonForm (encode decode)

/-- The value that a member holds. -/
def Json.read {α : Type} [JsonForm α] (j : Json) (name : String) : Option α := decode (j.get name)

/-- The tag of an object. -/
def Json.tag? (j : Json) : Option String :=
  match j.get "type" with
  | .string tag => some tag
  | _ => none

/-- One of several names: the name as a text, or as the only member of an object, if that member
holds nothing. -/
def Json.name? : Json → Option String
  | .string name => some name
  | .object [(name, .null)] => some name
  | .object [(name, .object [])] => some name
  | _ => none

instance : JsonForm Bool where
  encode := .bool
  decode
    | .bool value => some value
    | _ => none

instance : JsonForm String where
  encode := .string
  decode
    | .string value => some value
    | _ => none

/-- A character is stored as a text of one character. -/
instance : JsonForm Char where
  encode c := .string (String.singleton c)
  decode
    | .string value =>
      match value.toList with
      | [c] => some c
      | _ => none
    | _ => none

/-- A natural number of at most 64 bits, without places. -/
instance : JsonForm Nat where
  encode n := .number n 0
  decode
    | .number mantissa 0 =>
      if 0 ≤ mantissa && mantissa < 0x10000000000000000 then some mantissa.toNat else none
    | _ => none

instance {α : Type} [JsonForm α] : JsonForm (Option α) where
  encode
    | none => .null
    | some a => encode a
  decode
    | .null => some none
    | j => (decode j).map some

instance {α : Type} [JsonForm α] : JsonForm (List α) where
  encode as := .array (as.map encode)
  decode
    | .array elements => elements.mapM decode
    | _ => none

end Daybook
