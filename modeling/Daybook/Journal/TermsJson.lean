import Daybook.Journal.Terms
import Daybook.Json
import Daybook.Span

/-!
# The terms of a journal as JSON

The stored forms that journals share before and after their numbers and dates are understood
([SPEC 12.4]).
-/

namespace Daybook

instance : JsonForm Tag where
  encode t := .object [("name", encode t.name), ("value", encode t.value)]
  decode j := return ⟨← j.read "name", ← j.read "value"⟩

instance : JsonForm Status where
  encode
    | .unmarked => .string "Unmarked"
    | .pending => .string "Pending"
    | .cleared => .string "Cleared"
  decode j :=
    match j.name? with
    | some "Unmarked" => some .unmarked
    | some "Pending" => some .pending
    | some "Cleared" => some .cleared
    | _ => none

instance : JsonForm Description where
  encode
    | .plain text => .object [("Text", encode text)]
    | .payeeMemo payee memo =>
      .object [("PayeeMemo", .object [("payee", encode payee), ("memo", encode memo)])]
  decode
    | .object [("Text", j)] => (decode j).map .plain
    | .object [("PayeeMemo", j)] => return .payeeMemo (← j.read "payee") (← j.read "memo")
    | _ => none

instance {α : Type} [JsonForm α] : JsonForm (LotPrice α) where
  encode l := .object
    [("kind", .string (if l.isTotal then "Total" else "Unit")), ("is_virtual", encode l.isVirtual),
     ("amount", encode l.amount)]
  decode j := do
    let isTotal ← match (j.get "kind").name? with
      | some "Total" => some true
      | some "Unit" => some false
      | _ => none
    return ⟨isTotal, ← j.read "is_virtual", ← j.read "amount"⟩

instance {α : Type} [JsonForm α] : JsonForm (Assertion α) where
  encode a := .object
    [("kind", .string (if a.isStrong then "Strong" else "Normal")),
     ("subaccounts", encode a.withSubaccounts), ("amount", encode a.amount)]
  decode j := do
    let isStrong ← match (j.get "kind").name? with
      | some "Strong" => some true
      | some "Normal" => some false
      | _ => none
    return ⟨isStrong, ← j.read "subaccounts", ← j.read "amount"⟩

instance : JsonForm Span where
  encode s := .object [("start", encode s.start), ("end", encode s.stop)]
  decode j := return ⟨← j.read "start", ← j.read "end"⟩

instance {α : Type} [JsonForm α] : JsonForm (Located α) where
  encode x := .object [("value", encode x.value), ("span", encode x.span)]
  decode j := return ⟨← j.read "value", ← j.read "span"⟩

end Daybook
