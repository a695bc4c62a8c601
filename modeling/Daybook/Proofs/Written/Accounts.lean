import Daybook.Proofs.Token.Accounts
import Daybook.Written.OfTree

/-!
# Accounts as they are written

The tokenizer notes the path of an account with its token. It is the path that the text of the token
spells, so the account that a tree says can be read off the source. About `lower_account` and
`segments`.

* `Token.account`: the account that a token spells by its kind and its text.

Results:
* `accountOfTree_of_mem_tokenize`: **the account that a tree says is the one that is written.**
* `text_account`: an account is shown as it is written.
-/

namespace Daybook

open Lexeme

/-- The name of an account without its brackets. -/
def Token.accountName (t : Token) : List Char :=
  if t.kind = .realAccount then t.image.toList else t.image.toList.tail.dropLast

/-- The account that a token spells by its kind and its text. -/
def Token.account (t : Token) : Account where
  kind :=
    match t.kind with
    | .virtualAccount => .virtual
    | .balancedAccount => .balanced
    | _ => .real
  path := pathNames t.accountName

variable {source : String} {t : Token}

theorem accountName_eq_inner (hkind : t.kind.isAccount) :
    t.accountName = t.kind.inner t.image.toList := by
  unfold Token.accountName
  cases h : t.kind <;> first | rfl | simp [h, Kind.isAccount] at hkind

/-- **The account that a tree says is the one that is written.** -/
theorem accountOfTree_of_mem_tokenize (h : t ∈ (tokenize source).tokens)
    (hkind : t.kind.isAccount) : Written.accountOfTree t = t.account := by
  obtain ⟨s, rest, -, hne, hnotes⟩ := Scanner.exists_notes_of_mem_tokenize h
  obtain ⟨ahead, found, -, hfound, hpayload, -⟩ := hnotes.foundAs hne hkind
  have hsegments : t.segments = pathNames t.accountName := by
    rw [Token.segments, hpayload, hfound.payload, accountName_eq_inner hkind]
  unfold Written.accountOfTree Token.account
  rw [hsegments]
  cases t.kind <;> rfl

/-- An account is shown as it is written. -/
theorem text_account (h : t ∈ (tokenize source).tokens) (hkind : t.kind.isAccount) :
    t.account.text = t.image := by
  obtain ⟨s, rest, -, hne, hnotes⟩ := Scanner.exists_notes_of_mem_tokenize h
  obtain ⟨ahead, found, -, hfound, -⟩ := hnotes.foundAs hne hkind
  have hpath : pathText (pathNames t.accountName) = String.ofList (t.kind.inner t.image.toList) := by
    rw [← accountName_eq_inner hkind]
    exact (isPath_pathNames _).join
  have himage : String.ofList t.image.toList = t.image := String.ofList_toList
  unfold Token.account Account.text
  simp only [hpath]
  generalize t.image.toList = image at hfound himage ⊢
  generalize t.kind = kind at hfound ⊢
  rw [← himage]
  cases hfound with
  | virtual hinner | balanced hinner =>
    simp only [Kind.inner, tail_dropLast_enclosed]
    rw [← String.toList_inj]
    simp
  | real => rfl

end Daybook
