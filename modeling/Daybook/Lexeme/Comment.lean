import Daybook.Lexeme.Line

/-!
# Inside comments

Model of `tag_name_len`, `at_tag_boundary` and the loop of `scan_inline_text` ([SPEC 4.1]). An
inline comment is free text with tags in it. A tag is a name with a colon right after it, at the
start of a word. Free text ends where a tag begins.

Results:
* `textRun_isPrefix`: free text is taken from the front.
* `tagNameLength?_pos`: the name of a tag is not empty.
-/

namespace Daybook.Lexeme

open Text

/-- The characters that a tag name may hold. -/
def isTagNameChar (c : Char) : Bool := !(isBlank c || c = ':' || c = ',')

/-- The length of the tag name at the front, if a colon follows it. -/
def tagNameLength? (cs : List Char) : Option Nat :=
  let name := cs.takeWhile isTagNameChar
  match cs.drop name.length with
  | ':' :: _ => if name.isEmpty then none else some name.length
  | _ => none

/-- Whether a tag may begin after this character: at the start of a word. -/
def opensWord (before : Option Char) : Bool :=
  match before with
  | none => true
  | some c => isBlank c || c = ',' || c = ':' || c = ';'

/-- The characters in front of the next tag or the end of the line, where a tag may begin only after
the first of them or later. -/
def untilTag (before : Char) : List Char → List Char
  | [] => []
  | c :: cs =>
    if endsLine c || (opensWord (some before) && (tagNameLength? (c :: cs)).isSome) then []
    else c :: untilTag c cs

/-- The free text at the front, without the blank characters at its end. -/
def textRun : List Char → List Char
  | [] => []
  | c :: cs => if endsLine c then [] else trimEnd (c :: untilTag c cs)

theorem untilTag_isPrefix (before : Char) : ∀ cs : List Char, untilTag before cs <+: cs
  | [] => List.nil_prefix
  | c :: cs => by
    unfold untilTag
    split
    · exact List.nil_prefix
    · exact (List.prefix_cons_inj c).mpr (untilTag_isPrefix c cs)

theorem textRun_isPrefix : ∀ cs : List Char, textRun cs <+: cs
  | [] => List.nil_prefix
  | c :: cs => by
    rw [textRun]
    split
    · exact List.nil_prefix
    · exact (trimEnd_isPrefix _).trans ((List.prefix_cons_inj c).mpr (untilTag_isPrefix c cs))

theorem tagNameLength?_pos {cs : List Char} {n : Nat} (h : tagNameLength? cs = some n) : 0 < n := by
  unfold tagNameLength? at h
  simp only at h
  split at h
  · split at h
    · simp at h
    · next hne =>
      simp only [Option.some.injEq] at h
      subst h
      exact List.length_pos_iff.mpr fun hnil => hne (by simp [hnil])
  · simp at h

example : tagNameLength? "note: x".toList = some 4 := by decide
example : textRun "paid by x:1".toList = "paid by".toList := by decide

end Daybook.Lexeme
