import Daybook.Token.Kind
import Mathlib.Computability.RegularExpressions
import Mathlib.Data.List.Chain

/-!
# The language of journals

What a journal may look like, said without any parser: one regular expression over the kinds of
tokens for each rule of the grammar, and one for a whole journal. They are the rules of [SPEC 4.2],
with the decisions of [SPEC 15].

* `journal`: items with any number of empty lines in front of them and between them.
* `firsts P`, `lasts P`: the kinds that a word of `P` can start with, and end with.
* `uses P`, `needs P`: the kinds that a word of `P` can be made of, and that it holds.

Results:
* `mem_firsts`, `mem_lasts`: a word starts and ends with one of these kinds.
* `mem_uses`, `mem_of_mem_needs`: a word is made of these kinds, and holds these.
* `isChain_item`: **the lines of an item are indented, all but the first.**
-/

namespace Daybook.Tree.Production

open RegularExpression
open scoped Computability

/-- The expression, or nothing. -/
def optional (P : RegularExpression Kind) : RegularExpression Kind := 1 + P

/-- `*` or `!` -/
def status : RegularExpression Kind := char .asterisk + char .exclamation

/-- An account of any kind. -/
def account : RegularExpression Kind :=
  char .realAccount + char .virtualAccount + char .balancedAccount

/-- `name:`, then perhaps a value, then perhaps a comma. -/
def tag : RegularExpression Kind :=
  char .tagName * char .tagColon * optional (char .tagValue) * optional (char .tagComma)

/-- Tags and free text after a semicolon. -/
def comment : RegularExpression Kind := char .semicolon * (tag + char Kind.inlineText).star

/-- A number with a commodity in front of it or behind it, or without one. A dash stands only in
front of a commodity. -/
def amount : RegularExpression Kind :=
  optional (char .dash) * char .commodity * char .number +
    char .number * optional (char .commodity)

/-- `@` or `@@` -/
def lotSigns : RegularExpression Kind := char .atSign * optional (char .atSign)

/-- `@` or `@@`, perhaps in parentheses, and an amount. -/
def lotPrice : RegularExpression Kind :=
  (char .openParen * lotSigns * char .closeParen + lotSigns) * amount

/-- `=` or `==`, perhaps `*`, and an amount. -/
def assertion : RegularExpression Kind :=
  char .equals * optional (char .equals) * optional (char .asterisk) * amount

/-- An account and what may stand around it. -/
def posting : RegularExpression Kind :=
  optional status * account * optional amount * optional lotPrice * optional assertion *
    optional comment

/-- A content line with this on it. -/
def line (body : RegularExpression Kind) : RegularExpression Kind :=
  char .indent * body * char .newline

/-- `=` and a date. -/
def secondDate : RegularExpression Kind := char .equals * char .date

/-- A text, and perhaps a bar with perhaps another text behind it. -/
def description : RegularExpression Kind :=
  char .text * optional (char .pipe * optional (char .text))

/-- The first line of a transaction without its break. -/
def transactionHead : RegularExpression Kind :=
  char .date * optional secondDate * optional status * optional (char .chequeNumber) *
    optional description * optional comment

/-- A transaction with all content lines under it. -/
def transaction : RegularExpression Kind :=
  transactionHead * char .newline * (line (posting + comment)).star

/-- A line that is a comment. -/
def lineComment : RegularExpression Kind :=
  char .commentMarker * optional (char .commentText) * char .newline

/-- The price of a commodity on a day. -/
def priceDirective : RegularExpression Kind :=
  char .priceKeyword * char .date * char .commodity * amount * optional comment * char .newline

/-- The declaration of a real account with the comments under it. -/
def accountDirective : RegularExpression Kind :=
  char .accountKeyword * char .realAccount * optional comment * char .newline *
    (line comment).star

/-- The declaration of a commodity with the lines under it. The first line may lack its break. -/
def commodityDirective : RegularExpression Kind :=
  char .commodityKeyword * (amount + char .commodity) * optional comment *
    optional (char .newline) * (line (char .formatKeyword * amount + comment)).star

/-- The default commodity with the comments under it; no format stands there. -/
def defaultDirective : RegularExpression Kind :=
  char .defaultKeyword * amount * optional comment * char .newline * (line comment).star

/-- An item of a journal. -/
def item : RegularExpression Kind :=
  transaction + lineComment + priceDirective + accountDirective + commodityDirective +
    defaultDirective

/-- A journal: items with empty lines in front of them and between them. -/
def journal : RegularExpression Kind :=
  (char Kind.newline).star * (item * (char Kind.newline).star).star

/-! ## How words start -/

/-- The kinds that a word can start with. -/
def firsts : RegularExpression Kind → List Kind
  | 0 => []
  | 1 => []
  | char kind => [kind]
  | P + Q => firsts P ++ firsts Q
  | P * Q => if P.matchEpsilon then firsts P ++ firsts Q else firsts P
  | .star P => firsts P

theorem nil_mem_iff (P : RegularExpression Kind) : [] ∈ P.matches' ↔ P.matchEpsilon :=
  (rmatch_iff_matches' P []).symm

/-- A word that is made of words of a language. -/
theorem flatten_induction {l : Language Kind} {P : List Kind → Prop} (hnil : P [])
    (happend : ∀ u v, u ∈ l → u ≠ [] → P v → P (u ++ v)) {word : List Kind} (h : word ∈ l∗) :
    P word := by
  obtain ⟨parts, rfl, hparts⟩ := Language.mem_kstar_iff_exists_nonempty.mp h
  clear h
  induction parts with
  | nil => exact hnil
  | cons u parts ih =>
    obtain ⟨⟨hu, hne⟩, hrest⟩ := List.forall_mem_cons.mp hparts
    exact happend u parts.flatten hu hne (ih hrest)

theorem append_mem_kstar {l : Language Kind} {u v : List Kind} (hu : u ∈ l) (hv : v ∈ l∗) :
    u ++ v ∈ l∗ := by
  have hle : l * l∗ ≤ l∗ := mul_kstar_le_kstar
  exact hle (Language.append_mem_mul hu hv)

/-- **A word starts with one of these kinds.** -/
theorem mem_firsts {P : RegularExpression Kind} {word : List Kind} (h : word ∈ P.matches') :
    ∀ kind ∈ word.head?, kind ∈ firsts P := by
  induction P generalizing word with
  | zero => exact absurd h (Language.notMem_zero _)
  | epsilon =>
    rw [(Language.mem_one _).mp h]
    simp
  | char k =>
    rw [show word = [k] from h]
    simp [firsts]
  | plus P Q ihP ihQ =>
    intro kind hkind
    rcases (Language.mem_add _ _ _).mp h with hP | hQ
    · exact List.mem_append_left _ (ihP hP kind hkind)
    · exact List.mem_append_right _ (ihQ hQ kind hkind)
  | comp P Q ihP ihQ =>
    obtain ⟨u, hu, v, hv, rfl⟩ := Language.mem_mul.mp h
    show ∀ kind ∈ (u ++ v).head?, kind ∈ if P.matchEpsilon then firsts P ++ firsts Q else firsts P
    cases u with
    | nil =>
      rw [if_pos ((nil_mem_iff P).mp hu)]
      exact fun kind hkind => List.mem_append_right _ (ihQ hv kind hkind)
    | cons k u =>
      intro kind hkind
      have hfirst := ihP hu kind hkind
      split
      · exact List.mem_append_left _ hfirst
      · exact hfirst
  | star P ih =>
    refine flatten_induction (P := fun word => ∀ kind ∈ word.head?, kind ∈ firsts P)
      (by simp) (fun u v hu hne _ kind hkind => ?_) h
    rw [List.head?_append_of_ne_nil _ hne] at hkind
    exact ih hu kind hkind

/-! ## How words end -/

/-- The kinds that a word can end with. -/
def lasts : RegularExpression Kind → List Kind
  | 0 => []
  | 1 => []
  | char kind => [kind]
  | P + Q => lasts P ++ lasts Q
  | P * Q => if Q.matchEpsilon then lasts P ++ lasts Q else lasts Q
  | .star P => lasts P

/-- **A word ends with one of these kinds.** -/
theorem mem_lasts {P : RegularExpression Kind} {word : List Kind} (h : word ∈ P.matches') :
    ∀ kind ∈ word.getLast?, kind ∈ lasts P := by
  induction P generalizing word with
  | zero => exact absurd h (Language.notMem_zero _)
  | epsilon =>
    rw [(Language.mem_one _).mp h]
    simp
  | char k =>
    rw [show word = [k] from h]
    simp [lasts]
  | plus P Q ihP ihQ =>
    intro kind hkind
    rcases (Language.mem_add _ _ _).mp h with hP | hQ
    · exact List.mem_append_left _ (ihP hP kind hkind)
    · exact List.mem_append_right _ (ihQ hQ kind hkind)
  | comp P Q ihP ihQ =>
    obtain ⟨u, hu, v, hv, rfl⟩ := Language.mem_mul.mp h
    show ∀ kind ∈ (u ++ v).getLast?, kind ∈ if Q.matchEpsilon then lasts P ++ lasts Q else lasts Q
    rcases List.eq_nil_or_concat' v with rfl | ⟨w, k, rfl⟩
    · rw [if_pos ((nil_mem_iff Q).mp hv), List.append_nil]
      exact fun kind hkind => List.mem_append_left _ (ihP hu kind hkind)
    · intro kind hkind
      rw [← List.append_assoc, List.getLast?_concat] at hkind
      have hlast := ihQ hv kind (by rw [List.getLast?_concat]; exact hkind)
      split
      · exact List.mem_append_right _ hlast
      · exact hlast
  | star P ih =>
    refine flatten_induction (P := fun word => ∀ kind ∈ word.getLast?, kind ∈ lasts P)
      (by simp) (fun u v hu _ hv kind hkind => ?_) h
    rw [List.getLast?_append, Option.mem_def, Option.or_eq_some_iff] at hkind
    rcases hkind with hright | ⟨-, hleft⟩
    · exact hv kind hright
    · exact ih hu kind hleft

/-! ## What words hold -/

/-- The kinds that words are made of. -/
def uses : RegularExpression Kind → List Kind
  | 0 => []
  | 1 => []
  | char kind => [kind]
  | P + Q => uses P ++ uses Q
  | P * Q => uses P ++ uses Q
  | .star P => uses P

theorem mem_uses {P : RegularExpression Kind} {word : List Kind} (h : word ∈ P.matches') :
    ∀ kind ∈ word, kind ∈ uses P := by
  induction P generalizing word with
  | zero => exact absurd h (Language.notMem_zero _)
  | epsilon =>
    rw [(Language.mem_one _).mp h]
    simp
  | char k =>
    rw [show word = [k] from h]
    simp [uses]
  | plus P Q ihP ihQ =>
    intro kind hkind
    rcases (Language.mem_add _ _ _).mp h with hP | hQ
    · exact List.mem_append_left _ (ihP hP kind hkind)
    · exact List.mem_append_right _ (ihQ hQ kind hkind)
  | comp P Q ihP ihQ =>
    obtain ⟨u, hu, v, hv, rfl⟩ := Language.mem_mul.mp h
    intro kind hkind
    rcases List.mem_append.mp hkind with hleft | hright
    · exact List.mem_append_left _ (ihP hu kind hleft)
    · exact List.mem_append_right _ (ihQ hv kind hright)
  | star P ih =>
    refine flatten_induction (P := fun word => ∀ kind ∈ word, kind ∈ uses P)
      (by simp) (fun u v hu _ hv kind hkind => ?_) h
    rcases List.mem_append.mp hkind with hleft | hright
    · exact ih hu kind hleft
    · exact hv kind hright

/-- The kinds that no word lacks. -/
def needs : RegularExpression Kind → List Kind
  | 0 => []
  | 1 => []
  | char kind => [kind]
  | P + Q => (needs P).filter (· ∈ needs Q)
  | P * Q => needs P ++ needs Q
  | .star _ => []

theorem mem_of_mem_needs {P : RegularExpression Kind} {word : List Kind} (h : word ∈ P.matches') :
    ∀ kind ∈ needs P, kind ∈ word := by
  induction P generalizing word with
  | zero => exact absurd h (Language.notMem_zero _)
  | epsilon => exact fun kind hkind => absurd hkind List.not_mem_nil
  | char k =>
    rw [show word = [k] from h]
    exact fun kind hkind => hkind
  | plus P Q ihP ihQ =>
    intro kind hkind
    obtain ⟨hP, hQ⟩ := List.mem_filter.mp hkind
    rcases (Language.mem_add _ _ _).mp h with hleft | hright
    · exact ihP hleft kind hP
    · exact ihQ hright kind (of_decide_eq_true hQ)
  | comp P Q ihP ihQ =>
    obtain ⟨u, hu, v, hv, rfl⟩ := Language.mem_mul.mp h
    intro kind hkind
    rcases List.mem_append.mp hkind with hleft | hright
    · exact List.mem_append_left _ (ihP hu kind hleft)
    · exact List.mem_append_right _ (ihQ hv kind hright)
  | star P _ => exact fun kind hkind => absurd hkind List.not_mem_nil

/-! ## Where an item breaks -/

/-- Behind a line break the next line is indented. -/
def Continues (k l : Kind) : Prop := k = .newline → l = .indent

variable {P body : RegularExpression Kind} {word : List Kind}

theorem isChain_of_not_mem (h : Kind.newline ∉ word) : word.IsChain Continues :=
  (List.pairwise_of_forall_mem_list fun k hk _ _ (hbreak : k = .newline) =>
    absurd (hbreak ▸ hk) h).isChain

/-- Something without a line break, and a line break behind it. -/
theorem isChain_line (hP : .newline ∉ uses P) (h : word ∈ (P * char Kind.newline).matches') :
    word.IsChain Continues := by
  obtain ⟨u, hu, v, hv, rfl⟩ := Language.mem_mul.mp h
  obtain rfl : v = [.newline] := hv
  have hnone : .newline ∉ u := fun hmem => hP (mem_uses hu _ hmem)
  refine (isChain_of_not_mem hnone).append (List.isChain_singleton _) fun k hk _ _ hbreak => ?_
  exact absurd (hbreak ▸ List.mem_of_mem_getLast? hk) hnone

/-- Content lines. -/
theorem isChain_lines (hbody : .newline ∉ uses body) (h : word ∈ (line body).star.matches') :
    word.IsChain Continues ∧ ∀ k ∈ word.head?, k = .indent := by
  refine flatten_induction (P := fun word => word.IsChain Continues ∧ ∀ k ∈ word.head?, k = .indent)
    ⟨.nil, by simp⟩ (fun u v hu hne hv => ?_) h
  have hhead : .newline ∉ uses (char .indent * body) := by simpa [uses] using hbody
  refine ⟨(isChain_line hhead hu).append hv.1 fun k _ l hl _ => hv.2 l hl, fun k hk => ?_⟩
  rw [List.head?_append_of_ne_nil _ hne] at hk
  have hfirst := mem_firsts hu k hk
  simpa [line, firsts, matchEpsilon] using hfirst

/-- A first line and content lines under it. -/
theorem isChain_headed (hP : .newline ∉ uses P) (hbody : .newline ∉ uses body)
    (h : word ∈ (P * char Kind.newline * (line body).star).matches') : word.IsChain Continues := by
  obtain ⟨u, hu, v, hv, rfl⟩ := Language.mem_mul.mp h
  obtain ⟨hlines, hfirst⟩ := isChain_lines hbody hv
  exact (isChain_line hP hu).append hlines fun k _ l hl _ => hfirst l hl

theorem isChain_commodityDirective (h : word ∈ commodityDirective.matches') :
    word.IsChain Continues := by
  obtain ⟨u, hu, v, hv, rfl⟩ := Language.mem_mul.mp h
  obtain ⟨w, hw, z, hz, rfl⟩ := Language.mem_mul.mp hu
  obtain ⟨hlines, hfirst⟩ := isChain_lines (by decide) hv
  rcases (Language.mem_add _ _ _).mp hz with hnone | hbreak
  · obtain rfl : z = [] := hnone
    rw [List.append_nil]
    exact (isChain_of_not_mem fun hmem => absurd (mem_uses hw _ hmem) (by decide)).append hlines
      fun k _ l hl _ => hfirst l hl
  · exact (isChain_line (by decide) (Language.append_mem_mul hw hbreak)).append hlines
      fun k _ l hl _ => hfirst l hl

/-- A declaration of a commodity that does not end with its line has no line break at all. -/
theorem newline_not_mem_of_commodityDirective (h : word ∈ commodityDirective.matches')
    (hlast : word.getLast? ≠ some .newline) : .newline ∉ word := by
  obtain ⟨u, hu, v, hv, rfl⟩ := Language.mem_mul.mp h
  obtain ⟨w, hw, z, hz, rfl⟩ := Language.mem_mul.mp hu
  -- content lines end with a line break
  obtain rfl : v = [] := by
    rcases List.eq_nil_or_concat' v with hnil | ⟨init, k, hk⟩
    · exact hnil
    · have hbreak := mem_lasts hv k (by rw [hk, List.getLast?_concat]; rfl)
      rw [hk, ← List.append_assoc, List.getLast?_concat] at hlast
      simp [lasts, line, matchEpsilon] at hbreak
      exact absurd (congrArg some hbreak) hlast
  rcases (Language.mem_add _ _ _).mp hz with hnone | hbreak
  · obtain rfl : z = [] := hnone
    rw [List.append_nil, List.append_nil]
    exact fun hmem => absurd (mem_uses hw _ hmem) (by decide)
  · obtain rfl : z = [.newline] := hbreak
    exact absurd (by simp) hlast

/-- **The lines of an item are indented, all but the first.** -/
theorem isChain_item (h : word ∈ item.matches') : word.IsChain Continues := by
  simp only [item, matches'_add, Language.mem_add] at h
  rcases h with ((((h | h) | h) | h) | h) | h
  · exact isChain_headed (by decide) (by decide) h
  · exact isChain_line (by decide) h
  · exact isChain_line (by decide) h
  · exact isChain_headed (by decide) (by decide) h
  · exact isChain_commodityDirective h
  · exact isChain_headed (by decide) (by decide) h

end Daybook.Tree.Production
