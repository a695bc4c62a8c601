import Daybook.Proofs.Lexeme.Whole
import Mathlib.Data.Nat.Find

/-!
# The longest number at the front

Many texts of a language can stand at the front, one a part of the other. The number that is taken
is the longest of them, and there is one exception: if the longest number has no point, and a comma
stands in it or right behind it, nothing is taken, also not one of the shorter numbers. The
exception is no part of the pattern of a number.

* `Longest L text cs`: at the front of `cs`, `text` is the longest text of `L`.
* `Stranded text cs`: the text has no point, and a comma stands in it or right behind it.

Results:
* `exists_longest`: if a text of a language stands at the front, one of them is the longest.
* `Longest.fractionLength_eq_zero`: no fraction is behind the digits and commas of a longest number
  without a point.
* `numberLength_of_longest`: **the longest number is taken**, unless it is stranded.
-/

namespace Daybook.Lexeme

open Text

variable {p : Char → Bool} {c : Char} {cs n text ahead : List Char} {L M : Language Char}

/-! ## The longest text -/

/-- The longest text of a language at the front. -/
structure Longest (L : Language Char) (text cs : List Char) : Prop where
  mem : text ∈ L
  isPrefix : text <+: cs
  length_le : ∀ other ∈ L, other <+: cs → other.length ≤ text.length

/-- It is the longest of each part of the language that it is in. -/
theorem Longest.anti (h : Longest M text cs) (hsub : ∀ other ∈ L, other ∈ M) (hmem : text ∈ L) :
    Longest L text cs :=
  ⟨hmem, h.isPrefix, fun other hother => h.length_le other (hsub other hother)⟩

/-- If a text of a language stands at the front, one of them is the longest. -/
theorem exists_longest (hmem : text ∈ L) (hfront : text <+: cs) : ∃ text, Longest L text cs := by
  classical
  let P : Nat → Prop := fun k => cs.take k ∈ L
  have htake : ∀ other ∈ L, other <+: cs → P other.length := fun other hother hprefix => by
    show cs.take other.length ∈ L
    rwa [← List.prefix_iff_eq_take.mp hprefix]
  have hlongest : P (Nat.findGreatest P cs.length) :=
    Nat.findGreatest_spec hfront.length_le (htake text hmem hfront)
  refine ⟨cs.take (Nat.findGreatest P cs.length), hlongest, List.take_prefix _ _, ?_⟩
  intro other hother hprefix
  rw [List.length_take_of_le (Nat.findGreatest_le _)]
  exact Nat.le_findGreatest hprefix.length_le (htake other hother hprefix)

/-- Characters of a class at the front belong to the run of the class. -/
theorem prefix_takeWhile (hfront : text <+: cs) (h : ∀ c ∈ text, p c) :
    text <+: cs.takeWhile p := by
  obtain ⟨ahead, rfl⟩ := hfront
  rw [List.takeWhile_append_of_pos h]
  exact List.prefix_append _ _

/-! ## Numbers -/

/-- A number goes on with each digit behind it. -/
theorem snoc_mem_numberText (hn : n ∈ numberText) (hc : c.isDigit) : n ++ [c] ∈ numberText := by
  obtain ⟨front, hfront, digits, hdigits, rfl⟩ := hn
  show front ++ digits ++ [c] ∈ numberText
  rw [List.append_assoc]
  refine Language.append_mem_mul hfront ⟨List.append_ne_nil_of_right_ne_nil _ (by simp), ?_⟩
  exact List.forall_mem_append.mpr ⟨hdigits.2, by simpa using hc⟩

/-- No digit is behind the longest number. -/
theorem Longest.isDigit_eq_false (h : Longest numberText n (n ++ ahead)) :
    ∀ d ∈ ahead.head?, d.isDigit = false := by
  intro d hd
  obtain ⟨more, rfl⟩ := List.head?_eq_some_iff.mp hd
  by_contra hdigit
  have hmore : n ++ [d] <+: n ++ d :: more := ⟨more, by simp⟩
  have hlen := h.length_le _ (snoc_mem_numberText h.mem (by simpa using hdigit)) hmore
  exact absurd hlen (by simp)

/-- A number without a point is part of the digits and commas at the front, and digits are in front
of these. -/
theorem prefix_groupedRun (hn : n ∈ numberText) (hfront : n <+: cs) (hpoint : '.' ∉ n) :
    n <+: groupedRun cs ∧ digitRun cs ≠ [] := by
  refine ⟨prefix_takeWhile hfront (isGrouped_of_mem hn hpoint), ?_⟩
  obtain ⟨c, more, rfl, hfirst⟩ := exists_cons_of_mem_numberText hn
  obtain ⟨ahead, rfl⟩ := hfront
  have hdigit : c.isDigit := hfirst.resolve_right fun heq => hpoint (heq ▸ List.mem_cons_self)
  simp [digitRun, hdigit]

/-- **No fraction** is behind the digits and commas, if the longest number there has no point. -/
theorem Longest.fractionLength_eq_zero (h : Longest numberText n cs) (hpoint : '.' ∉ n) :
    fractionLength (cs.drop (groupedRun cs).length) = 0 := by
  by_contra hne
  obtain ⟨hgrouped, hdigits⟩ := prefix_groupedRun h.mem h.isPrefix hpoint
  have hpos := Nat.pos_of_ne_zero hne
  obtain ⟨other, ahead, hsplit, hother, -, hlen⟩ := takes_fraction hdigits hpos
  -- with the fraction it would be longer
  have hle := h.length_le other hother ⟨ahead, hsplit.symm⟩
  have hrun := hgrouped.length_le
  omega

/-- The text has no point, and a comma stands in it or right behind it. -/
def Stranded (text cs : List Char) : Prop := '.' ∉ text ∧ ',' ∈ cs.take (text.length + 1)

instance (text cs : List Char) : Decidable (Stranded text cs) := inferInstanceAs (Decidable (_ ∧ _))

theorem stranded_append : Stranded n (n ++ ahead) ↔ '.' ∉ n ∧ (',' ∈ n ∨ ',' ∈ ahead.head?) := by
  rw [Stranded, List.take_length_add_append, List.mem_append]
  cases ahead with
  | nil => simp
  | cons d ahead => simp [eq_comm]

/-- The comma is one of the digits and commas at the front. -/
theorem Stranded.comma_mem (h : Stranded n cs) (hn : n ∈ numberText) (hfront : n <+: cs) :
    ',' ∈ groupedRun cs := by
  obtain ⟨ahead, rfl⟩ := hfront
  obtain ⟨hpoint, hcomma⟩ := stranded_append.mp h
  rw [groupedRun, List.takeWhile_append_of_pos (isGrouped_of_mem hn hpoint)]
  rcases hcomma with hinside | hbehind
  · exact List.mem_append_left _ hinside
  · obtain ⟨more, rfl⟩ := List.head?_eq_some_iff.mp hbehind
    simp

/-- **The longest number is taken**, unless it is stranded: then nothing is. -/
theorem numberLength_of_longest (h : Longest numberText n cs) :
    (Stranded n cs → numberLength cs = 0) ∧ (¬ Stranded n cs → numberLength cs = n.length) := by
  constructor
  · intro hstranded
    exact numberLength_eq_zero_of_comma (hstranded.comma_mem h.mem h.isPrefix)
      (h.fractionLength_eq_zero hstranded.1)
  · intro hstranded
    obtain ⟨ahead, rfl⟩ := h.isPrefix
    have hstop := h.isDigit_eq_false
    by_cases hpoint : '.' ∈ n
    · obtain ⟨whole, digits, rfl, hwhole, hfirst, hdigits⟩ := exists_of_point h.mem hpoint
      exact numberLength_fraction hfirst hwhole hdigits hstop
    · rw [stranded_append, not_and, not_or] at hstranded
      obtain ⟨hnone, hcomma⟩ := hstranded hpoint
      have hbehind : ∀ d ∈ ahead.head?, d.isDigit = false ∧ d ≠ ',' := fun d hd =>
        ⟨hstop d hd, fun heq => hcomma (heq ▸ hd)⟩
      have hdigits := mem_digits_of_mem h.mem hpoint hnone
      have hrun : groupedRun (n ++ ahead) = n :=
        takeWhile_stops (isGrouped_of_mem h.mem hpoint) fun d hd => by simp [hbehind d hd]
      have hfraction := h.fractionLength_eq_zero hpoint
      rw [hrun, List.drop_left] at hfraction
      exact numberLength_digits hdigits hbehind hfraction

example : Stranded "1".toList "1, 2".toList := by decide
example : ¬ Stranded "1,.5".toList "1,.5,".toList := by decide

end Daybook.Lexeme
