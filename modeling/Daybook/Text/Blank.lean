/-!
# Blank characters

Model of the two classes of space that the scanners tell apart (`leading_whitespace`, `trimmed_run`,
[SPEC 11.3]). *Layout* is a space or a tab: it stands between the tokens of a line. *Blank* is the
Unicode property White_Space: it is cut from the end of free text. A line ends at a line feed or at
a carriage return (`endsLine`), also where the carriage return breaks no line.

Results:
* `isBlank_of_isLayout`: layout is blank.
* `trimEnd_append`: cutting the end of a text removes blank characters and nothing else.
* `trimEnd_getLast`: a cut text does not end in a blank character.
-/

namespace Daybook.Text

/-- Space or tab: what may stand between the tokens of a line. -/
def isLayout (c : Char) : Bool := c = ' ' || c = '\t'

/-- The Unicode property White_Space. -/
def isBlank (c : Char) : Bool :=
  (0x09 ≤ c.toNat && c.toNat ≤ 0x0D) || c.toNat = 0x20 || c.toNat = 0x85 || c.toNat = 0xA0 ||
  c.toNat = 0x1680 || (0x2000 ≤ c.toNat && c.toNat ≤ 0x200A) || c.toNat = 0x2028 ||
  c.toNat = 0x2029 || c.toNat = 0x202F || c.toNat = 0x205F || c.toNat = 0x3000

/-- Line feed or carriage return: no token but a line break holds one of them. -/
def endsLine (c : Char) : Bool := c = '\n' || c = '\r'

theorem isBlank_of_isLayout {c : Char} (h : isLayout c) : isBlank c := by
  simp only [isLayout, Bool.or_eq_true, decide_eq_true_eq] at h
  rcases h with rfl | rfl <;> decide

/-- The text without the blank characters at its end. -/
def trimEnd : List Char → List Char
  | [] => []
  | c :: cs =>
    match trimEnd cs with
    | [] => if isBlank c then [] else [c]
    | d :: ds => c :: d :: ds

/-- **Only blank characters are cut.** -/
theorem trimEnd_append : ∀ cs : List Char,
    ∃ gap, trimEnd cs ++ gap = cs ∧ ∀ c ∈ gap, isBlank c
  | [] => ⟨[], rfl, by simp⟩
  | c :: cs => by
    obtain ⟨gap, hcs, hgap⟩ := trimEnd_append cs
    unfold trimEnd
    split
    · next h =>
      rw [h, List.nil_append] at hcs
      subst hcs
      split
      · next hc => exact ⟨c :: gap, rfl, List.forall_mem_cons.mpr ⟨hc, hgap⟩⟩
      · exact ⟨gap, rfl, hgap⟩
    · next d ds h =>
      rw [h] at hcs
      exact ⟨gap, by rw [← hcs]; rfl, hgap⟩

theorem trimEnd_isPrefix (cs : List Char) : trimEnd cs <+: cs := by
  obtain ⟨gap, h, _⟩ := trimEnd_append cs
  exact ⟨gap, h⟩

/-- **A cut text does not end in a blank character.** -/
theorem trimEnd_getLast : ∀ (cs : List Char) (c : Char),
    (trimEnd cs).getLast? = some c → isBlank c = false
  | [], c, h => by simp [trimEnd] at h
  | b :: cs, c, h => by
    unfold trimEnd at h
    split at h
    · split at h
      · simp at h
      · next hb =>
        simp only [List.getLast?_singleton, Option.some.injEq] at h
        subst h
        simpa using hb
    · next d ds hcs =>
      rw [List.getLast?_cons_cons, ← hcs] at h
      exact trimEnd_getLast cs c h

end Daybook.Text
