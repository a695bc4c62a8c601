import Daybook.Proofs.Lexeme.Language
import Mathlib.Data.List.DropRight

/-!
# Where an account name ends

An account name ends where the first of a few things follows. Said without the scanner: of the texts
at the front that hold no two spaces in a row and end in front of such a thing, the longest is the
name, and the space at its end is no part of it. The scanner is `real_account_len` with
`delimited_account_len`; the specification has no space before a tab in a name ([SPEC 11.4]).

* `EndsName ahead`: an account name may end in front of this text.
* `Encloses opening closing inner cs`: a name in brackets stands at the front.
* `NameIn name ahead`, `LongestName name ahead`: a name without brackets stands in front of `ahead`.
* `StandsWhole name ahead`: in front of `ahead` a name goes on to its end and ends there.

Results:
* `nameEnds_iff`, `enclosedName?_eq_some_iff`, `nameLength_append_iff`: what the scanner looks for.
* `exists_longestName`: **the scanner takes the longest name**, without the space at its end unless
  a tab is behind it.
* `Encloses.closes`: a name that is not in brackets may be so only by a bracket behind it.
-/

namespace Daybook.Lexeme

open Text

/-! ## Ends of names -/

/-- What an account name ends in front of. -/
inductive EndsName : List Char → Prop
  /-- The end of the source. -/
  | source : EndsName []
  /-- The end of the line. -/
  | line {c : Char} (hc : endsLine c) (cs : List Char) : EndsName (c :: cs)
  /-- A tab. -/
  | tab (cs : List Char) : EndsName ('\t' :: cs)
  /-- A comment. -/
  | comment (cs : List Char) : EndsName (';' :: cs)
  /-- Two spaces. -/
  | spaces (cs : List Char) : EndsName (' ' :: ' ' :: cs)
  /-- A space and a comment. -/
  | spaceComment (cs : List Char) : EndsName (' ' :: ';' :: cs)
  /-- Spaces up to the end of the line. -/
  | spacesLine {gap cs : List Char} (hgap : ∀ c ∈ gap, c = ' ')
    (hcs : ∀ c ∈ cs.head?, endsLine c) : EndsName (gap ++ cs)

variable {c opening closing : Char} {cs name more front back inner ahead : List Char}

theorem nameEnds_space : nameEnds (' ' :: cs) = true ↔
    ∀ d ∈ cs.head?, d = ' ' ∨ d = ';' ∨ endsLine d = true := by
  cases cs <;> simp [nameEnds, or_assoc]

theorem nameEnds_cons (hc : c ≠ ' ') : nameEnds (c :: cs) = true ↔ isNameChar c = false := by
  have hplain : nameEnds (c :: cs) = (c = '\t' || c = ';' || endsLine c) := by
    unfold nameEnds
    split
    · next h => cases h
    · next h => exact absurd (List.cons.inj h).1 hc
    · next h => rw [(List.cons.inj h).1]
  rw [hplain, isNameChar, Bool.not_eq_false']

/-- Where a name ends in front of anything but a tab, it ends in front of a space before it. -/
theorem nameEnds_space_of_nameEnds (h : nameEnds ahead = true) (htab : ahead.head? ≠ some '\t') :
    nameEnds (' ' :: ahead) = true := by
  rw [nameEnds_space]
  rintro d hd
  obtain ⟨cs, rfl⟩ := List.head?_eq_some_iff.mp hd
  by_cases hspace : d = ' '
  · exact .inl hspace
  · have hchar := (nameEnds_cons hspace).mp h
    simp only [isNameChar, Bool.not_eq_false', Bool.or_eq_true, decide_eq_true_eq] at hchar
    rcases hchar with (rfl | hcomment) | hline
    · exact absurd rfl htab
    · exact .inr (.inl hcomment)
    · exact .inr (.inr hline)

theorem nameEnds_of_head (hcs : ∀ c ∈ cs.head?, endsLine c) : nameEnds cs = true := by
  cases cs with
  | nil => rfl
  | cons c cs => exact nameEnds_of_endsLine (hcs c rfl) cs

/-- One space in front of the end of the line. -/
theorem endsName_space (hcs : ∀ c ∈ cs.head?, endsLine c) : EndsName (' ' :: cs) := by
  have hspace : ∀ c ∈ [' '], c = ' ' := by simp
  exact .spacesLine hspace hcs

/-- **A name ends in front of these texts and no others.** -/
theorem nameEnds_iff : nameEnds ahead = true ↔ EndsName ahead := by
  constructor
  · intro h
    cases ahead with
    | nil => exact .source
    | cons c cs =>
      by_cases hspace : c = ' '
      · subst hspace
        have hhead := nameEnds_space.mp h
        cases cs with
        | nil => exact endsName_space (by simp)
        | cons d cs =>
          rcases hhead d rfl with rfl | rfl | hd
          · exact .spaces cs
          · exact .spaceComment cs
          · exact endsName_space (by simpa using hd)
      · have hchar := (nameEnds_cons hspace).mp h
        simp only [isNameChar, Bool.not_eq_false', Bool.or_eq_true, decide_eq_true_eq] at hchar
        rcases hchar with (rfl | rfl) | hline
        · exact .tab cs
        · exact .comment cs
        · exact .line hline cs
  · intro h
    cases h with
    | source | tab | comment | spaces | spaceComment => rfl
    | line hc cs => exact nameEnds_of_endsLine hc cs
    | @spacesLine gap cs hgap hcs =>
      cases gap with
      | nil => exact nameEnds_of_head hcs
      | cons c gap =>
        -- the character behind the first space tells
        obtain ⟨rfl, hmore⟩ := List.forall_mem_cons.mp hgap
        rw [List.cons_append, nameEnds_space]
        cases gap with
        | nil => exact fun d hd => .inr (.inr (hcs d hd))
        | cons d gap =>
          rintro _ ⟨⟩
          exact .inl (hmore d List.mem_cons_self)

/-! ## Names in brackets -/

/-- A name in brackets stands at the front, and there it ends. -/
structure Encloses (opening closing : Char) (inner cs : List Char) : Prop where
  /-- The name is not empty and holds neither the closing bracket, nor `;`, nor a line end. -/
  chars : inner ∈ someOf (isEnclosedChar closing)
  /-- The name ends behind the closing bracket. -/
  ends : ∃ ahead, cs = opening :: (inner ++ [closing]) ++ ahead ∧ EndsName ahead

/-- What the scanner makes of a name with the closing bracket behind it. -/
theorem enclosedName?_append (hinner : inner ∈ someOf (isEnclosedChar closing)) :
    enclosedName? opening closing (opening :: (inner ++ [closing]) ++ ahead) =
      if nameEnds ahead then some inner else none := by
  rw [List.cons_append, List.append_assoc, List.singleton_append]
  have hrun : (inner ++ closing :: ahead).takeWhile
      (fun d => !(d = closing || d = ';' || endsLine d)) = inner :=
    takeWhile_stops hinner.2 (by rintro _ ⟨⟩; simp)
  simp only [enclosedName?, hrun, List.drop_left]
  simp [hinner.1]

/-- **The scanner finds a name in brackets wherever one stands.** -/
theorem enclosedName?_eq_some_iff :
    enclosedName? opening closing cs = some inner ↔ Encloses opening closing inner cs := by
  constructor
  · intro h
    obtain ⟨hinner, ahead, hcs⟩ := exists_of_enclosedName? h
    have hsplit : cs = opening :: (inner ++ [closing]) ++ ahead := by simp [hcs]
    rw [hsplit, enclosedName?_append hinner, Option.ite_none_right_eq_some] at h
    exact ⟨hinner, ahead, hsplit, nameEnds_iff.mp h.1⟩
  · rintro ⟨hinner, ahead, rfl, hends⟩
    rw [enclosedName?_append hinner, if_pos (nameEnds_iff.mpr hends)]

/-- A text has one first character. -/
theorem Encloses.opening_eq {opening' closing' : Char} {inner' : List Char}
    (h : Encloses opening closing inner cs) (h' : Encloses opening' closing' inner' cs) :
    opening = opening' := by
  obtain ⟨-, ahead, rfl, -⟩ := h
  obtain ⟨-, ahead', heq, -⟩ := h'
  exact (List.cons.inj heq).1

/-! ## Names without brackets -/

/-- A name without brackets: it holds no tab, no `;`, no line end and no two spaces in a row, and it
ends in front of `ahead`. -/
structure NameIn (name ahead : List Char) : Prop where
  chars : name ∈ someOf isNameChar
  apart : ¬ [' ', ' '] <:+: name
  ends : EndsName ahead

/-- The longest name at the front. -/
structure LongestName (name ahead : List Char) : Prop extends NameIn name ahead where
  longest : ∀ other behind, other ++ behind = name ++ ahead → NameIn other behind →
    other.length ≤ name.length

/-- A name without the space at its end, unless a tab is behind it. -/
def trimmedName (name ahead : List Char) : List Char :=
  if ahead.head? = some '\t' then name else name.rdropWhile (· = ' ')

/-- In front of `ahead` a name goes on to its end and ends there. -/
structure StandsWhole (name ahead : List Char) : Prop where
  chars : ∀ c ∈ name, isNameChar c
  apart : ¬ [' ', ' '] <:+: name
  last : name.getLast? = some ' ' → nameEnds (' ' :: ahead) = false
  ends : nameEnds ahead

/-- A name stands whole if no name ends in front of it and the rest stands whole. -/
theorem standsWhole_cons : StandsWhole (c :: cs) ahead ↔
    nameEnds (c :: (cs ++ ahead)) = false ∧ StandsWhole cs ahead := by
  constructor
  · rintro ⟨hchars, hapart, hlast, hends⟩
    obtain ⟨hc, hcs⟩ := List.forall_mem_cons.mp hchars
    refine ⟨?_, hcs, fun h => hapart (h.trans (List.suffix_cons c cs).isInfix), fun h => ?_, hends⟩
    · rw [Bool.eq_false_iff]
      by_cases hspace : c = ' '
      · subst hspace
        cases cs with
        | nil => exact Bool.eq_false_iff.mp (hlast rfl)
        | cons d cs =>
          have hd := hcs d List.mem_cons_self
          intro h
          rcases nameEnds_space.mp h d rfl with rfl | rfl | hline
          · exact hapart ⟨[], cs, rfl⟩
          · cases hd
          · simp [isNameChar, hline] at hd
      · rw [Ne, nameEnds_cons hspace, hc]
        exact Bool.noConfusion
    · cases cs with
      | nil => cases h
      | cons d cs => exact hlast (List.getLast?_cons_cons.trans h)
  · rintro ⟨hgoes, hchars, hapart, hlast, hends⟩
    refine ⟨List.forall_mem_cons.mpr ⟨isNameChar_of_nameEnds hgoes, hchars⟩, fun h => ?_,
      fun h => ?_, hends⟩
    · rcases List.infix_cons_iff.mp h with ⟨more, hfront⟩ | hmore
      · obtain ⟨rfl, rfl⟩ := List.cons.inj hfront
        cases hgoes
      · exact hapart hmore
    · cases cs with
      | nil =>
        obtain rfl := Option.some.inj h
        exact hgoes
      | cons d cs => exact hlast (List.getLast?_cons_cons.symm.trans h)

theorem nameLength_eq_zero_iff : nameLength cs = 0 ↔ nameEnds cs = true := by
  cases cs with
  | nil => simp [nameLength, nameEnds]
  | cons c cs =>
    rw [nameLength]
    split <;> simp_all

/-- **The scanner takes a text iff it stands whole.** -/
theorem nameLength_append_iff :
    nameLength (name ++ ahead) = name.length ↔ StandsWhole name ahead := by
  induction name with
  | nil =>
    rw [List.nil_append, List.length_nil, nameLength_eq_zero_iff]
    exact ⟨fun h => ⟨by simp, by simp, by simp, h⟩, StandsWhole.ends⟩
  | cons c cs ih =>
    rw [standsWhole_cons, ← ih, List.cons_append, nameLength]
    split
    · next h => simp [h]
    · next h => simp [h]

/-- The rest of a name stands whole. -/
theorem StandsWhole.of_append (h : StandsWhole (front ++ back) ahead) : StandsWhole back ahead := by
  induction front with
  | nil => exact h
  | cons c cs ih => exact ih (standsWhole_cons.mp h).2

/-- Only in front of a tab a name ends in a space. -/
theorem StandsWhole.head? (h : StandsWhole name ahead) (hlast : name.getLast? = some ' ') :
    ahead.head? = some '\t' := by
  by_contra htab
  have hspace := h.last hlast
  rw [nameEnds_space_of_nameEnds h.ends htab] at hspace
  cases hspace

/-- A name that does not end in a space stands whole wherever names end. -/
theorem StandsWhole.again (h : StandsWhole name ahead) (hlast : name.getLast? ≠ some ' ')
    {behind : List Char} (hends : EndsName behind) : StandsWhole name behind :=
  ⟨h.chars, h.apart, fun hspace => absurd hspace hlast, nameEnds_iff.mpr hends⟩

/-! ## The longest name -/

theorem getLast?_ne_space_of_apart (h : ¬ [' ', ' '] <:+: name ++ [' ']) :
    name.getLast? ≠ some ' ' := by
  rintro hlast
  obtain ⟨front, rfl⟩ := List.getLast?_eq_some_iff.mp hlast
  exact h ⟨front, [], by simp⟩

theorem rdropWhile_of_getLast? (h : name.getLast? ≠ some ' ') :
    name.rdropWhile (· = ' ') = name := by
  rw [List.rdropWhile_eq_self_iff]
  intro hne hspace
  exact h (List.getLast?_eq_some_getLast hne ▸ congrArg some (of_decide_eq_true hspace))

/-- A name stands whole, or without the space at its end. -/
theorem NameIn.standsWhole (h : NameIn name ahead) :
    (StandsWhole name ahead ∧ trimmedName name ahead = name) ∨
      ∃ front, name = front ++ [' '] ∧ StandsWhole front (' ' :: ahead) ∧
        trimmedName name ahead = front := by
  have hends := nameEnds_iff.mpr h.ends
  by_cases hlast : name.getLast? = some ' '
  · obtain ⟨front, rfl⟩ := List.getLast?_eq_some_iff.mp hlast
    by_cases htab : ahead.head? = some '\t'
    · obtain ⟨more, rfl⟩ := List.head?_eq_some_iff.mp htab
      exact .inl ⟨⟨h.chars.2, h.apart, fun _ => rfl, hends⟩, if_pos rfl⟩
    · have hfront := getLast?_ne_space_of_apart h.apart
      refine .inr ⟨front, rfl, ⟨fun c hc => h.chars.2 c (List.mem_append_left _ hc),
        fun hin => h.apart (hin.trans (List.prefix_append front [' ']).isInfix),
        fun hspace => absurd hspace hfront, ?_⟩, ?_⟩
      · exact nameEnds_space_of_nameEnds hends htab
      · rw [trimmedName, if_neg htab, List.rdropWhile_concat_pos _ _ _ (by simp),
          rdropWhile_of_getLast? hfront]
  · refine .inl ⟨⟨h.chars.2, h.apart, fun hspace => absurd hspace hlast, hends⟩, ?_⟩
    rw [trimmedName, rdropWhile_of_getLast? hlast, ite_self]

/-- Every name at the front comes down to the one that the scanner takes. -/
theorem NameIn.take_nameLength (h : NameIn name ahead) :
    (name ++ ahead).take (nameLength (name ++ ahead)) = trimmedName name ahead := by
  rcases h.standsWhole with ⟨hwhole, htrimmed⟩ | ⟨front, rfl, hwhole, htrimmed⟩
  · rw [nameLength_append_iff.mpr hwhole, List.take_left, htrimmed]
  · rw [List.append_assoc]
    show (front ++ ' ' :: ahead).take (nameLength (front ++ ' ' :: ahead)) = _
    rw [nameLength_append_iff.mpr hwhole, List.take_left, htrimmed]

/-- A text is what the scanner takes of it, which stands whole, and the rest. -/
theorem exists_standsWhole (cs : List Char) :
    ∃ name ahead, cs = name ++ ahead ∧ name.length = nameLength cs ∧ StandsWhole name ahead := by
  have hsplit := List.take_append_drop (nameLength cs) cs
  have hlength : (cs.take (nameLength cs)).length = nameLength cs :=
    List.length_take_of_le (nameLength_le cs)
  refine ⟨_, _, hsplit.symm, hlength, nameLength_append_iff.mp ?_⟩
  rw [hsplit, hlength]

theorem StandsWhole.nameIn (h : StandsWhole name ahead) (hne : name ≠ []) : NameIn name ahead :=
  ⟨⟨hne, h.chars⟩, h.apart, nameEnds_iff.mp h.ends⟩

/-- A name is trimmed of one space at most. -/
theorem NameIn.eq_or_eq (h : NameIn name ahead) :
    name = trimmedName name ahead ∨ name = trimmedName name ahead ++ [' '] := by
  rcases h.standsWhole with ⟨-, htrimmed⟩ | ⟨front, rfl, -, htrimmed⟩
  · exact .inl htrimmed.symm
  · exact .inr (by rw [htrimmed])

/-- **The scanner takes the longest name**, without the space at its end unless a tab is behind. -/
theorem exists_longestName (h : 0 < nameLength cs) : ∃ name ahead, cs = name ++ ahead ∧
    LongestName name ahead ∧ cs.take (nameLength cs) = trimmedName name ahead := by
  obtain ⟨name, ahead, rfl, hlength, hwhole⟩ := exists_standsWhole cs
  have hne : name ≠ [] := List.ne_nil_of_length_pos (hlength ▸ h)
  have hname := hwhole.nameIn hne
  have htake : (name ++ ahead).take (nameLength (name ++ ahead)) = name := by
    rw [← hlength, List.take_left]
  -- any other name is this one, perhaps with one more space
  have hothers : ∀ other behind, other ++ behind = name ++ ahead → NameIn other behind →
      other = name ∨ other = name ++ [' '] := by
    intro other behind hsame hother
    have htrimmed := hother.take_nameLength
    rw [hsame, htake] at htrimmed
    exact htrimmed ▸ hother.eq_or_eq
  by_cases hmore : ∃ behind, ahead = ' ' :: behind ∧ NameIn (name ++ [' ']) behind
  · obtain ⟨behind, rfl, hlong⟩ := hmore
    have happend : name ++ ' ' :: behind = (name ++ [' ']) ++ behind := by simp
    refine ⟨name ++ [' '], behind, happend, ⟨hlong, fun other rest hsame hother => ?_⟩, ?_⟩
    · rcases hothers other rest (hsame.trans happend.symm) hother with rfl | rfl <;> simp
    · rw [happend]
      exact hlong.take_nameLength
  · refine ⟨name, ahead, rfl, ⟨hname, fun other behind hsame hother => ?_⟩, hname.take_nameLength⟩
    rcases hothers other behind hsame hother with rfl | rfl
    · exact Nat.le_refl _
    · refine absurd ⟨behind, ?_, hother⟩ hmore
      simpa using hsame.symm

/-! ## What follows a name -/

/-- **A name in brackets is closed at the end of a name without them, or behind it.** -/
theorem Encloses.closes (h : Encloses opening closing inner (name ++ ahead))
    (hname : StandsWhole name ahead) (hne : name ≠ []) :
    name = opening :: (inner ++ [closing]) ∨
      ∃ front back behind, name = opening :: front ∧ inner = front ++ back ∧
        ahead = back ++ closing :: behind ∧ EndsName behind := by
  obtain ⟨hinner, behind, hsplit, hends⟩ := h
  obtain ⟨c, more, rfl⟩ := List.exists_cons_of_ne_nil hne
  rw [List.cons_append, List.cons_append, List.append_assoc, List.singleton_append] at hsplit
  obtain ⟨rfl, hmore⟩ := List.cons.inj hsplit
  rcases List.append_eq_append_iff.mp hmore with ⟨back, rfl, hahead⟩ | ⟨back, rfl, hback⟩
  · exact .inr ⟨more, back, behind, rfl, rfl, hahead, hends⟩
  · cases back with
    | nil => exact .inr ⟨inner, [], behind, by simp, by simp, hback.symm, hends⟩
    | cons d back =>
      obtain ⟨rfl, rfl⟩ := List.cons.inj hback
      cases back with
      | nil => exact .inl rfl
      | cons e back =>
        -- no name ends before the end of a name that stands whole
        have hrest : StandsWhole (e :: back) ahead := by
          have hsplit : StandsWhole (c :: (inner ++ [closing]) ++ e :: back) ahead := by
            simpa using hname
          exact hsplit.of_append
        have hgoes := (standsWhole_cons.mp hrest).1
        have hstops : nameEnds (e :: (back ++ ahead)) = true := nameEnds_iff.mpr hends
        exact absurd hstops (Bool.eq_false_iff.mp hgoes)

end Daybook.Lexeme
