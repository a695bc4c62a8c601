import Daybook.Proofs.Lexeme.Line
import Mathlib.Data.List.Basic

/-!
# Texts that are cut off

If a text is cut off somewhere, what is found at its front can change only where it reaches the cut.
Most lexemes that fit in front of the cut are found without what is behind it. Two need more: a
number looks at all digits and commas in front of it, and free text looks for the next tag.

* `OfFront size f`: what `f` finds is found without what is behind the cut, if it fits in front.

Results:
* `ofFront_takeWhile`, `ofFront_freeRun` and the like: this holds of the lexemes.
* `numberLength_cut`: **a number is the same if all its digits and commas are kept.**
* `textRun_cut`: **free text is the same if the tag behind it is kept**, colon included.
* `exists_gap_of_tag`: free text ends with a gap in front of a tag.
-/

namespace Daybook.Lexeme

open Text

/-- What is found in a text is found without what stands behind it, if it is not longer than the
text. -/
def OfFront {α : Type} (size : α → Nat) (f : List Char → α) : Prop :=
  ∀ cs more, size (f (cs ++ more)) ≤ cs.length → f (cs ++ more) = f cs

variable {cs more : List Char} {c : Char} {n : Nat}

/-! ## Runs of characters -/

/-- A run of characters either reaches the cut or does not see it. -/
theorem takeWhile_cut (p : Char → Bool) (cs more : List Char) :
    cs.takeWhile p = cs ∧ (cs ++ more).takeWhile p = cs ++ more.takeWhile p ∨
      (cs.takeWhile p).length < cs.length ∧ (cs ++ more).takeWhile p = cs.takeWhile p := by
  have hfront : cs.takeWhile p <+: cs := List.takeWhile_prefix p
  rw [List.takeWhile_append]
  rcases Nat.lt_or_eq_of_le hfront.length_le with hlt | heq
  · exact .inr ⟨hlt, if_neg (Nat.ne_of_lt hlt)⟩
  · exact .inl ⟨hfront.eq_of_length heq, if_pos heq⟩

theorem ofFront_takeWhile (p : Char → Bool) : OfFront List.length (List.takeWhile p) := by
  intro cs more h
  rcases takeWhile_cut p cs more with ⟨hall, hsplit⟩ | ⟨-, hsame⟩
  · rw [hsplit, List.length_append] at h
    have hnil : more.takeWhile p = [] := List.length_eq_zero_iff.mp (by omega)
    rw [hsplit, hnil, hall, List.append_nil]
  · exact hsame

theorem ofFront_layoutLength : OfFront id layoutLength := fun cs more h =>
  congrArg List.length (ofFront_takeWhile isLayout cs more h)

theorem ofFront_newlineLength : OfFront id newlineLength := by
  intro cs more h
  rcases cs with _ | ⟨c, _ | ⟨d, cs⟩⟩
  · exact Nat.le_zero.mp h
  · by_cases hc : c = '\r'
    · subst hc
      rcases more with _ | ⟨d, more⟩
      · rfl
      · by_cases hd : d = '\n'
        · subst hd
          exact absurd h (by simp [newlineLength])
        · simp [newlineLength, hd]
    · by_cases hc' : c = '\n'
      · subst hc'
        rfl
      · simp [newlineLength, hc, hc']
  · by_cases hc : c = '\r'
    · subst hc
      by_cases hd : d = '\n'
      · subst hd
        rfl
      · simp [newlineLength, hd]
    · by_cases hc' : c = '\n'
      · subst hc'
        rfl
      · simp [newlineLength, hc, hc']

/-! ## Free text -/

theorem ofFront_trimEnd : OfFront List.length trimEnd := by
  intro cs more h
  induction cs with
  | nil => exact List.length_eq_zero_iff.mp (Nat.le_zero.mp h)
  | cons c cs ih =>
    rw [List.cons_append, trimEnd] at h ⊢
    rw [trimEnd]
    have htail : (trimEnd (cs ++ more)).length ≤ cs.length := by
      split at h
      · next hnil =>
        rw [hnil]
        exact Nat.zero_le _
      · next d ds hcons =>
        rw [hcons]
        exact Nat.le_of_succ_le_succ h
    rw [ih htail]

/-- Cut text that is trimmed is the same if it fits. -/
theorem trimEnd_takeWhile_cut {p : Char → Bool}
    (h : (trimEnd ((cs ++ more).takeWhile p)).length ≤ cs.length) :
    trimEnd ((cs ++ more).takeWhile p) = trimEnd (cs.takeWhile p) := by
  rcases takeWhile_cut p cs more with ⟨hall, hsplit⟩ | ⟨-, hsame⟩
  · rw [hsplit] at h ⊢
    rw [hall]
    exact ofFront_trimEnd _ _ h
  · rw [hsame]

theorem ofFront_freeRun (isStop : Char → Bool) : OfFront List.length (freeRun isStop) :=
  fun _ _ h => trimEnd_takeWhile_cut h

/-! ## Amounts -/

theorem ofFront_fractionLength : OfFront id fractionLength := by
  intro cs more h
  cases cs with
  | nil => exact Nat.le_zero.mp h
  | cons c cs =>
    by_cases hc : c = '.'
    · subst hc
      rw [List.cons_append] at h ⊢
      simp only [fractionLength, id] at h ⊢
      have hrun : (digitRun (cs ++ more)).length ≤ cs.length := by
        split at h
        · next hnil =>
          rw [List.isEmpty_iff.mp hnil]
          exact Nat.zero_le _
        · exact Nat.le_of_succ_le_succ h
      have hdigits : digitRun (cs ++ more) = digitRun cs := ofFront_takeWhile _ _ _ hrun
      rw [hdigits]
    · simp [fractionLength, hc]

theorem digitRun_length_le (cs : List Char) : (digitRun cs).length ≤ (groupedRun cs).length := by
  induction cs with
  | nil => exact Nat.le_refl _
  | cons c cs ih =>
    unfold digitRun groupedRun at ih ⊢
    cases hc : c.isDigit with
    | false => simp [hc]
    | true =>
      simp only [List.takeWhile_cons, hc, Bool.true_or, reduceIte, List.length_cons]
      exact Nat.succ_le_succ ih

/-- A number is at least as long as its digits and commas. -/
theorem groupedRun_length_le (hdigits : digitRun cs ≠ []) (h : 0 < numberLength cs) :
    (groupedRun cs).length ≤ numberLength cs := by
  unfold numberLength at h ⊢
  rw [if_neg (by simpa using hdigits)] at h ⊢
  simp only at h ⊢
  split at h
  · next hwhole =>
    rw [if_pos hwhole]
    exact Nat.le_add_right _ _
  · exact absurd h (Nat.lt_irrefl 0)

/-- **A number is the same if all its digits and commas are kept.** -/
theorem numberLength_cut
    (hgrouped : digitRun (cs ++ more) ≠ [] → (groupedRun (cs ++ more)).length ≤ cs.length)
    (h : numberLength (cs ++ more) ≤ cs.length) : numberLength (cs ++ more) = numberLength cs := by
  by_cases hempty : digitRun (cs ++ more) = []
  · have hdigits : digitRun (cs ++ more) = digitRun cs :=
      ofFront_takeWhile _ _ _ (Nat.le_trans (Nat.le_of_eq (congrArg List.length hempty))
        (Nat.zero_le _))
    rw [numberLength, if_pos (List.isEmpty_iff.mpr hempty)] at h ⊢
    rw [numberLength, if_pos (List.isEmpty_iff.mpr (hdigits ▸ hempty))]
    exact ofFront_fractionLength cs more h
  · replace hgrouped := hgrouped hempty
    have hwhole : groupedRun (cs ++ more) = groupedRun cs := ofFront_takeWhile _ _ _ hgrouped
    have hdigits : digitRun (cs ++ more) = digitRun cs :=
      ofFront_takeWhile _ _ _ (Nat.le_trans (digitRun_length_le _) hgrouped)
    have hdrop : (cs ++ more).drop (groupedRun cs).length =
        cs.drop (groupedRun cs).length ++ more :=
      List.drop_append_of_le_length (hwhole ▸ hgrouped)
    have hsome : ¬ (digitRun (cs ++ more)).isEmpty := fun hnil => hempty (List.isEmpty_iff.mp hnil)
    have hsome' : ¬ (digitRun cs).isEmpty := hdigits ▸ hsome
    rw [numberLength, if_neg hsome] at h ⊢
    rw [numberLength, if_neg hsome']
    simp only [hdigits, hwhole, hdrop] at h ⊢
    have hfraction : fractionLength (cs.drop (groupedRun cs).length ++ more) =
        fractionLength (cs.drop (groupedRun cs).length) := by
      refine ofFront_fractionLength _ _ ?_
      rw [List.length_drop]
      show fractionLength _ ≤ _
      split at h
      · omega
      · next hnone =>
        simp only [Bool.or_eq_true, decide_eq_true_eq, not_or] at hnone
        omega
    rw [hfraction]

/-- Characters in a quoted commodity, quotes included. -/
def quotedSize (inner? : Option (List Char)) : Nat := inner?.elim 0 (·.length + 2)

theorem ofFront_quotedCommodity? : OfFront quotedSize quotedCommodity? := by
  intro cs more h
  cases cs with
  | nil =>
    cases hquoted : quotedCommodity? more with
    | none => exact hquoted
    | some inner => exact absurd (hquoted ▸ h) (by simp [quotedSize])
  | cons c cs =>
    by_cases hc : c = '"'
    · subst hc
      rw [List.cons_append] at h ⊢
      simp only [quotedCommodity?] at h ⊢
      rcases takeWhile_cut isQuotedChar cs more with ⟨hall, hsplit⟩ | ⟨hlt, hsame⟩
      · -- the closing quote is behind the cut
        rw [hall, List.drop_length]
        simp only
        split at h
        · split at h
          · next hempty => simp [hempty]
          · next hempty =>
            simp only [quotedSize, Option.elim_some, hsplit, List.length_append,
              List.length_cons] at h
            omega
        · rfl
      · rw [hsame, List.drop_append_of_le_length (Nat.le_of_lt hlt)]
        obtain ⟨d, after, hafter⟩ : ∃ d after, cs.drop (cs.takeWhile isQuotedChar).length =
            d :: after := List.exists_cons_of_ne_nil (by simpa using hlt)
        rw [hafter]
        by_cases hd : d = '"'
        · subst hd
          rfl
        · simp [hd]
    · simp [quotedCommodity?, hc]

/-! ## Comments -/

/-- Characters in the name of a tag, colon included. -/
def tagSize (length? : Option Nat) : Nat := length?.elim 0 (· + 1)

/-- A tag at the front: its name, and the colon behind it. -/
theorem tagNameLength?_eq_some_iff : tagNameLength? cs = some n ↔
    ∃ name after, cs = name ++ ':' :: after ∧ name ≠ [] ∧ (∀ c ∈ name, isTagNameChar c) ∧
      n = name.length := by
  constructor
  · intro h
    simp only [tagNameLength?] at h
    split at h
    · next after hafter =>
      split at h
      · simp at h
      · next hne =>
        exact ⟨_, after, eq_run_append hafter, by simpa using hne,
          fun _ => List.mem_takeWhile_imp, (Option.some.inj h).symm⟩
    · simp at h
  · rintro ⟨name, after, rfl, hne, hname, rfl⟩
    have hrun : (name ++ ':' :: after).takeWhile isTagNameChar = name := by
      rw [List.takeWhile_append_of_pos hname]
      simp [isTagNameChar]
    simp [tagNameLength?, hrun, hne]

/-- A tag that is there is there with more behind it. -/
theorem tagNameLength?_append (h : tagNameLength? cs = some n) (more : List Char) :
    tagNameLength? (cs ++ more) = some n := by
  obtain ⟨name, after, rfl, hname⟩ := tagNameLength?_eq_some_iff.mp h
  exact tagNameLength?_eq_some_iff.mpr ⟨name, after ++ more, by simp, hname⟩

theorem ofFront_tagNameLength? : OfFront tagSize tagNameLength? := by
  intro cs more h
  cases hcut : tagNameLength? cs with
  | some n => exact tagNameLength?_append hcut more
  | none =>
    cases hfull : tagNameLength? (cs ++ more) with
    | none => rfl
    | some n =>
      obtain ⟨name, after, hsplit, hname⟩ := tagNameLength?_eq_some_iff.mp hfull
      have hlen : (name ++ [':']).length ≤ cs.length := by
        rw [hfull, hname.2.2] at h
        rw [List.length_append]
        exact h
      have hfront : name ++ [':'] <+: cs :=
        List.prefix_of_prefix_length_le ⟨after, by simp [hsplit]⟩ (List.prefix_append cs more) hlen
      obtain ⟨rest, hrest⟩ := hfront
      have hsome : tagNameLength? cs = some n :=
        tagNameLength?_eq_some_iff.mpr ⟨name, rest, by simp [← hrest], hname⟩
      exact absurd (hcut.symm.trans hsome) (by simp)

/-- The tag that ends the free text, if there is one in front of the cut, is all in front of it. -/
def KeepsTag (text cs more : List Char) : Prop :=
  text.length < cs.length → ∀ n, tagNameLength? ((cs ++ more).drop text.length) = some n →
    text.length + n + 1 ≤ cs.length

theorem untilTag_cut {before : Char} (h : KeepsTag (untilTag before (cs ++ more)) cs more) :
    untilTag before cs = (untilTag before (cs ++ more)).take cs.length := by
  induction cs generalizing before with
  | nil => rfl
  | cons c cs ih =>
    rw [List.cons_append] at h ⊢
    by_cases hstop : endsLine c || (opensWord (some before) &&
        (tagNameLength? (c :: (cs ++ more))).isSome)
    · -- the text ends here, also in front of the cut
      have hfull : untilTag before (c :: (cs ++ more)) = [] := by rw [untilTag, if_pos hstop]
      rw [hfull, List.take_nil, untilTag, if_pos]
      rw [hfull] at h
      simp only [Bool.or_eq_true, Bool.and_eq_true, Option.isSome_iff_exists] at hstop ⊢
      rcases hstop with hends | ⟨hword, n, hn⟩
      · exact .inl hends
      · have hkept : n + 1 ≤ (c :: cs).length := by
          have hlen := h (Nat.succ_pos _) n hn
          rwa [List.length_nil, Nat.zero_add] at hlen
        refine .inr ⟨hword, n, hn ▸ (ofFront_tagNameLength? (c :: cs) more ?_).symm⟩
        show tagSize (tagNameLength? (c :: (cs ++ more))) ≤ _
        rw [hn]
        exact hkept
    · have hcut : ¬ (endsLine c || (opensWord (some before) &&
          (tagNameLength? (c :: cs)).isSome)) := by
        simp only [Bool.or_eq_true, Bool.and_eq_true, Option.isSome_iff_exists] at hstop ⊢
        rintro (hends | ⟨hword, n, hn⟩)
        · exact hstop (.inl hends)
        · exact hstop (.inr ⟨hword, n, tagNameLength?_append hn more⟩)
      have hfull : untilTag before (c :: (cs ++ more)) = c :: untilTag c (cs ++ more) := by
        rw [untilTag, if_neg hstop]
      rw [hfull] at h ⊢
      rw [untilTag, if_neg hcut, List.length_cons, List.take_succ_cons, ← ih]
      intro hlt n hn
      have hlen := h (Nat.succ_lt_succ hlt) n hn
      rw [List.length_cons, List.length_cons] at hlen
      omega

/-- **Free text is the same if it fits and the tag behind it is kept.** -/
theorem textRun_cut (hlen : (textRun (c :: (cs ++ more))).length ≤ cs.length + 1)
    (htag : KeepsTag (untilTag c (cs ++ more)) cs more) :
    textRun (c :: (cs ++ more)) = textRun (c :: cs) := by
  rw [textRun] at hlen ⊢
  rw [textRun]
  by_cases hc : endsLine c
  · rw [if_pos hc, if_pos hc]
  · rw [if_neg hc] at hlen ⊢
    rw [if_neg hc, untilTag_cut htag]
    have hsplit := List.take_append_drop cs.length (untilTag c (cs ++ more))
    rcases Nat.le_total (untilTag c (cs ++ more)).length cs.length with hle | hge
    · rw [List.take_of_length_le hle]
    · -- the text goes on behind the cut, but is trimmed
      rw [← hsplit] at hlen ⊢
      rw [List.take_left' (List.length_take_of_le hge)]
      refine ofFront_trimEnd (c :: (untilTag c (cs ++ more)).take cs.length) _ ?_
      rw [List.length_cons, List.length_take_of_le hge]
      exact hlen

/-! ## Gaps in front of tags -/

theorem getLast?_cons_or (c : Char) (cs : List Char) (before : Option Char) :
    (c :: cs).getLast?.or before = cs.getLast?.or (some c) := by
  rw [List.getLast?_cons]
  cases cs.getLast? <;> rfl

theorem tagNameLength?_of_isBlank (hc : isBlank c) (cs : List Char) :
    tagNameLength? (c :: cs) = none := by
  have hname : isTagNameChar c = false := by simp [isTagNameChar, hc]
  have hcolon : c ≠ ':' := by
    rintro rfl
    exact absurd hc (by decide)
  simp [tagNameLength?, hname, hcolon]

theorem isBlank_of_endsLine (hc : endsLine c) : isBlank c := by
  simp only [endsLine, Bool.or_eq_true, decide_eq_true_eq] at hc
  rcases hc with rfl | rfl <;> decide

/-- A tag ends free text only at the start of a word. -/
theorem opensWord_of_untilTag {before : Char}
    (htag : tagNameLength? (cs.drop (untilTag before cs).length) = some n) :
    opensWord ((untilTag before cs).getLast?.or (some before)) := by
  induction cs generalizing before with
  | nil => exact absurd htag (by simp [untilTag, tagNameLength?])
  | cons c cs ih =>
    by_cases hstop : endsLine c || (opensWord (some before) && (tagNameLength? (c :: cs)).isSome)
    · rw [untilTag, if_pos hstop] at htag ⊢
      simp only [Bool.or_eq_true, Bool.and_eq_true] at hstop
      rcases hstop with hends | ⟨hword, -⟩
      · have hnone := tagNameLength?_of_isBlank (isBlank_of_endsLine hends) cs
        exact absurd (htag.symm.trans hnone) (by simp)
      · exact hword
    · rw [untilTag, if_neg hstop] at htag ⊢
      rw [getLast?_cons_or]
      exact ih htag

/-- Free text goes on over blank characters up to a tag. -/
theorem untilTag_gap {before : Char} {gap tail : List Char}
    (hgap : ∀ c ∈ gap, isBlank c ∧ endsLine c = false)
    (hword : opensWord (gap.getLast?.or (some before))) (htag : tagNameLength? tail = some n) :
    untilTag before (gap ++ tail) = gap := by
  induction gap generalizing before with
  | nil =>
    cases tail with
    | nil => exact absurd htag (by simp [tagNameLength?])
    | cons c tail =>
      have hword : opensWord (some before) := hword
      simp [untilTag, hword, htag]
  | cons c gap ih =>
    obtain ⟨⟨hblank, hends⟩, hmore⟩ := List.forall_mem_cons.mp hgap
    rw [getLast?_cons_or] at hword
    simp only [List.cons_append, untilTag, hends, tagNameLength?_of_isBlank hblank, Option.isSome_none,
      Bool.and_false, Bool.or_self, Bool.false_eq_true, if_false, ih hmore hword]

theorem trimEnd_eq_nil (h : ∀ c ∈ cs, isBlank c) : trimEnd cs = [] := by
  rcases List.eq_nil_or_concat' (trimEnd cs) with hnil | ⟨init, d, hd⟩
  · exact hnil
  · have hlast : isBlank d = false := trimEnd_getLast cs d (by rw [hd, List.getLast?_concat])
    have hmem : d ∈ cs := (trimEnd_isPrefix cs).subset (by simp [hd])
    exact absurd (h d hmem) (by simp [hlast])

/-- No free text starts with the gap in front of a tag. -/
theorem textRun_gap {gap tail : List Char}
    (hgap : ∀ d ∈ c :: gap, isBlank d ∧ endsLine d = false)
    (hword : opensWord (gap.getLast?.or (some c))) (htag : tagNameLength? tail = some n) :
    textRun (c :: (gap ++ tail)) = [] := by
  obtain ⟨⟨hblank, hends⟩, hmore⟩ := List.forall_mem_cons.mp hgap
  rw [textRun, if_neg (by simp [hends]), untilTag_gap hmore hword htag]
  exact trimEnd_eq_nil fun d hd => (hgap d hd).1

/-- Between free text and the tag that ends it there is a gap, and the tag opens a word. -/
theorem exists_gap_of_tag {rest : List Char} (hends : endsLine c = false)
    (htag : tagNameLength? (rest.drop (untilTag c rest).length) = some n) :
    ∃ gap tail, textRun (c :: rest) ++ gap = c :: untilTag c rest ∧
      c :: rest = textRun (c :: rest) ++ (gap ++ tail) ∧ tagNameLength? tail = some n ∧
      (∀ d ∈ gap, isBlank d ∧ endsLine d = false) ∧
      ∀ before, opensWord ((textRun (c :: rest) ++ gap).getLast?.or before) := by
  obtain ⟨tail, htail⟩ := untilTag_isPrefix c rest
  obtain ⟨gap, hgap, hblank⟩ := trimEnd_append (c :: untilTag c rest)
  have htext : textRun (c :: rest) = trimEnd (c :: untilTag c rest) := by
    rw [textRun, if_neg (by simp [hends])]
  rw [← htext] at hgap
  have hdrop := congrArg (List.drop (untilTag c rest).length) htail
  rw [List.drop_left] at hdrop
  refine ⟨gap, tail, hgap, ?_, hdrop ▸ htag, fun d hd => ⟨hblank d hd, ?_⟩, ?_⟩
  · rw [← List.append_assoc, hgap, List.cons_append, htail]
  · have hmem : d ∈ c :: untilTag c rest := hgap ▸ List.mem_append_right _ hd
    rcases List.mem_cons.mp hmem with rfl | hmem
    · exact hends
    · exact endsLine_of_mem_untilTag hmem
  · intro before
    rw [hgap, getLast?_cons_or]
    exact opensWord_of_untilTag htag

/-! ## Keywords -/

theorem keywordLength_append {word : List Char} {d : Char} (hd : isLayout d) (more : List Char) :
    keywordLength word (word ++ d :: more) = word.length := by
  have hword : word.isPrefixOf (word ++ d :: more) := by
    rw [List.isPrefixOf_iff_prefix]
    exact List.prefix_append _ _
  simp [keywordLength, hword, hd]

/-- A keyword at the front has a space or a tab behind it. -/
theorem keywordLength_pos_iff {word cs : List Char} : 0 < keywordLength word cs ↔
    word ≠ [] ∧ ∃ d more, isLayout d ∧ cs = word ++ d :: more := by
  constructor
  · intro h
    unfold keywordLength at h
    split at h
    · next hfound =>
      obtain ⟨hword, hlayout⟩ := Bool.and_eq_true_iff.mp hfound
      obtain ⟨more, rfl⟩ := List.isPrefixOf_iff_prefix.mp hword
      rw [List.drop_left] at hlayout
      cases more with
      | nil => simp at hlayout
      | cons d more => exact ⟨List.ne_nil_of_length_pos h, d, more, by simpa using hlayout, rfl⟩
    · exact absurd h (Nat.lt_irrefl 0)
  · rintro ⟨hne, d, more, hd, rfl⟩
    rw [keywordLength_append hd]
    exact List.length_pos_iff.mpr hne

end Daybook.Lexeme
