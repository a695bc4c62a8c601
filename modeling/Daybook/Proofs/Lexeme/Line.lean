import Daybook.Lexeme.AccountName
import Daybook.Lexeme.Amount
import Daybook.Lexeme.Comment
import Daybook.Lexeme.Date
import Daybook.Lexeme.Line
import Mathlib.Data.List.TakeWhile

/-!
# Lexemes keep to their line

What is read at the front of a text lies in front of the end of its line, and it is the same
whatever the line ends with and whatever stands behind it. Both hold of every lexeme.

* `OnLine n cs`: the first `n` characters of `cs` are there and none of them ends the line.
* `OfLine f`: `f` looks only at what stands in front of the end of the line.
* `LineLocal f`: `f` does not look behind the next line feed.

Results:
* `onLine_append`: a text at the front that does not hold the end of the line is on it.
* `OnLine.add`: two texts in a row that are on the line.
* `OfLine.lineLocal`: what looks only at its line does not look behind the line feed.
* an `onLine_` and an `ofLine_` lemma for each lexeme.
-/

namespace Daybook.Lexeme

open Text

/-! ## In front of the line end -/

/-- The first `n` characters are there, and none of them ends the line. -/
def OnLine (n : Nat) (cs : List Char) : Prop := n ≤ (lineRest cs).length

variable {n : Nat} {c : Char} {cs text tail line more : List Char} {p : Char → Bool}

theorem endsLine_of_not_mem (h : c ∈ lineRest cs) : endsLine c = false := by
  simpa using List.mem_takeWhile_imp h

theorem lineRest_append (h : ∀ c ∈ text, endsLine c = false) (tail : List Char) :
    lineRest (text ++ tail) = text ++ lineRest tail :=
  List.takeWhile_append_of_pos fun c hc => by rw [h c hc]; rfl

theorem OnLine.le_length (h : OnLine n cs) : n ≤ cs.length :=
  Nat.le_trans h (List.takeWhile_prefix _).length_le

/-- What keeps to its line is the same on the line alone. -/
theorem OnLine.take_lineRest (h : OnLine n cs) : (lineRest cs).take n = cs.take n := by
  obtain ⟨tail, htail⟩ : lineRest cs <+: cs := List.takeWhile_prefix _
  calc (lineRest cs).take n
      = (lineRest cs ++ tail).take n := (List.take_append_of_le_length h).symm
    _ = cs.take n := by rw [htail]

/-- None of the characters ends the line. -/
theorem OnLine.endsLine_eq_false (h : OnLine n cs) (hc : c ∈ cs.take n) : endsLine c = false := by
  rw [← h.take_lineRest] at hc
  exact endsLine_of_not_mem (List.mem_of_mem_take hc)

/-- A text at the front that does not hold the end of the line lies in front of it. -/
theorem onLine_append (h : ∀ c ∈ text, endsLine c = false) (tail : List Char) :
    OnLine text.length (text ++ tail) := by
  unfold OnLine
  rw [lineRest_append h, List.length_append]
  exact Nat.le_add_right _ _

theorem onLine_of_isPrefix (hfront : text <+: cs) (h : ∀ c ∈ text, endsLine c = false) :
    OnLine text.length cs := by
  obtain ⟨tail, rfl⟩ := hfront
  exact onLine_append h tail

/-- A text in front of the line end, and another one right behind it. -/
theorem OnLine.add {m : Nat} (hm : OnLine m cs) (hn : OnLine n (cs.drop m)) :
    OnLine (m + n) cs := by
  have hlen : (cs.take m).length = m := by rw [List.length_take, Nat.min_eq_left hm.le_length]
  have hsplit := lineRest_append (fun c hc => hm.endsLine_eq_false hc) (cs.drop m)
  rw [List.take_append_drop] at hsplit
  unfold OnLine at hn ⊢
  rw [hsplit, List.length_append, hlen]
  omega

theorem onLine_one (hc : endsLine c = false) (cs : List Char) : OnLine 1 (c :: cs) := by
  unfold OnLine lineRest
  rw [List.takeWhile_cons, hc]
  exact Nat.le_add_left _ _

theorem onLine_cons (hc : endsLine c = false) (h : OnLine n cs) : OnLine (n + 1) (c :: cs) := by
  have hadd := (onLine_one hc cs).add (n := n) h
  rwa [Nat.add_comm] at hadd

/-- Characters of a class that holds no line end. -/
theorem onLine_takeWhile (hp : ∀ c, p c → endsLine c = false) (cs : List Char) :
    OnLine (cs.takeWhile p).length cs :=
  onLine_of_isPrefix (List.takeWhile_prefix _) fun c hc =>
    hp c (List.mem_takeWhile_imp hc)

/-- A text enclosed by two characters. -/
theorem onLine_enclosed {inner : List Char} {opening closing : Char}
    (hopening : endsLine opening = false) (hclosing : endsLine closing = false)
    (hinner : ∀ c ∈ inner, endsLine c = false) (ahead : List Char) :
    OnLine (inner.length + 2) (opening :: (inner ++ closing :: ahead)) := by
  have hlast : OnLine 1 ((inner ++ closing :: ahead).drop inner.length) := by
    rw [List.drop_left]
    exact onLine_one hclosing ahead
  exact onLine_cons hopening ((onLine_append hinner _).add hlast)

/-! ## Readers that look only at their line -/

/-- What is read depends only on what stands in front of the end of the line. -/
def OfLine {α : Type} (f : List Char → α) : Prop := ∀ cs, f (lineRest cs) = f cs

/-- What is read does not depend on what stands behind a line feed. -/
def LineLocal {α : Type} (f : List Char → α) : Prop :=
  ∀ line more, f (line ++ '\n' :: more) = f (line ++ ['\n'])

/-- Texts with the same line read the same. -/
theorem OfLine.congr {α : Type} {f : List Char → α} (h : OfLine f) {cs ds : List Char}
    (hline : lineRest cs = lineRest ds) : f cs = f ds := by rw [← h cs, hline, h ds]

theorem OfLine.comp {α β : Type} {f : List Char → α} (h : OfLine f) (g : α → β) :
    OfLine fun cs => g (f cs) := fun cs => congrArg g (h cs)

theorem takeWhile_break (hp : p '\n' = false) (line more : List Char) :
    (line ++ '\n' :: more).takeWhile p = line.takeWhile p := by
  induction line with
  | nil => rw [List.nil_append, List.takeWhile_cons_of_neg (by simp [hp])]; rfl
  | cons c line ih => simp only [List.cons_append, List.takeWhile_cons, ih]

/-- **What looks only at its line does not look behind the line feed.** -/
theorem OfLine.lineLocal {α : Type} {f : List Char → α} (h : OfLine f) : LineLocal f :=
  fun line more => h.congr ((takeWhile_break rfl line more).trans (takeWhile_break rfl line []).symm)

/-- What is left behind a run of characters. -/
theorem drop_run (cs : List Char) : cs.drop (cs.takeWhile p).length = cs.dropWhile p := by
  calc cs.drop (cs.takeWhile p).length
      = (cs.takeWhile p ++ cs.dropWhile p).drop (cs.takeWhile p).length := by
        rw [List.takeWhile_append_dropWhile]
    _ = cs.dropWhile p := List.drop_left

/-- A run of characters, and what is left behind it. -/
theorem eq_run_append {after : List Char} (h : cs.drop (cs.takeWhile p).length = after) :
    cs = cs.takeWhile p ++ after := by
  rw [← h, drop_run, List.takeWhile_append_dropWhile]

/-- What is left behind a run of characters in front of a line feed. -/
theorem drop_run_break (line more : List Char) :
    (line ++ '\n' :: more).drop (line.takeWhile p).length = line.dropWhile p ++ '\n' :: more := by
  calc (line ++ '\n' :: more).drop (line.takeWhile p).length
      = (line.takeWhile p ++ (line.dropWhile p ++ '\n' :: more)).drop
          (line.takeWhile p).length := by rw [← List.append_assoc, List.takeWhile_append_dropWhile]
    _ = line.dropWhile p ++ '\n' :: more := List.drop_left

theorem lineRest_cons (hc : endsLine c = false) (cs : List Char) :
    lineRest (c :: cs) = c :: lineRest cs := by
  have hline : ∀ d ∈ [c], endsLine d = false := by simpa using hc
  exact lineRest_append hline cs

theorem lineRest_of_endsLine (hc : endsLine c) (cs : List Char) : lineRest (c :: cs) = [] :=
  List.takeWhile_cons_of_neg (by simp [hc])

/-- A run of characters that do not end the line is a run of the line. -/
theorem takeWhile_lineRest (hp : ∀ c, p c → endsLine c = false) :
    ∀ cs : List Char, (lineRest cs).takeWhile p = cs.takeWhile p
  | [] => rfl
  | c :: cs => by
    by_cases hc : endsLine c
    · have hpc : ¬ p c := fun h => absurd (hp c h) (by simp [hc])
      rw [lineRest_of_endsLine hc, List.takeWhile_cons_of_neg hpc, List.takeWhile_nil]
    · rw [lineRest_cons (by simpa using hc), List.takeWhile_cons, List.takeWhile_cons,
        takeWhile_lineRest hp cs]

/-- Behind such a run the line goes on. -/
theorem dropWhile_lineRest (hp : ∀ c, p c → endsLine c = false) :
    ∀ cs : List Char, (lineRest cs).dropWhile p = lineRest (cs.dropWhile p)
  | [] => rfl
  | c :: cs => by
    by_cases hc : endsLine c
    · have hpc : ¬ p c := fun h => absurd (hp c h) (by simp [hc])
      rw [List.dropWhile_cons_of_neg hpc, lineRest_of_endsLine hc, List.dropWhile_nil]
    · rw [lineRest_cons (by simpa using hc), List.dropWhile_cons, List.dropWhile_cons]
      split
      · exact dropWhile_lineRest hp cs
      · rw [lineRest_cons (by simpa using hc)]

theorem drop_run_lineRest (hp : ∀ c, p c → endsLine c = false) (cs : List Char) :
    (lineRest cs).drop (cs.takeWhile p).length = lineRest (cs.dropWhile p) := by
  rw [← takeWhile_lineRest hp, drop_run, dropWhile_lineRest hp]

theorem ofLine_takeWhile (hp : ∀ c, p c → endsLine c = false) : OfLine (List.takeWhile p) :=
  takeWhile_lineRest hp

/-- A test of the first character that no line end passes. -/
theorem ofLine_head? (hp : ∀ c, p c → endsLine c = false) : OfLine fun cs => cs.head?.any p := by
  intro cs
  cases cs with
  | nil => rfl
  | cons c cs =>
    by_cases hc : endsLine c
    · have hpc : p c = false := by
        rw [Bool.eq_false_iff]
        exact fun h => absurd (hp c h) (by simp [hc])
      rw [lineRest_of_endsLine hc]
      exact hpc.symm
    · rw [lineRest_cons (by simpa using hc)]
      rfl

/-! ## Keywords, layout and free text -/

theorem endsLine_of_isLayout (h : isLayout c) : endsLine c = false := by
  simp only [isLayout, Bool.or_eq_true, decide_eq_true_eq] at h
  rcases h with rfl | rfl <;> rfl

theorem onLine_layoutLength (cs : List Char) : OnLine (layoutLength cs) cs :=
  onLine_takeWhile (fun _ => endsLine_of_isLayout) cs

theorem ofLine_layoutLength : OfLine layoutLength :=
  (ofLine_takeWhile fun _ => endsLine_of_isLayout).comp List.length

theorem onLine_keywordLength {word : List Char} (hword : ∀ c ∈ word, endsLine c = false)
    (cs : List Char) : OnLine (keywordLength word cs) cs := by
  unfold keywordLength
  split
  · next h =>
    rw [Bool.and_eq_true] at h
    exact onLine_of_isPrefix (List.isPrefixOf_iff_prefix.mp h.1) hword
  · exact Nat.zero_le _

theorem ofLine_keywordLength {word : List Char} (hword : ∀ c ∈ word, endsLine c = false) :
    OfLine (keywordLength word) := by
  suffices h : ∀ cs : List Char, (word.isPrefixOf (lineRest cs) &&
      ((lineRest cs).drop word.length).head?.any isLayout) =
        (word.isPrefixOf cs && (cs.drop word.length).head?.any isLayout) by
    intro cs
    simp only [keywordLength, h cs]
  -- the word is compared with the line character by character
  induction word with
  | nil => exact ofLine_head? fun _ => endsLine_of_isLayout
  | cons w word ih =>
    intro cs
    obtain ⟨hw, hword⟩ := List.forall_mem_cons.mp hword
    cases cs with
    | nil => rfl
    | cons c cs =>
      by_cases hc : endsLine c
      · have hne : (w == c) = false := by
          rw [beq_eq_false_iff_ne]
          rintro rfl
          simp [hc] at hw
        simp [lineRest_of_endsLine hc, List.isPrefixOf, hne]
      · simp only [lineRest_cons (Bool.eq_false_iff.mpr hc), List.isPrefixOf, List.length_cons,
          List.drop_succ_cons, Bool.and_assoc, ih hword cs]

theorem onLine_freeRun (isStop : Char → Bool) (cs : List Char) :
    OnLine (freeRun isStop cs).length cs :=
  onLine_of_isPrefix (freeRun_isPrefix isStop cs) fun _ hc => (freeRun_no_break hc).1

theorem ofLine_freeRun (isStop : Char → Bool) : OfLine (freeRun isStop) :=
  (ofLine_takeWhile fun c hc => by
    simp only [Bool.not_eq_true', Bool.or_eq_false_iff] at hc
    exact hc.1).comp trimEnd

theorem onLine_lineRest (cs : List Char) : OnLine (lineRest cs).length cs := Nat.le_refl _

theorem ofLine_lineRest : OfLine lineRest := ofLine_takeWhile fun c hc => by simpa using hc

/-! ## Dates -/

theorem endsLine_of_isDateChar (h : isDateChar c) : endsLine c = false := by
  rw [Bool.eq_false_iff]
  intro hends
  simp only [endsLine, Bool.or_eq_true, decide_eq_true_eq] at hends
  rcases hends with rfl | rfl <;> exact absurd h (by decide)

theorem onLine_dateLength? (h : dateLength? cs = some n) : OnLine n cs := by
  obtain ⟨-, rfl⟩ := dateLength?_eq_some_iff.mp h
  exact onLine_takeWhile (fun _ => endsLine_of_isDateChar) cs

theorem ofLine_dateLength? : OfLine dateLength? :=
  (ofLine_takeWhile fun _ => endsLine_of_isDateChar).comp fun run =>
    if isDateFields (fields isDateSign run) then some run.length else none

/-! ## Comments -/

theorem endsLine_of_isTagNameChar (h : isTagNameChar c) : endsLine c = false := by
  rw [Bool.eq_false_iff]
  intro hends
  simp only [endsLine, Bool.or_eq_true, decide_eq_true_eq] at hends
  rcases hends with rfl | rfl <;> exact absurd h (by decide)

theorem onLine_tagNameLength? (h : tagNameLength? cs = some n) : OnLine n cs := by
  unfold tagNameLength? at h
  simp only at h
  split at h
  · split at h
    · simp at h
    · rw [Option.some.injEq] at h
      exact h ▸ onLine_takeWhile (fun _ => endsLine_of_isTagNameChar) cs
  · simp at h

theorem ofLine_tagNameLength? : OfLine tagNameLength? := by
  intro cs
  have hname : ∀ c, isTagNameChar c → endsLine c = false := fun _ => endsLine_of_isTagNameChar
  simp only [tagNameLength?, takeWhile_lineRest hname, drop_run, drop_run_lineRest hname]
  cases cs.dropWhile isTagNameChar with
  | nil => rfl
  | cons d after =>
    by_cases hd : d = ':'
    · subst hd
      rw [lineRest_cons rfl]
      rfl
    · cases hends : endsLine d with
      | true => simp [lineRest_of_endsLine hends, hd]
      | false => simp [lineRest_cons hends, hd]

theorem endsLine_of_mem_untilTag : ∀ {before : Char} {cs : List Char},
    c ∈ untilTag before cs → endsLine c = false
  | _, [], h => absurd h List.not_mem_nil
  | before, d :: cs, h => by
    unfold untilTag at h
    split at h
    · exact absurd h List.not_mem_nil
    · next hstop =>
      simp only [Bool.or_eq_true, not_or] at hstop
      rcases List.mem_cons.mp h with rfl | hmem
      · simpa using hstop.1
      · exact endsLine_of_mem_untilTag hmem

theorem ofLine_untilTag (before : Char) : OfLine (untilTag before) := by
  intro cs
  induction cs generalizing before with
  | nil => rfl
  | cons c cs ih =>
    cases hc : endsLine c with
    | true => simp [lineRest_of_endsLine hc, untilTag, hc]
    | false =>
      have htag := ofLine_tagNameLength? (c :: cs)
      rw [lineRest_cons hc] at htag ⊢
      simp only [untilTag, htag, ih c]

theorem onLine_textRun (cs : List Char) : OnLine (textRun cs).length cs := by
  refine onLine_of_isPrefix (textRun_isPrefix cs) fun d hd => ?_
  cases cs with
  | nil => exact absurd hd List.not_mem_nil
  | cons c cs =>
    simp only [textRun] at hd
    split at hd
    · exact absurd hd List.not_mem_nil
    · next hc =>
      rcases List.mem_cons.mp ((trimEnd_isPrefix _).subset hd) with rfl | hmem
      · simpa using hc
      · exact endsLine_of_mem_untilTag hmem

theorem ofLine_textRun : OfLine textRun := by
  intro cs
  cases cs with
  | nil => rfl
  | cons c cs =>
    cases hc : endsLine c with
    | true => simp [lineRest_of_endsLine hc, textRun, hc]
    | false => simp only [lineRest_cons hc, textRun, ofLine_untilTag c cs]

/-! ## Account names -/

theorem endsLine_of_nameEnds (h : nameEnds (c :: cs) = false) : endsLine c = false := by
  unfold nameEnds at h
  split at h
  · next heq => simp at heq
  · next heq => rw [(List.cons.inj heq).1]; rfl
  · next heq =>
    obtain ⟨rfl, -⟩ := List.cons.inj heq
    simp only [Bool.or_eq_false_iff] at h
    exact h.2

theorem onLine_nameLength : ∀ cs : List Char, OnLine (nameLength cs) cs
  | [] => Nat.zero_le _
  | c :: cs => by
    unfold nameLength
    split
    · exact Nat.zero_le _
    · next h => exact onLine_cons (endsLine_of_nameEnds (by simpa using h)) (onLine_nameLength cs)

theorem nameEnds_of_endsLine (hc : endsLine c) (cs : List Char) : nameEnds (c :: cs) = true := by
  cases hends : nameEnds (c :: cs) with
  | true => rfl
  | false => simp [endsLine_of_nameEnds hends] at hc

theorem ofLine_nameEnds : OfLine nameEnds := by
  intro cs
  cases cs with
  | nil => rfl
  | cons c cs =>
    cases hc : endsLine c with
    | true => rw [lineRest_of_endsLine hc, nameEnds_of_endsLine hc, nameEnds_nil]
    | false =>
      rw [lineRest_cons hc]
      by_cases hspace : c = ' '
      · subst hspace
        cases cs with
        | nil => rfl
        | cons d cs =>
          cases hd : endsLine d with
          | true => simp [lineRest_of_endsLine hd, nameEnds, hd]
          | false => rw [lineRest_cons hd]; rfl
      · simp [nameEnds]

theorem ofLine_nameLength : OfLine nameLength := by
  intro cs
  induction cs with
  | nil => rfl
  | cons c cs ih =>
    cases hc : endsLine c with
    | true => simp [lineRest_of_endsLine hc, nameLength, nameEnds_of_endsLine hc]
    | false =>
      have hends := ofLine_nameEnds (c :: cs)
      rw [lineRest_cons hc] at hends ⊢
      simp only [nameLength, hends, ih]

/-- What stands at the front where a name in brackets is found. -/
theorem enclosedName?_eq_some {opening closing : Char} {inner : List Char}
    (h : enclosedName? opening closing cs = some inner) :
    inner ≠ [] ∧ (∀ d ∈ inner, !(d = closing || d = ';' || endsLine d)) ∧
      ∃ ahead, cs = opening :: (inner ++ closing :: ahead) := by
  unfold enclosedName? at h
  split at h
  · simp at h
  · next c cs =>
    split at h
    · next hc =>
      simp only at h
      split at h
      · next d ahead hahead =>
        simp only [Option.ite_none_right_eq_some, Bool.and_eq_true, decide_eq_true_eq,
          Option.some.injEq] at h
        obtain ⟨⟨⟨rfl, hne⟩, -⟩, rfl⟩ := h
        exact ⟨by simpa using hne, fun _ => List.mem_takeWhile_imp, ahead,
          by rw [hc, ← eq_run_append hahead]⟩
      · simp at h
    · simp at h

theorem onLine_enclosedName? {opening closing : Char} (hopening : endsLine opening = false)
    (hclosing : endsLine closing = false) {inner : List Char}
    (h : enclosedName? opening closing cs = some inner) : OnLine (inner.length + 2) cs := by
  obtain ⟨-, hinner, ahead, rfl⟩ := enclosedName?_eq_some h
  refine onLine_enclosed hopening hclosing (fun d hd => ?_) ahead
  have hd := hinner d hd
  simp only [Bool.not_eq_true', Bool.or_eq_false_iff] at hd
  exact hd.2

theorem ofLine_enclosedName? {opening closing : Char} (hopening : endsLine opening = false)
    (hclosing : endsLine closing = false) : OfLine (enclosedName? opening closing) := by
  intro cs
  cases cs with
  | nil => rfl
  | cons c cs =>
    cases hc : endsLine c with
    | true =>
      have hne : c ≠ opening := by rintro rfl; simp [hc] at hopening
      simp [lineRest_of_endsLine hc, enclosedName?, hne]
    | false =>
      have hinner : ∀ d, (!(d = closing || d = ';' || endsLine d)) → endsLine d = false := by
        intro d hd
        simp only [Bool.not_eq_true', Bool.or_eq_false_iff] at hd
        exact hd.2
      simp only [lineRest_cons hc, enclosedName?, takeWhile_lineRest hinner, drop_run,
        drop_run_lineRest hinner]
      cases cs.dropWhile fun d => !(d = closing || d = ';' || endsLine d) with
      | nil => rfl
      | cons d after =>
        cases hd : endsLine d with
        | true =>
          have hne : d ≠ closing := by rintro rfl; simp [hd] at hclosing
          simp [lineRest_of_endsLine hd, hne]
        | false => simp only [lineRest_cons hd, ofLine_nameEnds after]

/-! ## Numbers and commodities -/

theorem endsLine_of_isDigit (h : c.isDigit) : endsLine c = false := by
  rw [Bool.eq_false_iff]
  intro hends
  simp only [endsLine, Bool.or_eq_true, decide_eq_true_eq] at hends
  rcases hends with rfl | rfl <;> exact absurd h (by decide)

theorem onLine_fractionLength (cs : List Char) : OnLine (fractionLength cs) cs := by
  unfold fractionLength
  split
  · split
    · exact Nat.zero_le _
    · exact onLine_cons rfl (onLine_takeWhile (fun _ => endsLine_of_isDigit) _)
  · exact Nat.zero_le _

theorem endsLine_of_isGroupedChar (h : c.isDigit || c = ',') : endsLine c = false := by
  rw [Bool.or_eq_true, decide_eq_true_eq] at h
  rcases h with hdigit | rfl
  · exact endsLine_of_isDigit hdigit
  · rfl

theorem onLine_groupedRun (cs : List Char) : OnLine (groupedRun cs).length cs :=
  onLine_takeWhile (fun _ => endsLine_of_isGroupedChar) cs

theorem onLine_numberLength (cs : List Char) : OnLine (numberLength cs) cs := by
  unfold numberLength
  split
  · exact onLine_fractionLength cs
  · simp only
    split
    · exact (onLine_groupedRun cs).add (onLine_fractionLength _)
    · exact Nat.zero_le _

theorem ofLine_digitRun : OfLine digitRun := ofLine_takeWhile fun _ => endsLine_of_isDigit

theorem ofLine_fractionLength : OfLine fractionLength := by
  intro cs
  cases cs with
  | nil => rfl
  | cons c cs =>
    by_cases hc : c = '.'
    · subst hc
      simp only [lineRest_cons (c := '.') rfl, fractionLength, ofLine_digitRun cs]
    · cases hends : endsLine c with
      | true => simp [lineRest_of_endsLine hends, fractionLength, hc]
      | false => simp [lineRest_cons hends, fractionLength, hc]

theorem ofLine_numberLength : OfLine numberLength := by
  intro cs
  have hgroup : ∀ c : Char, c.isDigit || c = ',' → endsLine c = false := fun _ =>
    endsLine_of_isGroupedChar
  simp only [numberLength, groupedRun, takeWhile_lineRest hgroup, drop_run,
    drop_run_lineRest hgroup, ofLine_digitRun cs, ofLine_fractionLength cs,
    ofLine_fractionLength (cs.dropWhile _)]
  rfl

theorem endsLine_of_isQuotedChar (h : isQuotedChar c) : endsLine c = false := by
  simp only [isQuotedChar, Bool.not_eq_true', Bool.or_eq_false_iff] at h
  exact h.2

/-- What stands at the front where a commodity in quotes is found. -/
theorem quotedCommodity?_eq_some {inner : List Char} (h : quotedCommodity? cs = some inner) :
    inner ≠ [] ∧ (∀ d ∈ inner, isQuotedChar d) ∧ ∃ ahead, cs = '"' :: (inner ++ '"' :: ahead) := by
  unfold quotedCommodity? at h
  split at h
  · next cs =>
    simp only at h
    split at h
    · next ahead hahead =>
      obtain ⟨hne, hinner⟩ := Option.ite_none_left_eq_some.mp h
      obtain rfl := Option.some.inj hinner
      exact ⟨by simpa using hne, fun _ => List.mem_takeWhile_imp, ahead,
        by rw [← eq_run_append hahead]⟩
    · simp at h
  · simp at h

theorem onLine_quotedCommodity? {inner : List Char} (h : quotedCommodity? cs = some inner) :
    OnLine (inner.length + 2) cs := by
  obtain ⟨-, hinner, ahead, rfl⟩ := quotedCommodity?_eq_some h
  exact onLine_enclosed rfl rfl (fun d hd => endsLine_of_isQuotedChar (hinner d hd)) ahead

theorem ofLine_quotedCommodity? : OfLine quotedCommodity? := by
  intro cs
  cases cs with
  | nil => rfl
  | cons c cs =>
    by_cases hc : c = '"'
    · subst hc
      have hquoted : ∀ c, isQuotedChar c → endsLine c = false := fun _ => endsLine_of_isQuotedChar
      simp only [lineRest_cons (c := '"') rfl, quotedCommodity?, takeWhile_lineRest hquoted,
        drop_run, drop_run_lineRest hquoted]
      cases cs.dropWhile isQuotedChar with
      | nil => rfl
      | cons d after =>
        by_cases hd : d = '"'
        · subst hd
          rw [lineRest_cons rfl]
          rfl
        · cases hends : endsLine d with
          | true => simp [lineRest_of_endsLine hends, hd]
          | false => simp [lineRest_cons hends, hd]
    · cases hends : endsLine c with
      | true => simp [lineRest_of_endsLine hends, quotedCommodity?, hc]
      | false => simp [lineRest_cons hends, quotedCommodity?, hc]

theorem endsLine_of_isCommodityChar (h : isCommodityChar c) : endsLine c = false := by
  rw [Bool.eq_false_iff]
  intro hends
  simp only [endsLine, Bool.or_eq_true, decide_eq_true_eq] at hends
  rcases hends with rfl | rfl <;> exact absurd h (by decide)

end Daybook.Lexeme
