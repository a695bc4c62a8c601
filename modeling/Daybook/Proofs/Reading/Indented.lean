import Daybook.Proofs.Reading.Moved
import Daybook.Proofs.Token.Indented

/-!
# A journal does not depend on how its lines are indented

If the spaces and tabs in front of a line are replaced by others, the same journal is read and the
same is reported: the indentation is replaced, and each line is moved as a whole. About
`parse_to_cooked_with`; `scan_indent` alone sees the indentation.

Results:
* `movesLines_indented`: lines in front stay, the others are moved by what the indentation is
  longer.
* `readJournal_indented`: **the same tokens, faults, items and journal are read.**
-/

namespace Daybook

open Daybook.Text Daybook.Lexeme

/-- **Lines in front stay**, the others are moved by what the indentation is longer. -/
theorem movesLines_indented (line : Nat) (run : List Char) :
    MovesLines (·.indented line run) fun l => if l < line then 0 else run.length - 1 where
  kind := Token.kind_indented line run
  payload := Token.payload_indented line run
  image _ hindent := Token.image_indented fun h => hindent h.1
  offset {t} _ hindent := by
    rw [Token.indented_of_not fun h => hindent h.1]
    by_cases hline : t.place.line < line
    · rw [if_pos hline, Place.indented_of_lt hline]
      rfl
    · rw [if_neg hline]
      exact Place.offset_indented (Nat.not_lt.mp hline)

/-- **A journal does not depend on how its lines are indented.** With other spaces and tabs in front
of a line the same tokens stand in the same lines, and only the indentation itself has another text.
The same faults are reported, and the same items and the same journal are read, or the source is
refused for the same reason, whatever the year. -/
theorem readJournal_indented (front run run' after : List Char) (hfront : WholeLines front)
    (hrun : run ∈ someOf isLayout) (hrun' : run' ∈ someOf isLayout)
    (hafter : ∀ c ∈ after.head?, isLayout c = false) :
    let source := String.ofList (front ++ run ++ after)
    let other := String.ofList (front ++ run' ++ after)
    List.Forall₂ (fun t u => u.kind = t.kind ∧ u.payload = t.payload ∧
        u.place.line = t.place.line ∧
          if t.kind = .indent ∧ t.place.line = front.count '\n' + 1 then
            t.image = String.ofList run ∧ u.image = String.ofList run'
          else u.image = t.image)
      (tokenize source).tokens (tokenize other).tokens ∧
    List.Forall₂ (fun f g => g.cause = f.cause ∧ g.message = f.message ∧
        g.place.line = f.place.line ∧ g.length = f.length)
      (tokenize source).faults (tokenize other).faults ∧
    List.Forall₂ (fun f g => g.cause = f.cause ∧ g.message = f.message ∧
        g.context = f.context ∧ g.hint = f.hint)
      (readTree source).parseFaults (readTree other).parseFaults ∧
    (fun r => r.result.items.map (·.value)) <$> readWritten other =
      (fun r => r.result.items.map (·.value)) <$> readWritten source ∧
    ∀ year, Reading.result <$> readJournal year other =
      Reading.result <$> readJournal year source := by
  have hstream := tokenize_indented hfront hrun hafter
  have hstream' := tokenize_indented hfront hrun' hafter
  have hchain := isChain_tokenize (String.ofList (front ++ ' ' :: after))
  intro source other
  simp only [readTree, values_readWritten, result_readJournal, source, other, hstream, hstream']
  generalize front.count '\n' + 1 = line
  generalize tokenize (String.ofList (front ++ ' ' :: after)) = spaced at hchain
  have hmoves := movesLines_indented line run
  have hmoves' := movesLines_indented line run'
  have hitems := (hmoves'.mapM_ofTree hchain).trans (hmoves.mapM_ofTree hchain).symm
  refine ⟨?_, ?_, ?_, hitems, fun year => ?_⟩
  · rw [List.forall₂_map_left_iff, List.forall₂_map_right_iff, List.forall₂_same]
    intro t _
    simp only [Token.kind_indented, Token.payload_indented, Token.line_indented, true_and]
    by_cases hindent : t.kind = .indent ∧ t.place.line = line
    · simp only [Token.indented, if_pos hindent, and_self]
    · rw [if_neg hindent, Token.image_indented hindent, Token.image_indented hindent]
  · rw [List.forall₂_map_left_iff, List.forall₂_map_right_iff, List.forall₂_same]
    intro f _
    have hline : (f.indented line run').place.line = (f.indented line run).place.line :=
      (Place.line_indented line _ f.place).trans (Place.line_indented line _ f.place).symm
    exact ⟨rfl, rfl, hline, rfl⟩
  · have hsame := forall₂_comp_iff.mp ⟨_, (hmoves.faults spaced.tokens).flip,
      hmoves'.faults spaced.tokens⟩
    refine hsame.imp ?_
    rintro g g' ⟨f, ⟨hcause, hcontext, hhint⟩, hcause', hcontext', hhint'⟩
    have heq : g'.cause = g.cause := hcause'.trans hcause.symm
    exact ⟨heq, congrArg ParseCause.message heq, hcontext'.trans hcontext.symm,
      hhint'.trans hhint.symm⟩
  · rw [hitems]

/-- A comment that a tab indents instead of two spaces. -/
theorem readJournal_indented_tab :
    Reading.result <$> readJournal 2024 "D 1 EUR\n\t; note\n" =
      .ok ⟨[], [], [], [], some ⟨⟨false, 1, 0, by decide, by decide⟩, some "EUR"⟩⟩ :=
  ((readJournal_indented "D 1 EUR\n".toList "  ".toList "\t".toList "; note\n".toList
    (by decide) ⟨List.cons_ne_nil _ _, List.all_eq_true.mp (by decide)⟩
    ⟨List.cons_ne_nil _ _, List.all_eq_true.mp (by decide)⟩ (by simp [isLayout])).2.2.2.2
      2024).trans (by decide +kernel)

end Daybook
