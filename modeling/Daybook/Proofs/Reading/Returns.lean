import Daybook.Proofs.Reading.Moved
import Daybook.Proofs.Token.Returns

/-!
# A journal does not depend on how its lines end

If every line feed of a source gets a carriage return, the same journal is read, and the same is
reported about the same places: line breaks are replaced, and each line is moved as a whole. About
`newline_len` and `parse_to_cooked_with`.

Results:
* `movesLines_returned`: a line is moved by a byte for each line in front of it.
* `readJournal_withReturns`: **the same tokens, faults and journal are read.**
-/

namespace Daybook

open Daybook.Text Daybook.Tree

variable {ts : List Token}

theorem image_returned {t : Token} (hkind : t.kind ≠ .newline) : t.returned.image = t.image :=
  if_neg hkind

/-- **A line is moved** by a byte for each line in front of it. -/
theorem movesLines_returned : MovesLines Token.returned (· - 1) where
  kind _ := rfl
  payload _ := rfl
  image hbreak _ := image_returned hbreak
  offset _ _ := rfl

theorem faults_returned (ts : List Token) :
    List.Forall₂ ParseFault.SaysSame (Tree.ofTokens ts).faults
      (Tree.ofTokens (ts.map Token.returned)).faults := movesLines_returned.faults ts

theorem mapM_ofTree_returned (hchain : ts.IsChain Token.Precedes) :
    ((Tree.ofTokens (ts.map Token.returned)).items.map (·.value)).mapM Written.Item.ofTree =
      ((Tree.ofTokens ts).items.map (·.value)).mapM Written.Item.ofTree :=
  movesLines_returned.mapM_ofTree hchain

/-- **A journal does not depend on how its lines end.** With a carriage return in front of every
line feed the same tokens stand in the same lines and columns, the same faults are reported, and the
same journal is read, whatever the year. -/
theorem readJournal_withReturns (source : String) (hreturn : '\r' ∉ source.toList) :
    let returned := String.ofList (withReturns source.toList)
    List.Forall₂ (fun t u => u.kind = t.kind ∧ u.place.line = t.place.line ∧
        u.place.column = t.place.column ∧ u.payload = t.payload ∧
          (t.kind ≠ .newline → u.image = t.image))
      (tokenize source).tokens (tokenize returned).tokens ∧
    List.Forall₂ (fun f g => g.place.line = f.place.line ∧ g.place.column = f.place.column ∧
        g.length = f.length ∧ g.message = f.message)
      (tokenize source).faults (tokenize returned).faults ∧
    List.Forall₂ (fun f g => g.cause = f.cause ∧ g.context = f.context ∧ g.hint = f.hint)
      (readTree source).parseFaults (readTree returned).parseFaults ∧
    ∀ year, Reading.result <$> readJournal year returned =
      Reading.result <$> readJournal year source := by
  have hstream := tokenize_withReturns hreturn
  refine ⟨?_, ?_, ?_, fun year => ?_⟩
  · rw [hstream, List.forall₂_map_right_iff, List.forall₂_same]
    exact fun t _ => ⟨rfl, rfl, rfl, rfl, image_returned⟩
  · rw [hstream, List.forall₂_map_right_iff, List.forall₂_same]
    exact fun f _ => ⟨rfl, rfl, rfl, rfl⟩
  · simp only [readTree, hstream]
    exact faults_returned _
  · simp only [result_readJournal, readTree, hstream]
    rw [mapM_ofTree_returned (isChain_tokenize source)]

/-- A default commodity whose line ends in a carriage return and a line feed. -/
theorem readJournal_default_withReturns :
    Reading.result <$> readJournal 2024 "D 1 EUR\r\n" =
      .ok ⟨[], [], [], [], some ⟨⟨false, 1, 0, by decide, by decide⟩, some "EUR"⟩⟩ :=
  ((readJournal_withReturns "D 1 EUR\n" (by decide)).2.2.2 2024).trans (by decide +kernel)

end Daybook
