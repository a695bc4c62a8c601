import Daybook.Journal.OfWritten
import Daybook.Token.Stream
import Daybook.Written.OfTree

/-!
# Reading a source

Model of `parse_to_cst`, `parse_to_raw` and `parse_to_cooked_with` with their results ([SPEC 6],
[SPEC 14]). A source is read in four stages: tokens, tree, written journal, journal. What the first
two pass over is reported beside the result; a fault of the last two refuses the source ([SPEC 7]).

Out of scope: `parse_to_cooked` and `lower_to_cooked`, which ask for the current year and are else
the same.
-/

namespace Daybook

/-- What was read of a source, and what was passed over. -/
structure Reading (α : Type) where
  /-- What was read. -/
  result : α
  /-- The faults of the tokenizer, in order. -/
  scanFaults : List ScanFault
  /-- The faults of the grammar, in order. -/
  parseFaults : List ParseFault
deriving DecidableEq

namespace Reading

/-- Change what was read. -/
def withResult {α β : Type} (r : Reading α) (b : β) : Reading β := ⟨b, r.scanFaults, r.parseFaults⟩

/-- Whether nothing was passed over. -/
def isClean {α : Type} (r : Reading α) : Bool := r.scanFaults.isEmpty && r.parseFaults.isEmpty

end Reading

/-- The items of a source as a tree. -/
def readTree (source : String) : Reading (List (Located Tree.Item)) :=
  let stream := tokenize source
  let tree := Tree.ofTokens stream.tokens
  ⟨tree.items, stream.faults, tree.faults⟩

/-- The written journal of a source. -/
def readWritten (source : String) : Except JournalFault (Reading Written.Journal) :=
  let reading := readTree source
  reading.withResult <$> Written.Journal.ofTree reading.result

/-- The journal of a source, where a missing year is this one. -/
def readJournal (year : Int) (source : String) : Except JournalFault (Reading Journal) := do
  let reading ← readWritten source
  reading.withResult <$> Journal.ofWritten year reading.result

end Daybook
