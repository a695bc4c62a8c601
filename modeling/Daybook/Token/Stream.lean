import Daybook.Token.Fault
import Daybook.Token.Rule

/-!
# The tokens of a source

Model of `LexSession` (`run`, `step`, `emit`, `recover`, `push_error`) and of `tokenize` ([SPEC
4.1]). The tokenizer goes through the source once. Each step looks at what comes next in the current
mode (`Scanner.next`): layout, a line break, a token, or text that nothing reads. The step takes at
least one character, so the source runs out.

* `Scanner.next` is the choice that `step` makes, and `Scanner.record` what it notes or reports;
  `unknownLine` is `recover` at the start of a line, and `reportMore` is `recover` elsewhere.
* A scanner carries its `Place` along. The session counts its lines and notes where the last one
  starts (`start_line`, `column`); `Counted.column?` shows that this is the same place.
* `Scanner.step` takes characters from the rest as far as there are any. No step asks for more than
  there are (`taken_next_le`), so no slice of the session is out of bounds.

Out of scope: log events ([SPEC 12.1]).

Results:
* `Event.taken_pos`: every step takes something.
* `Scanner.run_cons`: the equation of one step.
-/

namespace Daybook

open Lexeme Text

/-- What comes next in the source. -/
inductive Event
  /-- Spaces and tabs between tokens, or on an empty line. -/
  | layout (length : Nat) (length_pos : 0 < length)
  /-- A line break. -/
  | newline (length : Nat) (length_pos : 0 < length)
  /-- A token. -/
  | token (kind : Kind) (found : Match) (move : Move)
  /-- A line that starts like no item of a journal, and the characters of the break after it. -/
  | unknownLine (length : Nat) (breakLength : Nat) (length_pos : 0 < length)
  /-- A character that starts nothing in its mode. -/
  | unexpected (mode : Mode)

namespace Event

/-- Characters that the event takes. -/
def taken : Event → Nat
  | layout length _ => length
  | newline length _ => length
  | token _ found _ => found.length
  | unknownLine length breakLength _ => length + breakLength
  | unexpected _ => 1

/-- **Every event takes something.** -/
theorem taken_pos : ∀ e : Event, 0 < e.taken
  | layout _ h => h
  | newline _ h => h
  | token _ found _ => found.length_pos
  | unknownLine _ _ h => Nat.add_pos_left h _
  | unexpected _ => Nat.one_pos

end Event

/-- The spaces and tabs that a mode passes over. At the start of a line they mean something unless
the line is empty, and in a comment line they belong to the text. -/
def Mode.layoutLength : Mode → List Char → Nat
  | lineStart, cs => emptyLineLength cs
  | lineComment, _ => 0
  | _, cs => Lexeme.layoutLength cs

/-- What becomes of a line whose start is not recognised: its text up to a line feed or carriage
return, and the break if one follows. A carriage return that breaks no line stands for itself. -/
def unknownLine (cs : List Char) : Event :=
  let text := lineRest cs
  if h : 0 < text.length then .unknownLine text.length (newlineLength (cs.drop text.length)) h
  else .unknownLine 1 0 Nat.one_pos

/-- How far the tokenizer has come. -/
structure Scanner where
  /-- The last character read. -/
  before : Option Char
  /-- The place after it. -/
  place : Place
  /-- The modes entered. -/
  modes : ModeStack
  /-- The tokens found, the last one first. -/
  tokens : List Token
  /-- The faults found, the last one first. -/
  faults : List ScanFault

namespace Scanner

/-- At the start of a source. -/
def start : Scanner := ⟨none, .start, .start, [], []⟩

/-- What the rules look at. -/
def view (s : Scanner) (rest : List Char) : View := ⟨rest, s.before, s.place.offset, s.tokens⟩

/-- What comes next. -/
def next (s : Scanner) (rest : List Char) : Event :=
  let mode := s.modes.top
  if h : 0 < mode.layoutLength rest then .layout _ h
  else if h : 0 < newlineLength rest then .newline _ h
  else
    match mode.token? (s.view rest) with
    | some (kind, found, move) => .token kind found move
    | none => if mode = .lineStart then unknownLine rest else .unexpected mode

/-- Move on over a text. -/
def pass (s : Scanner) (text : List Char) : Scanner :=
  { s with before := text.getLast?.or s.before, place := s.place.advance text }

/-- Note a token at the current place. -/
def note (s : Scanner) (kind : Kind) (image : List Char) (payload : Option Payload) : Scanner :=
  { s with tokens := ⟨kind, String.ofList image, s.place, payload⟩ :: s.tokens }

/-- Report a text at the current place. -/
def report (s : Scanner) (text : List Char) (cause : ScanCause) : Scanner :=
  { s with faults := ⟨s.place, byteLength text, cause⟩ :: s.faults }

/-- Report a character in the middle of a line, in one fault with the characters right before it. -/
def reportMore (s : Scanner) (text : List Char) (mode : Mode) : Scanner :=
  match s.faults with
  | last :: faults =>
    if last.stop = s.place.offset && last.place.line = s.place.line then
      { s with faults := { last with length := last.length + byteLength text } :: faults }
    else s.report text (.unexpected mode)
  | [] => s.report text (.unexpected mode)

/-- What an event leaves behind before the text is passed. -/
def record (s : Scanner) (rest : List Char) : Event → Scanner
  | .layout _ _ => s
  | .newline length _ =>
    { s.note .newline (rest.take length) none with modes := s.modes.reset }
  | .token kind found move =>
    { s.note kind (rest.take found.length) found.payload with modes := s.modes.move move }
  | .unknownLine length _ _ =>
    s.report (rest.take length) (.unknownLine (String.ofList (rest.take length)))
  | .unexpected mode => s.reportMore (rest.take 1) mode

/-- One step. -/
def step (s : Scanner) (rest : List Char) : Scanner :=
  (s.record rest (s.next rest)).pass (rest.take (s.next rest).taken)

/-- All steps up to the end of the source. -/
def run (s : Scanner) : List Char → Scanner
  | [] => s
  | c :: cs => (s.step (c :: cs)).run (cs.drop ((s.next (c :: cs)).taken - 1))
termination_by rest => rest.length
decreasing_by simp only [List.length_drop, List.length_cons]; omega

theorem run_nil (s : Scanner) : s.run [] = s := by rw [run]

/-- **The equation of one step.** -/
theorem run_cons (s : Scanner) (c : Char) (cs : List Char) :
    s.run (c :: cs) = (s.step (c :: cs)).run ((c :: cs).drop (s.next (c :: cs)).taken) := by
  rw [run]
  obtain ⟨n, hn⟩ : ∃ n, (s.next (c :: cs)).taken = n + 1 :=
    ⟨_, (Nat.sub_add_cancel (s.next (c :: cs)).taken_pos).symm⟩
  rw [hn, List.drop_succ_cons, Nat.add_sub_cancel]

end Scanner

/-- What the tokenizer makes of a source. -/
structure TokenStream where
  /-- The tokens, in order. -/
  tokens : List Token
  /-- The faults, in order. -/
  faults : List ScanFault
deriving DecidableEq, Repr

/-- The tokens and the faults of a source. -/
def tokenize (source : String) : TokenStream :=
  let final := Scanner.start.run source.toList
  ⟨final.tokens.reverse, final.faults.reverse⟩

end Daybook
