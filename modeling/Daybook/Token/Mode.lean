/-!
# Modes of the tokenizer

Model of `Mode` and `ModeStack` (`top`, `depth`, `push`, `pop`, `reset`; [SPEC 11.3]). Which tokens
may come next depends on where in a line the tokenizer stands. It keeps a stack of modes whose
outermost one is always the start of a line; only the modes inside it are stored, so the outermost
one cannot be lost, and leaving it does nothing.

Results:
* `top_push`: a mode that is entered is the innermost one.
* `top_reset`: after a reset the start of a line is all that is left.
-/

namespace Daybook

/-- Where in a line the tokenizer stands. -/
inductive Mode
  /-- At the start of a line. -/
  | lineStart
  /-- In the first line of a transaction, after its date. -/
  | header
  /-- After the bar of a description. -/
  | memo
  /-- In a comment after other tokens. -/
  | inlineComment
  /-- After the colon of a tag. -/
  | tagValue
  /-- In a line that is a comment. -/
  | lineComment
  /-- After the indentation of a content line. -/
  | indented
  /-- Among amounts, prices and assertions. -/
  | amountLine
  /-- After `P`. -/
  | priceDirective
  /-- After `account`. -/
  | accountDirective
deriving DecidableEq, Repr

namespace Mode

/-- The mode in words. -/
def describe : Mode → String
  | lineStart => "line start"
  | header => "transaction header"
  | memo => "memo"
  | inlineComment => "inline comment"
  | tagValue => "tag value"
  | lineComment => "comment"
  | indented => "content line"
  | amountLine => "amount"
  | priceDirective => "price directive"
  | accountDirective => "account directive"

/-- The modes in which amounts are read. -/
def readsAmounts : Mode → Bool
  | amountLine | priceDirective => true
  | _ => false

end Mode

/-- A stack of modes over the start of a line. -/
structure ModeStack where
  /-- The modes inside the outermost one, the innermost first. -/
  inner : List Mode
deriving DecidableEq, Repr

namespace ModeStack

/-- The stack at the start of a line. -/
def start : ModeStack := ⟨[]⟩

/-- The innermost mode. -/
def top (s : ModeStack) : Mode := s.inner.head?.getD .lineStart

/-- The number of modes, the outermost one included. -/
def depth (s : ModeStack) : Nat := s.inner.length + 1

/-- Enter a mode. -/
def push (s : ModeStack) (mode : Mode) : ModeStack := ⟨mode :: s.inner⟩

/-- Leave the innermost mode, unless it is the outermost one. -/
def pop (s : ModeStack) : ModeStack := ⟨s.inner.tail⟩

/-- Leave all modes but the outermost one. -/
def reset (_ : ModeStack) : ModeStack := start

theorem top_push (s : ModeStack) (mode : Mode) : (s.push mode).top = mode := rfl

theorem top_reset (s : ModeStack) : s.reset.top = .lineStart := rfl

end ModeStack

end Daybook
