import Daybook.Proofs.Token.Cut
import Daybook.Proofs.Token.Standing

/-!
# Which modes are entered

The stack takes any mode anywhere. What keeps it in order is the table of rules: a mode is entered
by a rule of the mode around it, only the innermost one is left, and a line break leaves all of
them. So the modes are always a path through the table. No such path comes back to a mode, hence
there are only a few and none is long. About `rules` and `apply` ([SPEC 11.3]).

* `Mode.Path path`: each mode is entered by a rule of the one in front of it, the first one by a
  rule for the start of a line.
* `Mode.paths`: these paths, one by one.
* `ModeStack.frames s`: all modes of a stack, the outermost one first.

Results:
* `Mode.path_iff`: the paths through the table are the listed ones.
* `path_step`: **a step leaves a path a path.**
* `Reached.path`: the modes are a path wherever the tokenizer comes.
* `frames_of_reached`: **which modes can be open**: no mode is inside itself, at most five are open.
-/

namespace Daybook

/-! ## Paths through the table -/

namespace Mode

variable {path : List Mode} {mode : Mode}

/-- The last mode of a path, which the rules are taken from. -/
def last (path : List Mode) : Mode := path.getLast?.getD .lineStart

/-- A path through the table of rules, from the start of a line. -/
inductive Path : List Mode → Prop
  /-- At the start of a line. -/
  | nil : Path []
  /-- A rule of the last mode enters one more. -/
  | enter {path : List Mode} {rule : Rule} {mode : Mode} (h : Path path)
      (hrule : rule ∈ (last path).rules) (hmove : rule.move = .enter mode) :
    Path (path ++ [mode])

/-- Leaving the last mode leads back along the path. -/
theorem Path.dropLast (h : Path path) : Path path.dropLast := by
  cases h with
  | nil => exact .nil
  | enter h => rwa [List.dropLast_concat]

/-- How a line may be read in front of a comment at its end. -/
def linePaths : List (List Mode) :=
  [[.header], [.header, .memo], [.priceDirective], [.accountDirective], [.amountLine], [.indented],
    [.indented, .amountLine]]

/-- How the comment at the end of a line may be read. -/
def commentPaths : List (List Mode) := [[], [.inlineComment], [.inlineComment, .tagValue]]

/-- All ways to read a line. A line that is a comment has no comment at its end. -/
def paths : List (List Mode) :=
  [] :: [.lineComment] :: linePaths.flatMap fun line => commentPaths.map (line ++ ·)

/-- What a rule enters from a listed path is listed, and no listed path has another origin. -/
theorem mem_paths_concat_iff : path ++ [mode] ∈ paths ↔
    path ∈ paths ∧ ∃ rule ∈ (last path).rules, rule.move = .enter mode := by
  constructor
  · have hall : ∀ p ∈ paths, p ≠ [] → p.dropLast ∈ paths ∧
        ∃ rule ∈ (last p.dropLast).rules, rule.move = .enter (last p) := by decide
    intro hmem
    obtain ⟨hfront, hrule⟩ := hall _ hmem (List.concat_ne_nil mode path)
    rw [List.dropLast_concat] at hfront hrule
    have hlast : last (path ++ [mode]) = mode := by rw [last, List.getLast?_concat]; rfl
    exact ⟨hfront, hlast ▸ hrule⟩
  · have hall : ∀ p ∈ paths, ∀ rule ∈ (last p).rules, ∀ m ∈ rule.move.entered?,
        p ++ [m] ∈ paths := by decide
    rintro ⟨hmem, rule, hrule, hmove⟩
    exact hall path hmem rule hrule mode (by rw [hmove]; rfl)

/-- **The paths through the table are the listed ones.** -/
theorem path_iff : Path path ↔ path ∈ paths := by
  constructor
  · intro h
    induction h with
    | nil => decide
    | enter _ hrule hmove ih => exact mem_paths_concat_iff.mpr ⟨ih, _, hrule, hmove⟩
  · intro hmem
    induction path using List.reverseRecOn with
    | nil => exact .nil
    | append_singleton path mode ih =>
      obtain ⟨hfront, rule, hrule, hmove⟩ := mem_paths_concat_iff.mp hmem
      exact .enter (ih hfront) hrule hmove

/-- A path is short and meets no mode twice. -/
theorem Path.bounds (h : Path path) :
    .lineStart ∉ path ∧ (Mode.lineStart :: path).Nodup ∧ path.length ≤ 4 := by
  have hall : ∀ p ∈ paths,
      .lineStart ∉ p ∧ (Mode.lineStart :: p).Nodup ∧ p.length ≤ 4 := by decide
  exact hall path (path_iff.mp h)

end Mode

/-! ## The stack as a path -/

namespace ModeStack

variable (s : ModeStack)

/-- The modes inside the outermost one, the innermost last. -/
def path : List Mode := s.inner.reverse

/-- All modes, the outermost one first. -/
def frames : List Mode := .lineStart :: s.path

@[simp] theorem length_frames : s.frames.length = s.depth := by
  simp [frames, path, depth]

@[simp] theorem last_path : Mode.last s.path = s.top := by
  rw [Mode.last, path, List.getLast?_reverse, top]

@[simp] theorem path_push (mode : Mode) : (s.push mode).path = s.path ++ [mode] :=
  List.reverse_cons

@[simp] theorem path_pop : s.pop.path = s.path.dropLast := by
  rw [pop, path, path, List.dropLast_reverse]

variable {s}

/-- A rule of the innermost mode leads along the table, or back. -/
theorem path_move (h : Mode.Path s.path) {move : Move}
    (hmove : move = .stay ∨ move ∈ s.top.rules.map Rule.move) : Mode.Path (s.move move).path := by
  cases move with
  | stay => exact h
  | enter mode =>
    obtain ⟨rule, hrule, henter⟩ := List.mem_map.mp (hmove.resolve_left Move.noConfusion)
    rw [move, path_push]
    exact h.enter (s.last_path ▸ hrule) henter
  | leave =>
    rw [move, path_pop]
    exact h.dropLast

end ModeStack

/-! ## The modes of the tokenizer -/

namespace Scanner

variable {s : Scanner} {source rest : List Char}

/-- **A step leaves a path a path.** -/
theorem path_step (h : Mode.Path s.modes.path) (hne : rest ≠ []) :
    Mode.Path (s.step rest).modes.path := by
  have hcomes := comes_next (s := s) hne
  rw [modes_step]
  generalize s.next rest = e at hcomes ⊢
  cases hcomes with
  | layout | unknownLine | unexpected => exact h
  | newline => exact .nil
  | token _ hfound => exact ModeStack.path_move h (move_of_token? hfound)

/-- **The modes are a path wherever the tokenizer comes.** -/
theorem Reached.path (h : Reached source s rest) : Mode.Path s.modes.path := by
  induction h with
  | start => exact .nil
  | step _ hne ih => exact path_step ih hne

/-- Outside all modes no token is read of the line. -/
theorem Reached.top_eq_lineStart_iff (h : Reached source s rest) :
    s.modes.top = .lineStart ↔ s.tokens = [] ∨ ∃ t ∈ s.tokens.head?, t.kind = .newline := by
  rw [h.grounded.top_eq_lineStart_iff, lineOf_eq_nil_iff]
  cases s.tokens <;> simp

/-- **The modes wherever the tokenizer comes**: the start of a line and then a path of the table, so
no mode is inside itself, at most five are open, and it is outside all of them where no token is
read of the line. -/
theorem frames_of_reached (source : String) {s : Scanner} {rest : List Char}
    (h : Reached source.toList s rest) :
    (∃ path ∈ Mode.paths, s.modes.frames = .lineStart :: path) ∧
      .lineStart ∉ s.modes.frames.tail ∧ s.modes.frames.Nodup ∧ s.modes.depth ≤ 5 ∧
      (s.modes.top = .lineStart ↔ s.tokens = [] ∨ ∃ t ∈ s.tokens.head?, t.kind = .newline) := by
  obtain ⟨hstart, hnodup, hlength⟩ := h.path.bounds
  refine ⟨⟨_, Mode.path_iff.mp h.path, rfl⟩, hstart, hnodup, ?_, h.top_eq_lineStart_iff⟩
  rw [← ModeStack.length_frames]
  exact Nat.succ_le_succ hlength

/-- In the value of a tag under a posting five modes are open. -/
theorem frames_of_reached_posting_tag :
    let s := start.run "  A  1 ; k: v".toList
    Reached "  A  1 ; k: v".toList s [] ∧
      s.modes.frames = [.lineStart, .indented, .amountLine, .inlineComment, .tagValue] ∧
      (∃ path ∈ Mode.paths, s.modes.frames = .lineStart :: path) ∧
      .lineStart ∉ s.modes.frames.tail ∧ s.modes.frames.Nodup ∧ s.modes.depth ≤ 5 ∧
      (s.modes.top = .lineStart ↔ s.tokens = [] ∨ ∃ t ∈ s.tokens.head?, t.kind = .newline) :=
  ⟨reached_run .start, by decide +kernel,
    frames_of_reached "  A  1 ; k: v" (reached_run .start)⟩

end Scanner

end Daybook
