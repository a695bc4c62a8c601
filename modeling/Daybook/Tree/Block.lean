import Daybook.Token.Basic

/-!
# Blocks of a token list

A block is a line and the indented lines under it, up to the next line that is not indented. No item
of a journal reaches past the end of its block, so blocks can be read one by one, and what is broken
in one block leaves the others alone. `journal` reads the tokens straight through;
`ofTokens_eq_readThrough` shows that this is the same.

Results:
* `flatten_blocks`: **no token is lost**: the blocks in order are the token list.
* `ne_nil_of_mem_blocks`: no block is empty.
* `blocks_append`: where a block ends between two lists, the blocks of both are those of each.
-/

namespace Daybook.Tree

/-- Whether a block ends between two tokens: after a line break, unless the next line is
indented. -/
def endsBlock (t u : Token) : Bool := t.kind = .newline && u.kind ≠ .indent

/-- The blocks with one more token in front. -/
def addToken (t : Token) : List (List Token) → List (List Token)
  | [] => [[t]]
  | block :: more =>
    if block.head?.any (endsBlock t) then [t] :: block :: more else (t :: block) :: more

/-- The blocks of a token list. -/
def blocks (ts : List Token) : List (List Token) := ts.foldr addToken []

theorem blocks_cons (t : Token) (ts : List Token) : blocks (t :: ts) = addToken t (blocks ts) := rfl

theorem flatten_addToken (t : Token) : ∀ bs, (addToken t bs).flatten = t :: bs.flatten
  | [] => rfl
  | block :: more => by
    rw [addToken]
    split <;> rfl

/-- One more token goes into the first block or in front of it. -/
theorem addToken_append (t : Token) {bs : List (List Token)} (h : bs ≠ [])
    (cs : List (List Token)) : addToken t (bs ++ cs) = addToken t bs ++ cs := by
  cases bs with
  | nil => exact absurd rfl h
  | cons block more =>
    rw [List.cons_append, addToken, addToken]
    split <;> rfl

/-- **No token is lost.** -/
theorem flatten_blocks (ts : List Token) : (blocks ts).flatten = ts := by
  induction ts with
  | nil => rfl
  | cons t ts ih => rw [blocks_cons, flatten_addToken, ih]

theorem blocks_ne_nil {ts : List Token} (h : ts ≠ []) : blocks ts ≠ [] := fun hnil =>
  h (by rw [← flatten_blocks ts, hnil]; rfl)

/-- The first block starts with the first token. -/
theorem exists_blocks_cons (t : Token) (ts : List Token) :
    ∃ block more, blocks (t :: ts) = (t :: block) :: more := by
  rw [blocks_cons]
  unfold addToken
  split
  · exact ⟨_, _, rfl⟩
  · split <;> exact ⟨_, _, rfl⟩

/-- No block is empty. -/
theorem ne_nil_of_mem_blocks {ts block : List Token} (h : block ∈ blocks ts) : block ≠ [] := by
  induction ts generalizing block with
  | nil => exact absurd h List.not_mem_nil
  | cons t ts ih =>
    rw [blocks_cons] at h
    unfold addToken at h
    split at h
    · exact List.mem_singleton.mp h ▸ List.cons_ne_nil _ _
    · next first more hblocks =>
      rw [hblocks] at ih
      split at h
      · rcases List.mem_cons.mp h with rfl | hmem
        · exact List.cons_ne_nil _ _
        · exact ih hmem
      · rcases List.mem_cons.mp h with rfl | hmem
        · exact List.cons_ne_nil _ _
        · exact ih (List.mem_cons_of_mem _ hmem)

/-- **Where a block ends between two lists, the blocks of both are those of each.** -/
theorem blocks_append {ts us : List Token}
    (h : ∀ t ∈ ts.getLast?, ∀ u ∈ us.head?, endsBlock t u) :
    blocks (ts ++ us) = blocks ts ++ blocks us := by
  induction ts with
  | nil => rfl
  | cons t ts ih =>
    rw [List.cons_append, blocks_cons, blocks_cons]
    cases ts with
    | nil =>
      cases us with
      | nil => rfl
      | cons u us =>
        obtain ⟨block, more, hblocks⟩ := exists_blocks_cons u us
        have hends : endsBlock t u := h t rfl u rfl
        rw [List.nil_append, hblocks]
        simp [addToken, blocks, hends]
    | cons s ts =>
      have hlast : ∀ t' ∈ (s :: ts).getLast?, ∀ u ∈ us.head?, endsBlock t' u := fun t' ht' =>
        h t' (by rw [List.getLast?_cons_cons]; exact ht')
      rw [ih hlast, addToken_append t (blocks_ne_nil (List.cons_ne_nil _ _))]

end Daybook.Tree
