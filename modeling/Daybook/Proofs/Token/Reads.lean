import Daybook.Proofs.Token.Append

/-!
# The way of the tokenizer

On a source the tokenizer goes one way, and every token is noted at one point of it. So of two
points that it reaches one lies in front of the other, and the text between them is read in whole
steps.

* `Reads back t s cs`: in front of `back` the tokenizer goes from the state `s` to `t` over `cs`.
* `Notes s rest t`: the next step notes the token `t`.

Results:
* `Reached.linear`: **of two states that are reached one leads to the other.**
* `Reached.unique`: in front of the same text there is one state only.
* `Reached.exists_notes`: **every token is noted in a state that is reached.**
-/

namespace Daybook

open Lexeme Text

namespace Scanner

variable {source rest back cs : List Char} {s t : Scanner}

/-! ## Whole steps -/

/-- In front of `back` the tokenizer reads a text in whole steps, and then it stands in the state
`t`. -/
inductive Reads (back : List Char) (t : Scanner) : Scanner → List Char → Prop
  /-- Nothing is left of the text. -/
  | nil : Reads back t t []
  /-- A step inside the text. -/
  | step {s : Scanner} {cs : List Char} (hne : cs ≠ [])
      (hle : (s.next (cs ++ back)).taken ≤ cs.length)
      (h : Reads back t (s.step (cs ++ back)) (cs.drop (s.next (cs ++ back)).taken)) :
    Reads back t s cs

/-- One step more. -/
theorem Reads.snoc (h : Reads rest t s cs) (hne : rest ≠ []) :
    Reads (rest.drop (t.next rest).taken) (t.step rest) s
      (cs ++ rest.take (t.next rest).taken) := by
  induction h with
  | nil =>
    have hsplit := List.take_append_drop (t.next rest).taken rest
    have hlen := List.length_take_of_le (taken_next_le (s := t) hne)
    refine .step (take_ne_nil (t.next rest).taken_pos hne) ?_ ?_
    · exact Nat.le_of_eq (by rw [List.nil_append, hsplit, hlen])
    · rw [List.nil_append, hsplit, List.drop_of_length_le (Nat.le_of_eq hlen)]
      exact .nil
  | @step s cs hcs hle _ ih =>
    have hsplit : cs ++ rest.take (t.next rest).taken ++ rest.drop (t.next rest).taken =
        cs ++ rest := by rw [List.append_assoc, List.take_append_drop]
    refine .step (List.append_ne_nil_of_left_ne_nil hcs _) ?_ ?_
    · rw [hsplit, List.length_append]
      exact Nat.le_add_right_of_le hle
    · rw [hsplit, List.drop_append_of_le_length hle]
      exact ih

/-- Every state that is reached lies behind the start. -/
theorem Reached.reads_start (h : Reached source s rest) :
    ∃ cs, source = cs ++ rest ∧ Reads rest s .start cs := by
  induction h with
  | start => exact ⟨[], rfl, .nil⟩
  | @step s rest _ hne ih =>
    obtain ⟨cs, hsource, hreads⟩ := ih
    refine ⟨cs ++ rest.take (s.next rest).taken, ?_, hreads.snoc hne⟩
    rw [List.append_assoc, List.take_append_drop, hsource]

/-- **Of two states that are reached one leads to the other.** -/
theorem Reached.linear (ht : Reached source t back) (hs : Reached source s rest) :
    (∃ cs, rest = cs ++ back ∧ Reads back t s cs) ∨
      ∃ cs, back = cs ++ rest ∧ Reads rest s t cs := by
  induction ht with
  | start => exact .inr hs.reads_start
  | @step t back _ hne ih =>
    have hsplit := List.take_append_drop (t.next back).taken back
    rcases ih with ⟨cs, rfl, hreads⟩ | ⟨cs, rfl, hreads⟩
    · refine .inl ⟨cs ++ back.take (t.next back).taken, ?_, hreads.snoc hne⟩
      rw [List.append_assoc, hsplit]
    · cases hreads with
      | nil => exact .inl ⟨_, hsplit.symm, Reads.nil.snoc hne⟩
      | step _ hle h => exact .inr ⟨_, List.drop_append_of_le_length hle, h⟩

/-- Over nothing no step goes. -/
theorem Reads.eq_of_nil (h : Reads back t s []) : s = t := by
  cases h with
  | nil => rfl
  | step hne => exact absurd rfl hne

/-- **In front of the same text there is one state only.** -/
theorem Reached.unique (hs : Reached source s rest) (ht : Reached source t rest) : s = t := by
  rcases ht.linear hs with ⟨cs, hcs, hreads⟩ | ⟨cs, hcs, hreads⟩
  · obtain rfl := List.self_eq_append_left.mp hcs
    exact hreads.eq_of_nil
  · obtain rfl := List.self_eq_append_left.mp hcs
    exact hreads.eq_of_nil.symm

/-! ## Where tokens are noted -/

/-- The next step notes this token. -/
structure Notes (s : Scanner) (rest : List Char) (t : Token) : Prop where
  tokens : (s.step rest).tokens = t :: s.tokens
  place : t.place = s.place
  image : t.image.toList = rest.take (s.next rest).taken
  next : (∃ n h, s.next rest = .newline n h) ∧ t.kind = .newline ∨
    ∃ found move, s.next rest = .token t.kind found move ∧ t.payload = found.payload

/-- What is found is noted. -/
theorem exists_notes_of_next {kind : Kind} {found : Match} {move : Move}
    (h : s.next rest = .token kind found move) : ∃ t, s.Notes rest t ∧ t.kind = kind := by
  refine ⟨⟨kind, String.ofList (rest.take found.length), s.place, found.payload⟩, ⟨?_, rfl, ?_,
    .inr ⟨found, move, h, rfl⟩⟩, rfl⟩
  · simp only [step, pass, h, record, note]
  · simp only [h, Event.taken, String.toList_ofList]

/-- A step notes one token or none. -/
theorem tokens_step (s : Scanner) (rest : List Char) :
    (s.step rest).tokens = s.tokens ∨ ∃ t, s.Notes rest t := by
  cases hnext : s.next rest with
  | layout => exact .inl (by simp only [step, pass, hnext, record])
  | newline n h =>
    refine .inr ⟨⟨.newline, String.ofList (rest.take n), s.place, none⟩, ?_, rfl, ?_,
      .inl ⟨⟨n, h, hnext⟩, rfl⟩⟩
    · simp only [step, pass, hnext, record, note]
    · simp only [hnext, Event.taken, String.toList_ofList]
  | token kind found move =>
    obtain ⟨t, hnotes, -⟩ := exists_notes_of_next hnext
    exact .inr ⟨t, hnotes⟩
  | unknownLine => exact .inl (by simp only [step, pass, hnext, record, report])
  | unexpected mode =>
    exact .inl (by simp only [step, pass, hnext, record, (s.tokens_reportMore _ mode).1])

/-- A step that notes a line break passes a line feed. -/
theorem Notes.getLast?_of_newline {t : Token} (h : s.Notes rest t)
    (hne : rest ≠ []) (hkind : t.kind = .newline) :
    (rest.take (s.next rest).taken).getLast? = some '\n' := by
  have hcomes := comes_next (s := s) hne
  rcases h.next with ⟨⟨n, hn, hnext⟩, -⟩ | ⟨found, move, hnext, -⟩
  · rw [hnext] at hcomes ⊢
    cases hcomes with
    | newline hrest hbreak hlen =>
      rw [hrest, Event.taken, ← hlen, List.take_left]
      rcases hbreak with rfl | rfl <;> rfl
  · rw [hnext] at hcomes
    cases hcomes with
    | token _ hfound => exact absurd hkind (admits_token? hfound).kind_ne

/-- A token that is no line break is what its mode finds. -/
theorem Notes.exists_found {t : Token} (h : s.Notes rest t) (hne : rest ≠ [])
    (hkind : t.kind ≠ .newline) :
    ∃ found move, s.next rest = .token t.kind found move ∧ t.payload = found.payload ∧
      s.modes.top.token? (s.view rest) = some (t.kind, found, move) := by
  have hcomes := comes_next (s := s) hne
  obtain ⟨found, move, hnext, hpayload⟩ := h.next.resolve_left fun hbreak => hkind hbreak.2
  rw [hnext] at hcomes
  cases hcomes with
  | token _ hfound => exact ⟨found, move, hnext, hpayload, hfound⟩

/-- A token that is no line break is found by its mode. -/
theorem Notes.exists_token? {t : Token} (h : s.Notes rest t) (hne : rest ≠ [])
    (hkind : t.kind ≠ .newline) :
    ∃ found move, s.modes.top.token? (s.view rest) = some (t.kind, found, move) := by
  obtain ⟨found, move, -, -, hfound⟩ := h.exists_found hne hkind
  exact ⟨found, move, hfound⟩

/-- **Every token is noted in a state that is reached**, behind the tokens in front of it. -/
theorem Reached.exists_notes (h : Reached source s rest) {us vs : List Token} {t : Token}
    (htokens : s.tokens = us ++ t :: vs) :
    ∃ s' rest', Reached source s' rest' ∧ rest' ≠ [] ∧ s'.tokens = vs ∧ s'.Notes rest' t := by
  induction h generalizing us with
  | start => exact absurd htokens (by simp [Scanner.start])
  | @step s rest hreached hne ih =>
    rcases s.tokens_step rest with hsame | ⟨u, hnotes⟩
    · exact ih (hsame.symm.trans htokens)
    · have hcons := hnotes.tokens.symm.trans htokens
      cases us with
      | nil =>
        obtain ⟨rfl, hvs⟩ := List.cons.inj hcons
        exact ⟨s, rest, hreached, hne, hvs, hnotes⟩
      | cons v us => exact ih (List.cons.inj hcons).2

/-- Every token of a source is noted behind those in front of it. -/
theorem exists_notes_of_tokenize {source : String} {pre post : List Token} {t : Token}
    (h : (tokenize source).tokens = pre ++ t :: post) :
    ∃ s rest, Reached source.toList s rest ∧ rest ≠ [] ∧ s.tokens = pre.reverse ∧
      s.Notes rest t := by
  have hfinal : Reached source.toList (start.run source.toList) [] := reached_run .start
  have htokens : (start.run source.toList).tokens = post.reverse ++ t :: pre.reverse := by
    simpa [tokenize] using congrArg List.reverse h
  exact hfinal.exists_notes htokens

/-- Every token of a source is noted somewhere. -/
theorem exists_notes_of_mem_tokenize {source : String} {t : Token}
    (h : t ∈ (tokenize source).tokens) :
    ∃ s rest, Reached source.toList s rest ∧ rest ≠ [] ∧ s.Notes rest t := by
  obtain ⟨pre, post, htokens⟩ := List.append_of_mem h
  obtain ⟨s, rest, hreached, hne, -, hnotes⟩ := exists_notes_of_tokenize htokens
  exact ⟨s, rest, hreached, hne, hnotes⟩

/-- A step loses no token. -/
theorem tokens_isSuffix_step (s : Scanner) (rest : List Char) :
    s.tokens <:+ (s.step rest).tokens := by
  rcases s.tokens_step rest with hsame | ⟨t, hnotes⟩
  · exact ⟨[], hsame.symm⟩
  · rw [hnotes.tokens]
    exact List.suffix_cons _ _

/-- The more is read, the more tokens there are. -/
theorem Reads.tokens_isSuffix (h : Reads back t s cs) : s.tokens <:+ t.tokens := by
  induction h with
  | nil => exact List.suffix_refl _
  | @step s cs _ _ _ ih => exact (s.tokens_isSuffix_step (cs ++ back)).trans ih

end Scanner

end Daybook
