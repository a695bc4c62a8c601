/-!
# Fields of a text

A text is cut at every separator: account names at `:` (`segments`), dates at `/`, `-` and `.`
(`date_len`, `resolve_date`). There is always one more field than there are separators, and fields
may be empty.

Results:
* `fields_ne_nil`: every text has a field.
* `length_fields`: one field more than separators.
* `fields_append_cons`, `exists_of_fields_eq_cons`: the first field reaches up to the first
  separator.
* `intercalate_fields`: with the separator between them the fields are the text.
-/

namespace Daybook.Text

/-- The pieces of a text between the characters that are separators. -/
def fields (isSeparator : Char → Bool) : List Char → List (List Char)
  | [] => [[]]
  | c :: cs =>
    if isSeparator c then [] :: fields isSeparator cs
    else
      match fields isSeparator cs with
      | [] => [[c]]
      | f :: fs => (c :: f) :: fs

theorem fields_ne_nil (p : Char → Bool) : ∀ cs, fields p cs ≠ []
  | [] => by simp [fields]
  | c :: cs => by
    unfold fields
    split
    · simp
    · split <;> simp

/-- **There is one field more than there are separators.** -/
theorem length_fields (p : Char → Bool) :
    ∀ cs, (fields p cs).length = cs.countP p + 1
  | [] => rfl
  | c :: cs => by
    have ih := length_fields p cs
    unfold fields
    split
    · next h => simp [h, ih]
    · next h =>
      split
      · next hnil => exact absurd hnil (fields_ne_nil p cs)
      · next f fs hcons =>
        rw [hcons] at ih
        simpa [h] using ih

theorem fields_eq_splitOnP (p : Char → Bool) (cs : List Char) : fields p cs = cs.splitOnP p := by
  induction cs with
  | nil => rfl
  | cons c cs ih =>
    rw [fields, List.splitOnP_cons_eq_if_modifyHead, ih]
    split
    · rfl
    · cases h : cs.splitOnP p with
      | nil => exact absurd h (List.splitOnP_ne_nil p cs)
      | cons => rfl

theorem fields_of_forall {p : Char → Bool} {f : List Char} (h : ∀ c ∈ f, p c = false) :
    fields p f = [f] := by
  rw [fields_eq_splitOnP, List.splitOnP_eq_singleton h]

/-- The first field reaches up to the first separator. -/
theorem fields_append_cons {p : Char → Bool} {f : List Char} {c : Char}
    (h : ∀ c ∈ f, p c = false) (hc : p c) (cs : List Char) :
    fields p (f ++ c :: cs) = f :: fields p cs := by
  rw [fields_eq_splitOnP, fields_eq_splitOnP, List.splitOnP_append_cons_of_forall_mem h c hc]

/-- What has one field has no separator. -/
theorem eq_of_fields_eq_singleton {p : Char → Bool} {cs f : List Char} (h : fields p cs = [f]) :
    cs = f := by
  have hcount := length_fields p cs
  rw [h, List.length_singleton, eq_comm, Nat.add_eq_right, List.countP_eq_zero] at hcount
  rw [fields_of_forall fun c hc => by simpa using hcount c hc] at h
  exact List.singleton_inj.mp h

/-- Behind the first of several fields stands a separator, and then the others. -/
theorem exists_of_fields_eq_cons {p : Char → Bool} {cs f g : List Char} {fs : List (List Char)}
    (h : fields p cs = f :: g :: fs) :
    ∃ c rest, p c ∧ cs = f ++ c :: rest ∧ fields p rest = g :: fs := by
  induction cs generalizing f with
  | nil => simp [fields] at h
  | cons d cs ih =>
    unfold fields at h
    split at h
    · next hd =>
      obtain ⟨rfl, hrest⟩ := List.cons.inj h
      exact ⟨d, cs, hd, rfl, hrest⟩
    · split at h
      · simp at h
      · next e es hcons =>
        obtain ⟨rfl, rfl⟩ := List.cons.inj h
        obtain ⟨c, rest, hc, rfl, hrest⟩ := ih hcons
        exact ⟨c, rest, hc, rfl, hrest⟩

/-- **With the separator between them the fields are the text.** -/
theorem intercalate_fields (c : Char) (cs : List Char) :
    [c].intercalate (fields (· = c) cs) = cs := by
  rw [fields_eq_splitOnP]
  exact List.intercalate_splitOn c

/-- No field holds a separator. -/
theorem separator_of_mem_fields {p : Char → Bool} {cs f : List Char} {c : Char}
    (hf : f ∈ fields p cs) (hc : c ∈ f) : p c = false := by
  induction cs generalizing f with
  | nil =>
    rw [List.mem_singleton.mp hf] at hc
    exact absurd hc List.not_mem_nil
  | cons d cs ih =>
    unfold fields at hf
    split at hf
    · rcases List.mem_cons.mp hf with rfl | hmore
      · exact absurd hc List.not_mem_nil
      · exact ih hmore hc
    · next hd =>
      split at hf
      · next hnil => exact absurd hnil (fields_ne_nil p cs)
      · next g gs hcons =>
        rcases List.mem_cons.mp hf with rfl | hmore
        · rcases List.mem_cons.mp hc with rfl | hin
          · simpa using hd
          · exact ih (hcons ▸ List.mem_cons_self) hin
        · exact ih (hcons ▸ List.mem_cons_of_mem g hmore) hc

end Daybook.Text
