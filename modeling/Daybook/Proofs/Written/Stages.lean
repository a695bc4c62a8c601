import Mathlib.Data.List.Forall2

/-!
# Stages that can fail

A stage takes a list element by element, and the first element that fails refuses the whole. What it
makes of a list if nothing fails is told by a relation between the two lists, and stages one after
the other are told by relations one after the other.

* `FailsWith x faults`: of these faults, in the order in which they are looked for, the first is
  returned.

Results:
* `bind_eq_ok`, `map_eq_ok`, `mapM_eq_ok_iff`: what a stage makes if it does not fail.
* `foldlM_induction`: what a loop keeps if it does not fail.
* `FailsWith.bind`, `FailsWith.map`, `FailsWith.mapM`, `FailsWith.foldlM`: what it fails with if it
  does.
* `forall₂_append_left_iff`, `forall₂_comp_iff`: **parts one behind the other, and stages one after
  the other.**
-/

namespace Daybook

/-- A step of two that both succeed. -/
theorem bind_eq_ok {ε α β : Type} {x : Except ε α} {f : α → Except ε β} {b : β} :
    (x >>= f) = .ok b ↔ ∃ a, x = .ok a ∧ f a = .ok b := by
  cases x with
  | error e => simp [bind, Except.bind]
  | ok a => simp [bind, Except.bind]

theorem map_eq_ok {ε α β : Type} {x : Except ε α} {f : α → β} {b : β} :
    f <$> x = .ok b ↔ ∃ a, x = .ok a ∧ f a = b := by
  cases x with
  | error e => simp [Functor.map, Except.map]
  | ok a => simp [Functor.map, Except.map]

theorem mapM_eq_ok_iff {ε α β : Type} {f : α → Except ε β} {as : List α} {bs : List β} :
    as.mapM f = .ok bs ↔ List.Forall₂ (fun a b => f a = .ok b) as bs := by
  induction as generalizing bs with
  | nil => simp [pure, Except.pure, eq_comm]
  | cons a as ih =>
    rw [List.mapM_cons, List.forall₂_cons_left_iff]
    simp only [bind_eq_ok, ih]
    constructor
    · rintro ⟨b, hb, cs, hcs, heq⟩
      exact ⟨b, cs, hb, hcs, (Except.ok.inj heq).symm⟩
    · rintro ⟨b, cs, hb, hcs, rfl⟩
      exact ⟨b, hb, cs, hcs, rfl⟩

theorem mapM_congr {ε α β : Type} {f g : α → Except ε β} {as : List α}
    (h : ∀ a ∈ as, f a = g a) : as.mapM f = as.mapM g := by
  induction as with
  | nil => rfl
  | cons a as ih =>
    obtain ⟨ha, has⟩ := List.forall_mem_cons.mp h
    rw [List.mapM_cons, List.mapM_cons, ha, ih has]

/-- What holds at the start of a loop and is kept by each step holds behind all that it passes. -/
theorem foldlM_induction {ε α β : Type} {f : β → α → Except ε β} {motive : List α → β → Prop}
    {as : List α} {b c : β} (start : motive [] b)
    (step : ∀ front a b c, motive front b → f b a = .ok c → motive (front ++ [a]) c)
    (h : as.foldlM f b = .ok c) : motive as c := by
  suffices hmore : ∀ front b, motive front b → as.foldlM f b = .ok c → motive (front ++ as) c from
    hmore [] b start h
  clear start h
  induction as with
  | nil =>
    intro front b hfront h
    obtain rfl := Except.ok.inj h
    rwa [List.append_nil]
  | cons a as ih =>
    intro front b hfront h
    rw [List.foldlM_cons] at h
    obtain ⟨d, hstep, hmore⟩ := bind_eq_ok.mp h
    have hall := ih (front ++ [a]) d (step front a b d hfront hstep) hmore
    rwa [List.append_assoc] at hall

/-- A change that the steps of a loop neither see nor undo can be made before it or after it. -/
theorem foldlM_comm {ε α β : Type} {f : β → α → Except ε β} {g : β → β}
    (h : ∀ b a, f (g b) a = g <$> f b a) (as : List α) (b : β) :
    as.foldlM f (g b) = g <$> as.foldlM f b := by
  induction as generalizing b with
  | nil => rfl
  | cons a as ih =>
    rw [List.foldlM_cons, List.foldlM_cons, h, map_bind, bind_map_left]
    exact congrArg _ (funext ih)

theorem forall₂_append_left_iff {α β : Type} {r : α → β → Prop} {as bs : List α} {cs : List β} :
    List.Forall₂ r (as ++ bs) cs ↔
      ∃ us vs, List.Forall₂ r as us ∧ List.Forall₂ r bs vs ∧ cs = us ++ vs := by
  induction as generalizing cs with
  | nil => simp [List.forall₂_nil_left_iff]
  | cons a as ih =>
    rw [List.cons_append, List.forall₂_cons_left_iff]
    constructor
    · rintro ⟨c, cs, hc, hcs, rfl⟩
      obtain ⟨us, vs, hus, hvs, rfl⟩ := ih.mp hcs
      exact ⟨c :: us, vs, .cons hc hus, hvs, rfl⟩
    · rintro ⟨us, vs, hus, hvs, rfl⟩
      obtain ⟨c, more, hc, hmore, rfl⟩ := List.forall₂_cons_left_iff.mp hus
      exact ⟨c, more ++ vs, hc, ih.mpr ⟨more, vs, hmore, hvs, rfl⟩, rfl⟩

theorem forall₂_comp_iff {α β γ : Type} {r : α → β → Prop} {s : β → γ → Prop} {as : List α}
    {cs : List γ} : (∃ bs, List.Forall₂ r as bs ∧ List.Forall₂ s bs cs) ↔
      List.Forall₂ (fun a c => ∃ b, r a b ∧ s b c) as cs := by
  constructor
  · rintro ⟨bs, hr, hs⟩
    induction hr generalizing cs with
    | nil => exact List.forall₂_nil_left_iff.mpr (List.forall₂_nil_left_iff.mp hs)
    | cons hab _ ih =>
      obtain ⟨c, more, hbc, hmore, rfl⟩ := List.forall₂_cons_left_iff.mp hs
      exact .cons ⟨_, hab, hbc⟩ (ih hmore)
  · intro h
    induction h with
    | nil => exact ⟨[], .nil, .nil⟩
    | cons hac _ ih =>
      obtain ⟨b, hab, hbc⟩ := hac
      obtain ⟨bs, hr, hs⟩ := ih
      exact ⟨b :: bs, .cons hab hr, .cons hbc hs⟩

/-- What two stages make of one list. -/
theorem forall₂_zip {α β γ : Type} {r : α → β → Prop} {s : α → γ → Prop} {as : List α}
    {bs : List β} {cs : List γ} (hr : List.Forall₂ r as bs) (hs : List.Forall₂ s as cs) :
    List.Forall₂ (fun a p => r a p.1 ∧ s a p.2) as (bs.zip cs) := by
  induction hr generalizing cs with
  | nil => exact .nil
  | cons hab _ ih =>
    obtain ⟨c, more, hac, hmore, rfl⟩ := List.forall₂_cons_left_iff.mp hs
    exact .cons ⟨hab, hac⟩ (ih hmore)

/-- What a stage makes comes from something. -/
theorem exists_of_mem_right {α β : Type} {r : α → β → Prop} {as : List α} {bs : List β} {b : β}
    (h : List.Forall₂ r as bs) (hb : b ∈ bs) : ∃ a ∈ as, r a b := by
  induction h with
  | nil => exact absurd hb List.not_mem_nil
  | cons hab _ ih =>
    rcases List.mem_cons.mp hb with rfl | hmore
    · exact ⟨_, List.mem_cons_self, hab⟩
    · obtain ⟨a, ha, hr⟩ := ih hmore
      exact ⟨a, List.mem_cons_of_mem _ ha, hr⟩

/-! ## Stages that fail -/

/-- If there are faults the first is returned, and something is made if there are none. -/
inductive FailsWith {ε α : Type} : Except ε α → List ε → Prop
  /-- Nothing fails. -/
  | ok (a : α) : FailsWith (.ok a) []
  /-- The first fault is returned. -/
  | error (e : ε) (more : List ε) : FailsWith (.error e) (e :: more)

namespace FailsWith

variable {ε α β : Type} {x : Except ε α} {faults more : List ε}

theorem pure (a : α) : FailsWith (Pure.pure a : Except ε α) [] := .ok a

theorem of_head? {e : ε} (h : faults.head? = some e) :
    FailsWith (.error e : Except ε α) faults := by
  obtain ⟨rest, rfl⟩ := List.head?_eq_some_iff.mp h
  exact .error e rest

/-- The faults of a second step come behind those of the first. -/
theorem bind_of_eq {f : α → Except ε β} (hx : FailsWith x faults)
    (hf : ∀ a, x = .ok a → FailsWith (f a) more) : FailsWith (x >>= f) (faults ++ more) := by
  cases hx with
  | ok a => exact hf a rfl
  | error e rest => exact .error e (rest ++ more)

theorem bind {f : α → Except ε β} (hx : FailsWith x faults) (hf : ∀ a, FailsWith (f a) more) :
    FailsWith (x >>= f) (faults ++ more) := hx.bind_of_eq fun a _ => hf a

theorem bind_pure {f : α → β} (hx : FailsWith x faults) :
    FailsWith (x >>= fun a => Pure.pure (f a)) faults := by
  have hbind := hx.bind fun a => pure (f a)
  rwa [List.append_nil] at hbind

theorem map (hx : FailsWith x faults) (f : α → β) : FailsWith (f <$> x) faults := by
  cases hx with
  | ok a => exact .ok (f a)
  | error e rest => exact .error e rest

/-- The faults of a list are those of its elements, in order. -/
theorem mapM {f : α → Except ε β} {g : α → List ε} (as : List α)
    (h : ∀ a, FailsWith (f a) (g a)) : FailsWith (as.mapM f) (as.flatMap g) := by
  induction as with
  | nil => exact .ok []
  | cons a as ih =>
    rw [List.mapM_cons, List.flatMap_cons]
    exact (h a).bind fun b => ih.bind_pure

/-- The faults of a loop are those of the elements that it passes, in order. -/
theorem foldlM {f : β → α → Except ε β} {g : α → List ε} (h : ∀ b a, FailsWith (f b a) (g a))
    (as : List α) (b : β) : FailsWith (as.foldlM f b) (as.flatMap g) := by
  induction as generalizing b with
  | nil => exact .ok b
  | cons a as ih =>
    rw [List.foldlM_cons, List.flatMap_cons]
    exact (h b a).bind ih

theorem eq_error_iff {e : ε} (h : FailsWith x faults) : x = .error e ↔ faults.head? = some e := by
  cases h <;> simp

theorem exists_ok_iff (h : FailsWith x faults) : (∃ a, x = .ok a) ↔ faults = [] := by
  cases h <;> simp

end FailsWith

end Daybook
