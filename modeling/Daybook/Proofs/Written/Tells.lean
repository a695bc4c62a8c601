import Daybook.Proofs.Tree.Spelling

/-!
# What tokens tell

A tree says its amounts, its dates and its comments each by some tokens of its own, which stand in
its spelling in the order of the source. So each of them can be looked for among the tokens, with no
tree in between.

* `Told Says ts a`: some of these tokens, in order, say `a`.
* `Tells Says A as`: each word of the language tells these things.

Results:
* `Tells.mul`, `Tells.left`, `Tells.right`, `tells_option`, `tells_list`, `tells_map`, `tells_line`:
  what a language tells that is put together from others.
-/

namespace Daybook

open Daybook.Tree

/-- Some of the tokens, in order, say this. -/
def Told {γ : Type} (Says : List Token → γ → Prop) (ts : List Token) (a : γ) : Prop :=
  ∃ us, us.Sublist ts ∧ Says us a

/-- Every word tells these things. -/
def Tells {γ : Type} (Says : List Token → γ → Prop) (A : Language Token) (as : List γ) : Prop :=
  ∀ ts ∈ A, ∀ a ∈ as, Told Says ts a

variable {α β γ : Type} {Says : List Token → γ → Prop} {A B : Language Token} {as bs : List γ}
  {a : γ} {ts us : List Token} {s : α → Language Token}

theorem Told.sublist (h : Told Says us a) (hsub : us.Sublist ts) : Told Says ts a := by
  obtain ⟨vs, hvs, hsays⟩ := h
  exact ⟨vs, hvs.trans hsub, hsays⟩

theorem tells_nil (A : Language Token) : Tells Says A [] := fun _ _ _ ha =>
  absurd ha List.not_mem_nil

theorem tells_singleton (h : ∀ ts ∈ A, Says ts a) : Tells Says A [a] := by
  intro ts hts b hb
  obtain rfl := List.mem_singleton.mp hb
  exact ⟨ts, .refl ts, h ts hts⟩

theorem Tells.mul (hA : Tells Says A as) (hB : Tells Says B bs) : Tells Says (A * B) (as ++ bs) := by
  rintro _ ⟨us, hus, vs, hvs, rfl⟩ a ha
  rcases List.mem_append.mp ha with hleft | hright
  · exact (hA us hus a hleft).sublist (List.sublist_append_left us vs)
  · exact (hB vs hvs a hright).sublist (List.sublist_append_right us vs)

/-- What tells nothing may stand behind. -/
theorem Tells.left (hA : Tells Says A as) : Tells Says (A * B) as := by
  have h : Tells Says (A * B) (as ++ []) := hA.mul (tells_nil B)
  rwa [List.append_nil] at h

/-- What tells nothing may stand in front. -/
theorem Tells.right (hB : Tells Says B bs) : Tells Says (A * B) bs := (tells_nil A).mul hB

theorem tells_option {f : α → List γ} (h : ∀ x, Tells Says (s x) (f x)) :
    ∀ o, Tells Says (spellOption s o) (o.toList.flatMap f)
  | none => tells_nil _
  | some x => by
    rw [Option.toList_some, List.flatMap_singleton]
    exact h x

/-- Some things tell what is told by each of them. -/
theorem tells_list {r : α → β → Prop} {f : β → List γ} {xs : List α} {ys : List β}
    (hs : ∀ x y, r x y → Tells Says (s x) (f y)) (h : List.Forall₂ r xs ys) :
    Tells Says (spellList s xs) (ys.flatMap f) := by
  induction h with
  | nil => exact tells_nil _
  | cons hxy _ ih => exact (hs _ _ hxy).mul ih

/-- The same where each thing is read off its own part. -/
theorem tells_map {g : α → β} {f : β → List γ} (h : ∀ x, Tells Says (s x) (f (g x)))
    (xs : List α) : Tells Says (spellList s xs) ((xs.map g).flatMap f) :=
  tells_list (r := fun x y => g x = y) (fun x _ hxy => hxy ▸ h x)
    (List.forall₂_map_right_iff.mpr (List.forall₂_same.mpr fun _ _ => rfl))

theorem tells_line {body : α → Language Token} {l : Tree.Line α}
    (h : Tells Says (body l.body) as) : Tells Says (l.spellings body) as := h.right.left

end Daybook
