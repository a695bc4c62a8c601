import Daybook.Proofs.Tree.Production
import Daybook.Proofs.Tree.Spelling
import Daybook.Tree.Grammar

/-!
# The grammar reads what the productions say

Every parser of the grammar is tied to its production: it succeeds on nothing else, and where its
words are followed by a token that cannot go on with them it takes them whole. So no ordered choice
and no greedy option loses a reading. For each combinator this rests on one condition that can be
computed: a part must not start with a kind that could still belong to the part in front of it.

* `Reads ok p s P stop`: `p` reads the trees with `ok`, spelled as `s` says; the kinds of their
  tokens are the words of `P`; and `p` may go on at the kinds in `stop`.

Results:
* `Reads.bind`: **one part after another.**
* `Reads.orElse`, `Reads.choice`, `Reads.maybe`: one part or another, or none.
* `Reads.many`: a part as often as it can be taken.
-/

namespace Daybook.Tree

open RegularExpression Daybook.Tree.Parser Production

/-- The list does not start with one of these kinds. -/
def Avoids (kinds : List Kind) (ts : List Token) : Prop := ∀ t ∈ ts.head?, t.kind ∉ kinds

/-- What a parser reads. -/
structure Reads {α : Type} (ok : α → Prop) (p : Parser α) (s : α → Language Token)
    (P : RegularExpression Kind) (stop : List Kind) : Prop where
  /-- What is read is spelled by the tokens taken. -/
  sound : ∀ {ts rest : List Token} {a : α}, (p ts).result = some (a, rest) →
    ok a ∧ ∃ front ∈ s a, front ++ rest = ts
  /-- What is spelled is read, unless it could go on. -/
  complete : ∀ {front rest : List Token} {a : α}, ok a → front ∈ s a → Avoids stop rest →
    (p (front ++ rest)).result = some (a, rest)
  /-- The kinds of a spelling are a word of the production, and every such word is spelled. -/
  kinds : ∀ ts : List Token, ts.map Token.kind ∈ P.matches' ↔ ∃ a, ok a ∧ ts ∈ s a

variable {α β : Type} {ok : α → Prop} {p q : Parser α} {s s' : α → Language Token}
  {P Q : RegularExpression Kind} {stop stop' : List Kind} {ts rest front : List Token}

theorem avoids_append (hrest : Avoids stop rest) (hfront : Avoids stop front) :
    Avoids stop (front ++ rest) := by
  cases front with
  | nil => exact hrest
  | cons t front => exact hfront

theorem Avoids.mono (h : Avoids stop ts) (hsub : ∀ kind ∈ stop', kind ∈ stop) : Avoids stop' ts :=
  fun t ht hkind => h t ht (hsub t.kind hkind)

namespace Reads

/-- A spelling starts with one of the kinds that the production starts with. -/
theorem firsts (h : Reads ok p s P stop) {a : α} (ha : ok a) (hfront : front ∈ s a) :
    ∀ t ∈ front.head?, t.kind ∈ Production.firsts P := by
  have hword := (h.kinds front).mpr ⟨a, ha, hfront⟩
  intro t ht
  refine mem_firsts hword t.kind ?_
  rw [List.head?_map, Option.mem_def.mp ht]
  rfl

theorem ne_nil (h : Reads ok p s P stop) (hP : P.matchEpsilon = false) {a : α} (ha : ok a)
    (hfront : front ∈ s a) : front ≠ [] := by
  rintro rfl
  have hnil := (nil_mem_iff P).mp ((h.kinds []).mpr ⟨a, ha, hfront⟩)
  rw [hP] at hnil
  exact absurd hnil (by decide)

/-- Where a production starts with one kind only, so do its spellings. -/
theorem exists_head (h : Reads ok p s P stop) (hP : P.matchEpsilon = false) {kind : Kind}
    (hkind : Production.firsts P = [kind]) {a : α} (ha : ok a) (hfront : front ∈ s a) :
    ∃ t us, front = t :: us ∧ t.kind = kind := by
  obtain ⟨t, us, rfl⟩ := List.exists_cons_of_ne_nil (h.ne_nil hP ha hfront)
  have hfirst := h.firsts ha hfront t rfl
  rw [hkind] at hfirst
  exact ⟨t, us, rfl, List.mem_singleton.mp hfirst⟩

/-- The parser fails where its production cannot start. -/
theorem fails (h : Reads ok p s P stop) (hP : P.matchEpsilon = false)
    (hts : Avoids (Production.firsts P) ts) : (p ts).result = none := by
  cases hresult : (p ts).result with
  | none => rfl
  | some reply =>
    obtain ⟨a, rest⟩ := reply
    obtain ⟨ha, front, hfront, rfl⟩ := h.sound hresult
    obtain ⟨t, front, rfl⟩ := List.exists_cons_of_ne_nil (h.ne_nil hP ha hfront)
    exact absurd (h.firsts ha hfront t rfl) (hts t rfl)

/-- The same, said otherwise. -/
theorem congr (h : Reads ok p s P stop) (hs : ∀ a, ok a → s a = s' a)
    (hP : P.matches' = Q.matches') (hstop : ∀ kind ∈ stop, kind ∈ stop' := by decide) :
    Reads ok p s' Q stop' where
  sound hresult := by
    obtain ⟨ha, front, hfront, happend⟩ := h.sound hresult
    exact ⟨ha, front, hs _ ha ▸ hfront, happend⟩
  complete ha hfront hrest := h.complete ha ((hs _ ha).symm ▸ hfront) (hrest.mono hstop)
  kinds ts := by
    rw [← hP, h.kinds]
    constructor
    · rintro ⟨a, ha, hts⟩
      exact ⟨a, ha, hs a ha ▸ hts⟩
    · rintro ⟨a, ha, hts⟩
      exact ⟨a, ha, (hs a ha).symm ▸ hts⟩

end Reads

/-! ## Combinators -/

theorem reads_satisfy {test : Kind → Bool}
    (hP : ∀ word, word ∈ P.matches' ↔ ∃ kind, word = [kind] ∧ test kind) :
    Reads (fun _ => True) (satisfy test) (spell test) P [] where
  sound {ts rest t} h := by
    refine ⟨trivial, [t], ?_⟩
    unfold satisfy at h
    split at h
    · simp at h
    · split at h
      · next htest =>
        simp only [Option.some.injEq, Prod.mk.injEq] at h
        obtain ⟨rfl, rfl⟩ := h
        exact ⟨⟨rfl, htest⟩, rfl⟩
      · simp at h
  complete {front rest t} _ hfront _ := by
    obtain ⟨rfl, htest⟩ := hfront
    show (satisfy test (t :: rest)).result = _
    rw [satisfy, if_pos htest]
  kinds ts := by
    rw [hP]
    constructor
    · rintro ⟨kind, hword, htest⟩
      obtain ⟨t, rfl, rfl⟩ := List.map_eq_singleton_iff.mp hword
      exact ⟨t, trivial, rfl, htest⟩
    · rintro ⟨t, -, rfl, htest⟩
      exact ⟨t.kind, rfl, htest⟩

theorem reads_token (kind : Kind) :
    Reads (fun _ => True) (token kind) (spellKind kind) (char kind) [] := by
  refine reads_satisfy fun word => ?_
  constructor
  · intro hword
    obtain rfl : word = [kind] := hword
    exact ⟨kind, rfl, by simp⟩
  · rintro ⟨k, rfl, hk⟩
    obtain rfl : k = kind := by simpa using hk
    rfl

theorem reads_pure {b : β} {ok : β → Prop} (hok : ∀ c, ok c ↔ c = b) :
    Reads ok (pure b) (fun _ => 1) 1 [] where
  sound {ts rest c} h := by
    obtain ⟨rfl, rfl⟩ := Prod.mk.injEq .. ▸ Option.some.inj h
    exact ⟨(hok _).mpr rfl, [], rfl, rfl⟩
  complete {front rest c} hc hfront _ := by
    obtain rfl := (hok c).mp hc
    obtain rfl := (Language.mem_one front).mp hfront
    rfl
  kinds ts := by
    constructor
    · intro hword
      obtain rfl : ts = [] := List.map_eq_nil_iff.mp hword
      exact ⟨b, (hok b).mpr rfl, rfl⟩
    · rintro ⟨c, -, hts⟩
      obtain rfl := (Language.mem_one ts).mp hts
      rfl

/-- A choice goes on to what starts otherwise. -/
theorem Reads.skip (h : Reads ok p s P stop) (f : α → β) (r : Parser β)
    (hP : P.matchEpsilon = false) (hts : Avoids (Production.firsts P) ts) :
    (orElse (f <$> p) r ts).result = (r ts).result :=
  result_orElse_of_none (result_map_of_none f (h.fails hP hts))

/-- A choice stays with what is spelled. -/
theorem Reads.take (h : Reads ok p s P stop) (f : α → β) (r : Parser β) {a : α} (ha : ok a)
    (hfront : front ∈ s a) (hrest : Avoids stop rest) :
    (orElse (f <$> p) r (front ++ rest)).result = some (f a, rest) :=
  result_orElse_of_eq (result_map_of_eq f (h.complete ha hfront hrest))

theorem map_mem_mul {ts : List Token} : ts.map Token.kind ∈ (P * Q).matches' ↔
    ∃ us vs, us.map Token.kind ∈ P.matches' ∧ vs.map Token.kind ∈ Q.matches' ∧ us ++ vs = ts := by
  constructor
  · intro h
    obtain ⟨u, hu, v, hv, happend⟩ := Language.mem_mul.mp h
    obtain ⟨us, vs, rfl, rfl, rfl⟩ := List.map_eq_append_iff.mp happend.symm
    exact ⟨us, vs, hu, hv, rfl⟩
  · rintro ⟨us, vs, hus, hvs, rfl⟩
    rw [List.map_append]
    exact Language.append_mem_mul hus hvs

/-- **One part after another.** The second part must not start with a kind with which the first may
go on. -/
theorem Reads.bind {f : α → Parser β} {okb : β → Prop} (part : β → α) {sb : β → Language Token}
    {stopb : List Kind} (hp : Reads (fun _ => True) p s P stop)
    (hf : ∀ a, Reads (fun b => okb b ∧ part b = a) (f a) sb Q stopb)
    (hstop : ∀ kind ∈ Production.firsts Q, kind ∉ stop := by decide) :
    Reads okb (p >>= f) (fun b => s (part b) * sb b) (P * Q)
      (if Q.matchEpsilon then stop ++ stopb else stopb) where
  sound h := by
    obtain ⟨a, mid, ha, hb⟩ := result_bind h
    obtain ⟨-, u, hu, rfl⟩ := hp.sound ha
    obtain ⟨⟨hok, rfl⟩, v, hv, rfl⟩ := (hf a).sound hb
    exact ⟨hok, u ++ v, Language.append_mem_mul hu hv, List.append_assoc ..⟩
  complete {front rest b} hb hfront hrest := by
    obtain ⟨u, hu, v, hv, rfl⟩ := Language.mem_mul.mp hfront
    have hnext : Avoids stop (v ++ rest) := by
      cases v with
      | nil =>
        have hnil := (nil_mem_iff Q).mp (((hf (part b)).kinds []).mpr ⟨b, ⟨hb, rfl⟩, hv⟩)
        rw [if_pos hnil] at hrest
        exact hrest.mono fun kind hkind => List.mem_append_left _ hkind
      | cons t v => exact fun u hu => hstop _ ((hf (part b)).firsts ⟨hb, rfl⟩ hv u hu)
    have hlast : Avoids stopb rest := by
      split at hrest
      · exact hrest.mono fun kind hkind => List.mem_append_right _ hkind
      · exact hrest
    rw [List.append_assoc, result_bind_of_eq (hp.complete trivial hu hnext)]
    exact (hf (part b)).complete ⟨hb, rfl⟩ hv hlast
  kinds ts := by
    rw [map_mem_mul]
    constructor
    · rintro ⟨us, vs, hus, hvs, rfl⟩
      obtain ⟨a, -, hu⟩ := (hp.kinds us).mp hus
      obtain ⟨b, ⟨hb, rfl⟩, hv⟩ := ((hf a).kinds vs).mp hvs
      exact ⟨b, hb, Language.append_mem_mul hu hv⟩
    · rintro ⟨b, hb, hts⟩
      obtain ⟨us, hus, vs, hvs, rfl⟩ := Language.mem_mul.mp hts
      exact ⟨us, vs, (hp.kinds us).mpr ⟨_, trivial, hus⟩,
        ((hf (part b)).kinds vs).mpr ⟨b, ⟨hb, rfl⟩, hvs⟩, rfl⟩

theorem Reads.map (h : Reads ok p s P stop) (f : α → β) (sb : β → Language Token)
    (hs : ∀ a, sb (f a) = s a) : Reads (fun b => ∃ a, ok a ∧ f a = b) (f <$> p) sb P stop where
  sound hresult := by
    obtain ⟨a, mid, ha, hb⟩ := result_bind hresult
    obtain ⟨rfl, rfl⟩ := Prod.mk.injEq .. ▸ Option.some.inj hb
    obtain ⟨hok, front, hfront, happend⟩ := h.sound ha
    exact ⟨⟨a, hok, rfl⟩, front, (hs a).symm ▸ hfront, happend⟩
  complete := by
    rintro front rest b ⟨a, ha, rfl⟩ hfront hrest
    exact result_bind_of_eq (h.complete ha (hs a ▸ hfront) hrest)
  kinds ts := by
    rw [h.kinds]
    constructor
    · rintro ⟨a, ha, hts⟩
      exact ⟨f a, ⟨a, ha, rfl⟩, (hs a).symm ▸ hts⟩
    · rintro ⟨b, ⟨a, ha, rfl⟩, hts⟩
      exact ⟨a, ha, hs a ▸ hts⟩

/-- **One part or the other.** The first must fail where the second is to be taken. -/
theorem Reads.orElse {ok' okb : α → Prop} {sb : α → Language Token} (hp : Reads ok p s P stop)
    (hq : Reads ok' q s' Q stop')
    (hfails : ∀ a front rest, ok' a → front ∈ s' a → Avoids stop' rest →
      (p (front ++ rest)).result = none)
    (hs : ∀ a ts, okb a ∧ ts ∈ sb a ↔ (ok a ∧ ts ∈ s a) ∨ (ok' a ∧ ts ∈ s' a)) :
    Reads okb (orElse p q) sb (P + Q) (stop ++ stop') where
  sound h := by
    rcases result_orElse h with hleft | ⟨-, hright⟩
    · obtain ⟨ha, front, hfront, happend⟩ := hp.sound hleft
      obtain ⟨hb, hspelled⟩ := (hs _ _).mpr (.inl ⟨ha, hfront⟩)
      exact ⟨hb, front, hspelled, happend⟩
    · obtain ⟨ha, front, hfront, happend⟩ := hq.sound hright
      obtain ⟨hb, hspelled⟩ := (hs _ _).mpr (.inr ⟨ha, hfront⟩)
      exact ⟨hb, front, hspelled, happend⟩
  complete {front rest a} hb hfront hrest := by
    rcases (hs a front).mp ⟨hb, hfront⟩ with ⟨ha, hleft⟩ | ⟨ha, hright⟩
    · exact result_orElse_of_eq
        (hp.complete ha hleft (hrest.mono fun kind hkind => List.mem_append_left _ hkind))
    · have hstop : Avoids stop' rest := hrest.mono fun kind hkind => List.mem_append_right _ hkind
      rw [result_orElse_of_none (hfails a front rest ha hright hstop)]
      exact hq.complete ha hright hstop
  kinds ts := by
    rw [matches'_add, Language.mem_add, hp.kinds, hq.kinds]
    constructor
    · rintro (⟨a, hleft⟩ | ⟨a, hright⟩)
      · exact ⟨a, (hs a ts).mpr (.inl hleft)⟩
      · exact ⟨a, (hs a ts).mpr (.inr hright)⟩
    · rintro ⟨a, hts⟩
      rcases (hs a ts).mp hts with hleft | hright
      · exact .inl ⟨a, hleft⟩
      · exact .inr ⟨a, hright⟩

/-- Two parts that start otherwise. -/
theorem Reads.choice {ok' okb : α → Prop} {sb : α → Language Token} (hp : Reads ok p s P stop)
    (hq : Reads ok' q s' Q stop') (hP : P.matchEpsilon = false) (hQ : Q.matchEpsilon = false)
    (hs : ∀ a ts, okb a ∧ ts ∈ sb a ↔ (ok a ∧ ts ∈ s a) ∨ (ok' a ∧ ts ∈ s' a))
    (hfirst : ∀ kind ∈ Production.firsts Q, kind ∉ Production.firsts P := by decide) :
    Reads okb (Parser.orElse p q) sb (P + Q) (stop ++ stop') := by
  refine hp.orElse hq (fun a front rest ha hfront _ => ?_) hs
  obtain ⟨t, front, rfl⟩ := List.exists_cons_of_ne_nil (hq.ne_nil hQ ha hfront)
  exact hp.fails hP fun u hu => hfirst _ (hq.firsts ha hfront u hu)

/-- Two kinds of the same thing. -/
theorem Reads.either {ok' : α → Prop} (hp : Reads ok p s P stop) (hq : Reads ok' q s Q stop')
    (hP : P.matchEpsilon = false) (hQ : Q.matchEpsilon = false)
    (hfirst : ∀ kind ∈ Production.firsts Q, kind ∉ Production.firsts P := by decide) :
    Reads (fun a => ok a ∨ ok' a) (Parser.orElse p q) s (P + Q) (stop ++ stop') :=
  hp.choice hq hP hQ (fun _ _ => or_and_right) hfirst

theorem Reads.maybe (h : Reads (fun _ => True) p s P stop) (hP : P.matchEpsilon = false) :
    Reads (fun _ => True) (maybe p) (spellOption s) (optional P)
      (stop ++ Production.firsts P) := by
  have hsome : Reads (fun o => ∃ a, True ∧ some a = o) (some <$> p) (spellOption s) P stop :=
    h.map some (spellOption s) fun _ => rfl
  have hnone : Reads (· = none) (pure none : Parser (Option α)) (fun _ => 1) 1
      (Production.firsts P) :=
    (reads_pure fun _ => Iff.rfl).congr (fun _ _ => rfl) rfl (by simp)
  refine (hsome.orElse hnone ?_ ?_).congr
    (fun _ _ => rfl) ?_ fun _ hkind => hkind
  · intro a front rest _ hfront hrest
    obtain rfl := (Language.mem_one front).mp hfront
    exact result_bind_of_none (h.fails hP hrest)
  · rintro (- | a) ts <;> simp [spellOption]
  · show (P + 1).matches' = (1 + P).matches'
    rw [matches'_add, matches'_add, add_comm]

/-- The words of a repetition are the spellings of lists. -/
theorem Reads.kinds_star (h : Reads (fun _ => True) p s P stop) (ts : List Token) :
    ts.map Token.kind ∈ P.star.matches' ↔ ∃ as, ts ∈ spellList s as := by
  constructor
  · intro hword
    refine flatten_induction (P := fun word => ∀ ts : List Token, ts.map Token.kind = word →
      ∃ as, ts ∈ spellList s as) ?_ ?_ hword ts rfl
    · intro ts hts
      obtain rfl := List.map_eq_nil_iff.mp hts
      exact ⟨[], rfl⟩
    · intro u v hu _ ih ts hts
      obtain ⟨us, vs, rfl, rfl, rfl⟩ := List.map_eq_append_iff.mp hts
      obtain ⟨a, -, ha⟩ := (h.kinds us).mp hu
      obtain ⟨as, has⟩ := ih vs rfl
      exact ⟨a :: as, Language.append_mem_mul ha has⟩
  · rintro ⟨as, hts⟩
    rw [matches'_star]
    induction as generalizing ts with
    | nil =>
      obtain rfl := (Language.mem_one ts).mp hts
      exact Language.nil_mem_kstar _
    | cons a as ih =>
      obtain ⟨u, hu, v, hv, rfl⟩ := Language.mem_mul.mp hts
      rw [List.map_append]
      exact append_mem_kstar ((h.kinds u).mpr ⟨a, trivial, hu⟩) (ih v hv)

/-- What is refused is never read. -/
theorem Reads.orElse_refuse (h : Reads ok p s P stop) (q : Parser β) (cause : Refusal) :
    Reads ok (Parser.orElse p (refuse q cause)) s P stop where
  sound hresult := by
    rcases result_orElse hresult with hleft | ⟨-, hright⟩
    · exact h.sound hleft
    · rw [result_refuse] at hright
      exact absurd hright (by simp)
  complete ha hfront hrest := result_orElse_of_eq (h.complete ha hfront hrest)
  kinds := h.kinds

/-- A parser that is taken as often as it can be. -/
theorem Reads.many (h : Reads (fun _ => True) p s P stop) (hP : P.matchEpsilon = false)
    (hstop : ∀ kind ∈ Production.firsts P, kind ∉ stop := by decide) :
    Reads (fun _ => True) (many p) (spellList s) P.star (stop ++ Production.firsts P) where
  sound {ts rest as} hresult := by
    refine ⟨trivial, ?_⟩
    change (repeatOn p ts).result = some (as, rest) at hresult
    fun_induction repeatOn p ts generalizing as rest with
    | case1 ts hfail =>
      obtain ⟨rfl, rfl⟩ := Prod.mk.injEq .. ▸ Option.some.inj hresult
      exact ⟨[], rfl, rfl⟩
    | case2 =>
      rename_i ts a mid ha hlt more ih
      obtain ⟨⟨bs, left⟩, hmore, heq⟩ := Option.map_eq_some_iff.mp hresult
      obtain ⟨rfl, rfl⟩ := Prod.mk.injEq .. ▸ heq
      obtain ⟨-, u, hu, rfl⟩ := h.sound ha
      obtain ⟨v, hv, rfl⟩ := ih hmore
      exact ⟨u ++ v, Language.append_mem_mul hu hv, List.append_assoc ..⟩
    | case3 ts a mid ha hlt =>
      obtain ⟨-, u, hu, rfl⟩ := h.sound ha
      have hpos := List.length_pos_of_ne_nil (h.ne_nil hP trivial hu)
      rw [List.length_append] at hlt
      omega
  complete {front rest as} _ hfront hrest := by
    show (repeatOn p (front ++ rest)).result = _
    induction as generalizing front with
    | nil =>
      obtain rfl := (Language.mem_one front).mp hfront
      rw [List.nil_append, repeatOn,
        h.fails hP (hrest.mono fun kind hkind => List.mem_append_right _ hkind)]
    | cons a as ih =>
      obtain ⟨u, hu, v, hv, rfl⟩ := Language.mem_mul.mp hfront
      have hnext : Avoids stop (v ++ rest) := by
        refine avoids_append (hrest.mono fun kind hkind => List.mem_append_left _ hkind) ?_
        intro t ht
        refine hstop _ (mem_firsts ((h.kinds_star v).mpr ⟨as, hv⟩) t.kind ?_)
        rw [List.head?_map, Option.mem_def.mp ht]
        rfl
      have hpos := List.length_pos_of_ne_nil (h.ne_nil hP trivial hu)
      rw [List.append_assoc, repeatOn, h.complete trivial hu hnext]
      have hlt : (v ++ rest).length < (u ++ (v ++ rest)).length := by
        rw [List.length_append, List.length_append, List.length_append]
        omega
      simp only [if_pos hlt, ih hv]
      rfl
  kinds ts := by
    simp only [true_and]
    exact h.kinds_star ts

end Daybook.Tree
