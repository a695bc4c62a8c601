import Daybook.Proofs.Tree.Near
import Daybook.Tree.Segment

/-!
# What is reported lies in what was given up

A region of tokens that is given up is reported by the furthest test that failed. That test may
belong to the item in front, whose next line could not be read, or to any rule that was tried where
the region starts. Either way it lies in the first line of the region. About `skip_item` and the
errors that it leaves.

* `Closed ts`: the last line is ended.
* `firstLine ts`: the tokens up to the first line break.
* `BehindBreak rest ts`: what is left of `ts` starts a line.
* `Failure.InFirstLine`: the failure lies in the first line of these tokens.
* `Failure.PointsAt f taken behind`: `f` points into the first line of the region `taken`, or at its
  end if that lacks its line break and nothing comes behind it.
* `Failure.Reports f taken ts`: `f` points at a token of the region `taken`, or behind it where the
  region is the end of `ts` and lacks its line break.

Results:
* `behindBreak_brokenRest`: behind a region that is given up a line starts.
* `inFirstLine_of_segmentsAfter`: what is reported lies in the first line of what was left.
* `pointsAt_of_segments`: **every region that is given up is reported in its first line.**
* `refusesToken_of_mem_segments`: what is reported as refused is no line break.
-/

namespace Daybook.Tree

open Daybook.Tree.Parser

variable {ts rest taken more front behind : List Token} {f g : Failure} {sofar : Option Failure}
  {n t : Token} {as bs : List Segment}

/-! ## Closed lists -/

/-- The last token, if there is one, is a line break. -/
def Closed (ts : List Token) : Prop := ∀ t ∈ ts.getLast?, t.kind = .newline

theorem Closed.of_isSuffix (h : Closed ts) (hrest : rest <:+ ts) : Closed rest := by
  obtain ⟨front, rfl⟩ := hrest
  intro t ht
  refine h t ?_
  rw [List.getLast?_append, Option.mem_def.mp ht]
  rfl

/-- A closed list ends in a line break. -/
theorem Closed.exists_break (h : Closed ts) (hne : ts ≠ []) :
    ∃ n, n.kind = .newline ∧ [n] <:+ ts := by
  obtain ⟨n, hn⟩ : ∃ n, ts.getLast? = some n := ⟨_, List.getLast?_eq_some_getLast hne⟩
  obtain ⟨front, rfl⟩ := List.getLast?_eq_some_iff.mp hn
  exact ⟨n, h n hn, List.suffix_append _ _⟩

/-- A block is closed unless it is the last. -/
theorem closed_of_mem_dropLast {block : List Token} (hblock : block ∈ (blocks ts).dropLast) :
    Closed block := by
  induction ts generalizing block with
  | nil => exact absurd hblock List.not_mem_nil
  | cons t ts ih =>
    rw [blocks_cons] at hblock
    cases hblocks : blocks ts with
    | nil =>
      rw [hblocks] at hblock
      exact absurd hblock List.not_mem_nil
    | cons first tail =>
      have hne : first ≠ [] := ne_nil_of_mem_blocks (hblocks ▸ List.mem_cons_self)
      rw [hblocks] at ih
      rw [hblocks, addToken] at hblock
      split at hblock
      · next hends =>
        rcases List.mem_cons.mp hblock with rfl | hmem
        · -- the block ends here because the token is a line break
          obtain ⟨u, hu⟩ : ∃ u, first.head? = some u := ⟨_, List.head?_eq_some_head hne⟩
          rw [hu] at hends
          simp only [Option.any_some, endsBlock, Bool.and_eq_true, decide_eq_true_eq] at hends
          rintro _ ⟨⟩
          exact hends.1
        · exact ih hmem
      · cases tail with
        | nil => exact absurd hblock List.not_mem_nil
        | cons second tail =>
          rcases List.mem_cons.mp hblock with rfl | hmem
          · intro t' ht'
            rw [List.getLast?_cons_of_ne_nil hne] at ht'
            exact ih List.mem_cons_self t' ht'
          · exact ih (List.mem_cons_of_mem _ hmem)

/-! ## The first line -/

/-- The failure lies in the first line of the tokens, at its end at the latest. -/
structure Failure.InFirstLine (f : Failure) (ts : List Token) : Prop where
  isSuffix : f.rest <:+ ts
  line : ∀ {n : Token} {more : List Token}, n.kind = .newline → n :: more <:+ ts →
    n :: more <:+ f.rest

/-- The failure does not lie behind the first line of the tokens. -/
def Failure.NotBehind (f : Failure) (ts : List Token) : Prop := ts <:+ f.rest ∨ f.InFirstLine ts

theorem Failure.inFirstLine_self (refusal : Option Refusal) :
    (⟨ts, refusal⟩ : Failure).InFirstLine ts := ⟨List.suffix_refl ts, fun _ hsuffix => hsuffix⟩

/-- Behind a line break the next line is the first. -/
theorem Failure.NotBehind.tail (h : f.NotBehind (n :: ts)) (hn : n.kind = .newline) :
    f.NotBehind ts := by
  have hrest : n :: ts <:+ f.rest := by
    rcases h with hpassed | hfirst
    · exact hpassed
    · exact hfirst.line hn (List.suffix_refl _)
  exact .inl ((List.suffix_cons n ts).trans hrest)

theorem Failure.notBehind_of_isSuffix (hf : f.rest <:+ ts) (hrest : rest <:+ ts)
    (hline : ∀ {n : Token} {more : List Token}, n.kind = .newline → n :: more <:+ rest →
      n :: more <:+ f.rest) : f.NotBehind rest :=
  (List.suffix_or_suffix_of_suffix hrest hf).imp_right fun h => ⟨h, hline⟩

/-- The tokens up to the first line break, and the break. -/
def firstLine : List Token → List Token
  | [] => []
  | t :: ts => if t.kind = .newline then [t] else t :: firstLine ts

theorem firstLine_isPrefix (ts : List Token) : firstLine ts <+: ts := by
  induction ts with
  | nil => exact List.prefix_refl _
  | cons t ts ih =>
    rw [firstLine]
    split
    · exact ⟨ts, rfl⟩
    · exact List.cons_prefix_cons.mpr ⟨rfl, ih⟩

/-- In front of its break the first line goes on. -/
theorem firstLine_append (h : ∀ t ∈ front, t.kind ≠ .newline) (ts : List Token) :
    firstLine (front ++ ts) = front ++ firstLine ts := by
  induction front with
  | nil => rfl
  | cons t front ih =>
    obtain ⟨ht, hfront⟩ := List.forall_mem_cons.mp h
    rw [List.cons_append, firstLine, if_neg ht, ih hfront]
    rfl

/-- Behind its break it does not. -/
theorem firstLine_append_of_break (hn : n ∈ taken) (hkind : n.kind = .newline) (ts : List Token) :
    firstLine (taken ++ ts) = firstLine taken := by
  induction taken with
  | nil => exact absurd hn List.not_mem_nil
  | cons t taken ih =>
    rw [List.cons_append, firstLine, firstLine]
    split
    · rfl
    · next ht =>
      have hmem : n ∈ taken := (List.mem_cons.mp hn).resolve_left fun heq => ht (heq ▸ hkind)
      rw [ih hmem]

theorem mem_firstLine_cons (t : Token) (ts : List Token) : t ∈ firstLine (t :: ts) := by
  rw [firstLine]
  split <;> exact List.mem_cons_self

/-! ## The furthest failure -/

theorem Failure.furthest_mem (first next : Failure) :
    first.furthest next = first ∨ first.furthest next = next := by
  unfold Failure.furthest
  split
  · exact .inr rfl
  · exact .inl rfl

theorem Failure.foldl_furthest_mem (first : Failure) (more : List Failure) :
    more.foldl Failure.furthest first ∈ first :: more := by
  induction more generalizing first with
  | nil => exact List.mem_cons_self
  | cons next more ih =>
    have hmem := ih (first.furthest next)
    rcases List.mem_cons.mp hmem with heq | hmore
    · rw [List.foldl_cons, heq]
      rcases first.furthest_mem next with h | h <;> simp [h]
    · exact List.mem_cons_of_mem _ (List.mem_cons_of_mem _ hmore)

theorem Failure.furthest?_mem {fs : List Failure} (h : f ∈ Failure.furthest? fs) : f ∈ fs := by
  cases fs with
  | nil => simp [Failure.furthest?] at h
  | cons first more =>
    obtain rfl := Option.some.inj h
    exact Failure.foldl_furthest_mem first more

theorem Failure.length_rest_le (f : Failure) : f.rest.length ≤ f.ahead + 1 := by
  obtain ⟨rest, refusal⟩ := f
  cases refusal with
  | none =>
    simp only [ahead, List.length_tail]
    omega
  | some cause => exact Nat.le_succ _

/-- A failure that lies further back gives way to the test for an empty line. -/
theorem Failure.furthest_self (h : f.NotBehind (t :: ts)) :
    (f.furthest ⟨t :: ts, none⟩).InFirstLine (t :: ts) := by
  rcases f.furthest_mem ⟨t :: ts, none⟩ with hf | hself
  · rw [hf]
    rcases h with hpassed | hfirst
    · have hlen : f.rest.length ≤ (t :: ts).length := by
        unfold Failure.furthest at hf
        split at hf
        · exact Nat.le_of_eq (by rw [← hf])
        · next hkept =>
          have hahead : f.ahead ≤ ts.length := by simpa [Failure.ahead] using hkept
          exact Nat.le_trans f.length_rest_le (Nat.succ_le_succ hahead)
      have heq : t :: ts = f.rest := hpassed.eq_of_length_le hlen
      rw [heq]
      exact ⟨List.suffix_refl _, fun _ hsuffix => hsuffix⟩
    · exact hfirst
  · rw [hself]
    exact Failure.inFirstLine_self none

/-- The furthest failure lies in what was given, and not behind the first line of what is left, if
the failures that it is chosen from do. -/
theorem furthestAt_near {fs : List Failure} (hsofar : ∀ f ∈ sofar, f.NotBehind (t :: ts))
    (hrest : rest <:+ t :: ts) (hsuffix : ∀ g ∈ fs, g.rest <:+ t :: ts)
    (hline : ∀ g ∈ fs, ∀ {n : Token} {more : List Token}, n.kind = .newline → n :: more <:+ rest →
      n :: more <:+ g.rest) :
    (furthestAt sofar (t :: ts) fs).rest <:+ t :: ts ∧
      ∀ {n : Token} {more : List Token}, n.kind = .newline → n :: more <:+ rest →
        n :: more <:+ (furthestAt sofar (t :: ts) fs).rest := by
  have hstart : ((sofar.getD ⟨t :: ts, none⟩).furthest ⟨t :: ts, none⟩).InFirstLine (t :: ts) := by
    refine Failure.furthest_self ?_
    cases sofar with
    | none => exact .inr (Failure.inFirstLine_self none)
    | some f => exact hsofar f rfl
  unfold furthestAt
  rcases List.mem_cons.mp (Failure.foldl_furthest_mem _ fs) with heq | hmem
  · rw [heq]
    exact ⟨hstart.isSuffix, fun hn hbreak => hstart.line hn (hbreak.trans hrest)⟩
  · exact ⟨hsuffix _ hmem, hline _ hmem⟩

/-- The furthest failure refuses a token, if those that it is chosen from do. -/
theorem refusesToken_furthestAt {fs : List Failure} (hsofar : ∀ f ∈ sofar, f.RefusesToken)
    (hfs : ∀ g ∈ fs, g.RefusesToken) : (furthestAt sofar ts fs).RefusesToken := by
  have hself := Failure.refusesToken_of_none ts
  have hstart : (sofar.getD ⟨ts, none⟩).RefusesToken := by
    cases sofar with
    | none => exact hself
    | some f => exact hsofar f rfl
  unfold furthestAt
  rcases List.mem_cons.mp (Failure.foldl_furthest_mem _ fs) with heq | hmem
  · rw [heq]
    rcases Failure.furthest_mem (sofar.getD ⟨ts, none⟩) ⟨ts, none⟩ with h | h
    · rwa [h]
    · rwa [h]
  · exact hfs _ hmem

/-! ## Regions -/

/-- What is repeated fails on what is left. -/
theorem Parser.result_left_many {α : Type} (p : Parser α) [Takes p] (ts : List Token) :
    (p ((many p).left ts)).result = none := by
  fun_induction repeatOn p ts with
  | case1 ts hnone => rwa [left_many_of_none hnone]
  | case2 =>
    rename_i ts a mid ha hlt more ih
    rwa [left_many p ha hlt]
  | case3 ts a mid ha hlt => exact absurd (p.length_lt ha) hlt

/-- Nothing is left, or what is left stands right behind a line break. -/
def BehindBreak (rest ts : List Token) : Prop :=
  rest = [] ∨ ∃ n : Token, n.kind = .newline ∧ n :: rest <:+ ts

theorem BehindBreak.of_isSuffix (h : BehindBreak rest more) (hmore : more <:+ ts) :
    BehindBreak rest ts := by
  rcases h with rfl | ⟨n, hn, hsuffix⟩
  · exact .inl rfl
  · exact .inr ⟨n, hn, hsuffix.trans hmore⟩

namespace Grammar

/-- The end of a line and its break. -/
theorem exists_lineEnd (ts : List Token) : ∃ skipped rest newline more,
    (restOfLine ts).result = some (skipped, rest) ∧
      (maybe (token .newline) rest).result = some (newline, more) ∧ BehindBreak more ts := by
  have : Sure restOfLine := sure_many _
  obtain ⟨skipped, rest, hskipped⟩ := Sure.exists_result (p := restOfLine) ts
  have hrest : rest <:+ ts := restOfLine.isSuffix hskipped
  have hstop : (satisfy (· ≠ .newline) rest).result = none := by
    rw [← left_of_eq hskipped]
    exact Parser.result_left_many _ ts
  cases rest with
  | nil => exact ⟨skipped, [], none, [], hskipped, rfl, .inl rfl⟩
  | cons n more =>
    have hn : n.kind = .newline := by
      by_cases hn : n.kind = .newline
      · exact hn
      · simp [satisfy, hn] at hstop
    have hbreak : (maybe (token .newline) (n :: more)).result = some (some n, more) := by
      refine result_orElse_of_eq (result_map_of_eq some ?_)
      simp [token, satisfy, hn]
    exact ⟨skipped, n :: more, some n, more, hskipped, hbreak, .inr ⟨n, hn, hrest⟩⟩

theorem behindBreak_brokenLine {u : Unit} (h : (brokenLine ts).result = some (u, rest)) :
    BehindBreak rest ts := by
  obtain ⟨indent, mid, hindent, hline⟩ := result_bind h
  obtain ⟨skipped, more, newline, left, hskipped, hnewline, hbehind⟩ := exists_lineEnd mid
  have hresult := (result_bind_of_eq hskipped).symm.trans hline
  replace hresult := (result_bind_of_eq hnewline).symm.trans hresult
  obtain ⟨-, rfl⟩ := Prod.mk.injEq .. ▸ Option.some.inj hresult
  exact hbehind.of_isSuffix ((token .indent).isSuffix hindent)

theorem behindBreak_brokenLines (ts : List Token) :
    (many brokenLine).left ts = ts ∨ BehindBreak ((many brokenLine).left ts) ts := by
  fun_induction repeatOn brokenLine ts with
  | case1 ts hnone => exact .inl (left_many_of_none hnone)
  | case2 =>
    rename_i ts u mid hline hlt more ih
    have hmid := behindBreak_brokenLine hline
    rw [left_many brokenLine hline hlt]
    refine .inr ?_
    rcases ih with heq | hbehind
    · rwa [heq]
    · exact hbehind.of_isSuffix (brokenLine.isSuffix hline)
  | case3 ts u mid hline hlt => exact absurd (brokenLine.length_lt hline) hlt

/-- **Behind a region that is given up a line starts**, if anything is there. -/
theorem behindBreak_brokenRest (ts : List Token) : BehindBreak (brokenRest.left ts) ts := by
  obtain ⟨skipped, rest, newline, more, hskipped, hnewline, hmore⟩ := exists_lineEnd ts
  obtain ⟨lines, left, hlines⟩ := Sure.exists_result (p := many brokenLine) more
  have hleft : brokenRest.left ts = (many brokenLine).left more := by
    rw [left_of_eq hlines]
    exact (left_bind_sure hskipped).trans ((left_bind_sure hnewline).trans (left_bind_sure hlines))
  have hsuffix : more <:+ ts := ((maybe (token .newline)).isSuffix hnewline).trans
    (restOfLine.isSuffix hskipped)
  rw [hleft]
  rcases behindBreak_brokenLines more with heq | hbehind
  · rwa [heq]
  · exact hbehind.of_isSuffix hsuffix

end Grammar

/-- The failure points at a token of the first line of the region, or at the end of the region where
that is a line without its break and nothing comes behind it. -/
def Failure.PointsAt (f : Failure) (taken behind : List Token) : Prop :=
  match f.rest with
  | [] => behind = [] ∧ ∀ t ∈ taken, t.kind ≠ .newline
  | t :: _ => t ∈ firstLine taken

/-- No line break stands in front of a failure in the first line. -/
theorem Failure.InFirstLine.kind_ne (h : f.InFirstLine ts) (hfront : front ++ f.rest = ts) :
    ∀ t ∈ front, t.kind ≠ .newline := by
  intro t ht hkind
  obtain ⟨as, bs, rfl⟩ := List.append_of_mem ht
  have hsuffix : t :: (bs ++ f.rest) <:+ ts := ⟨as, by rw [← hfront]; simp⟩
  have hlen := (h.line hkind hsuffix).length_le
  simp only [List.length_cons, List.length_append] at hlen
  omega

/-- **A failure in the first line of what is left points into the region.** -/
theorem Failure.InFirstLine.pointsAt (h : f.InFirstLine (taken ++ behind))
    (hbreak : BehindBreak behind (taken ++ behind)) : f.PointsAt taken behind := by
  obtain ⟨front, hfront⟩ := h.isSuffix
  have hopen := h.kind_ne hfront
  -- the region ends in a line break unless it is the end
  have hends : behind = [] ∨ ∃ n ∈ taken, n.kind = .newline := by
    refine hbreak.imp_right ?_
    rintro ⟨n, hn, as, has⟩
    refine ⟨n, ?_, hn⟩
    have htaken : as ++ [n] = taken := List.append_cancel_right (by simpa using has)
    rw [← htaken]
    exact List.mem_append_right as List.mem_cons_self
  unfold Failure.PointsAt
  split
  · next hrest =>
    rw [hrest, List.append_nil] at hfront
    rw [hfront] at hopen
    have htaken : ∀ t ∈ taken, t.kind ≠ .newline := fun t ht =>
      hopen t (List.mem_append_left behind ht)
    refine ⟨hends.resolve_right ?_, htaken⟩
    rintro ⟨n, hmem, hn⟩
    exact htaken n hmem hn
  · next t us hrest =>
    have hmem : t ∈ firstLine (taken ++ behind) := by
      rw [← hfront, hrest, firstLine_append hopen]
      exact List.mem_append_right front (mem_firstLine_cons t us)
    rcases hends with rfl | ⟨n, hn, hkind⟩
    · rwa [List.append_nil] at hmem
    · rwa [firstLine_append_of_break hn hkind] at hmem

/-- **A region that is given up is reported in its first line**, and a line starts behind it. -/
theorem inFirstLine_of_segmentsAfter (hsofar : ∀ f ∈ sofar, f.NotBehind ts) :
    ∀ as : List Segment, segmentsAfter sofar ts = as ++ .broken taken f :: bs →
      f.InFirstLine (taken ++ bs.flatMap Segment.tokens) ∧
        BehindBreak (bs.flatMap Segment.tokens) (taken ++ bs.flatMap Segment.tokens) := by
  fun_induction segmentsAfter sofar ts with
  | case1 => simp
  | case2 sofar t ts ht ih =>
    intro as h
    rcases List.cons_eq_append_iff.mp h with ⟨-, heq⟩ | ⟨as, -, hmore⟩
    · exact absurd (List.cons.inj heq).1 (by simp)
    · exact ih (fun f hf => (hsofar f hf).tail ht) as hmore
  | case3 sofar t ts _ reply failure item rest hresult ih =>
    intro as h
    have hrest : rest <:+ t :: ts := Grammar.item.isSuffix hresult
    obtain ⟨hsuffix, hline⟩ := furthestAt_near hsofar hrest (fun g => Grammar.near_item.isSuffix)
      fun g hg _ _ hn hbreak => Grammar.near_item.line hg hn (left_of_eq hresult ▸ hbreak)
    rcases List.cons_eq_append_iff.mp h with ⟨-, heq⟩ | ⟨as, -, hmore⟩
    · exact absurd (List.cons.inj heq).1 (by simp)
    · refine ih ?_ as hmore
      rintro _ ⟨⟩
      exact Failure.notBehind_of_isSuffix hsuffix hrest hline
  | case4 sofar t ts _ reply failure hresult rest ih =>
    intro as h
    have hrest : rest <:+ ts := Grammar.brokenRest.left_isSuffix ts
    rcases List.cons_eq_append_iff.mp h with ⟨-, heq⟩ | ⟨as, -, hmore⟩
    · obtain ⟨hsegment, rfl⟩ := List.cons.inj heq
      obtain ⟨rfl, rfl⟩ := Segment.broken.inj hsegment
      rw [flatMap_tokens_segmentsAfter, inFrontOf_append (hrest.trans (List.suffix_cons t ts))]
      obtain ⟨hsuffix, hline⟩ := furthestAt_near hsofar (List.suffix_refl _)
        (fun g => Grammar.near_item.isSuffix)
        fun g hg _ _ hn hbreak => by
          rw [← left_of_none hresult] at hbreak
          exact Grammar.near_item.line hg hn hbreak
      exact ⟨⟨hsuffix, hline⟩,
        (Grammar.behindBreak_brokenRest ts).of_isSuffix (List.suffix_cons t ts)⟩
    · refine ih (fun f hf => ?_) as hmore
      have hfailed := Failure.furthest?_mem hf
      exact Failure.notBehind_of_isSuffix (Grammar.near_brokenRest.isSuffix hfailed) hrest
        fun hn hbreak => Grammar.near_brokenRest.line hfailed hn hbreak

/-- A member of what is put together from lists is a member of one of them. -/
theorem exists_of_flatMap {α β : Type} {g : α → List β} {l : List α} {as bs : List β} {b : β}
    (h : l.flatMap g = as ++ b :: bs) :
    ∃ l₁ a l₂ as' bs', l = l₁ ++ a :: l₂ ∧ g a = as' ++ b :: bs' ∧ bs = bs' ++ l₂.flatMap g := by
  induction l generalizing as with
  | nil => simp at h
  | cons a l ih =>
    rw [List.flatMap_cons] at h
    rcases List.append_eq_append_iff.mp h with ⟨cs, -, hmore⟩ | ⟨cs, hfront, hback⟩
    · obtain ⟨l₁, a', l₂, as', bs', rfl, hin, hbs⟩ := ih hmore
      exact ⟨a :: l₁, a', l₂, as', bs', rfl, hin, hbs⟩
    · cases cs with
      | nil =>
        have hmore : l.flatMap g = [] ++ b :: bs := hback.symm
        obtain ⟨l₁, a', l₂, as', bs', rfl, hin, hbs⟩ := ih hmore
        exact ⟨a :: l₁, a', l₂, as', bs', rfl, hin, hbs⟩
      | cons c cs =>
        obtain ⟨rfl, hbs⟩ := List.cons.inj hback
        exact ⟨[], a, l, as, cs, rfl, hfront, hbs⟩

/-- **The failure of a region points into its first line**, or at its end if nothing comes behind
it. -/
theorem pointsAt_of_segments (h : segments ts = as ++ .broken taken f :: bs) :
    f.PointsAt taken (bs.flatMap Segment.tokens) := by
  have hmem : .broken taken f ∈ segments ts := by simp [h]
  have hne : taken ≠ [] := tokens_ne_nil_of_mem_segments hmem
  obtain ⟨before, block, after, as', bs', hblocks, hblock, rfl⟩ := exists_of_flatMap h
  obtain ⟨hfirst, hbreak⟩ := inFirstLine_of_segmentsAfter (by simp) as' hblock
  have hpoints := hfirst.pointsAt hbreak
  unfold Failure.PointsAt at hpoints ⊢
  split
  · next hrest =>
    rw [hrest] at hpoints
    obtain ⟨hbehind, hopen⟩ := hpoints
    refine ⟨?_, hopen⟩
    -- a block that another one follows ends in a line break, and this one does not
    have hlast : after = [] := by
      cases after with
      | nil => rfl
      | cons next later =>
        have hfront : block ∈ (blocks ts).dropLast := by
          rw [hblocks, List.dropLast_append_of_ne_nil (List.cons_ne_nil block _),
            List.dropLast_cons_of_ne_nil (List.cons_ne_nil next later)]
          exact List.mem_append_right before List.mem_cons_self
        have hsuffix : taken <:+ block := by
          refine ⟨as'.flatMap Segment.tokens, ?_⟩
          rw [← flatMap_tokens_segmentsAfter none block, hblock, List.flatMap_append,
            List.flatMap_cons, hbehind, List.append_nil]
          rfl
        have hclosed := (closed_of_mem_dropLast hfront).of_isSuffix hsuffix
        obtain ⟨n, hn, hend⟩ := hclosed.exists_break hne
        exact absurd hn (hopen n (hend.subset List.mem_cons_self))
    rw [hlast, List.flatMap_nil, List.append_nil, hbehind]
  · next hrest =>
    rw [hrest] at hpoints
    exact hpoints

/-- The failure points at a token of the region, or behind the region where it is the end and lacks
its line break. -/
def Failure.Reports (f : Failure) (taken ts : List Token) : Prop :=
  match f.rest with
  | [] => taken <:+ ts ∧ ¬ Closed taken
  | t :: _ => t ∈ taken

theorem Failure.Reports.of_isSuffix (h : f.Reports taken rest) (hrest : rest <:+ ts) :
    f.Reports taken ts := by
  unfold Failure.Reports at h ⊢
  split
  · next heq =>
    rw [heq] at h
    exact ⟨h.1.trans hrest, h.2⟩
  · next heq =>
    rw [heq] at h
    exact h

/-- A failure that points into the first line points at the region. -/
theorem Failure.PointsAt.reports (h : f.PointsAt taken behind) (hne : taken ≠ []) :
    f.Reports taken (taken ++ behind) := by
  unfold Failure.PointsAt at h
  unfold Failure.Reports
  split
  · next hrest =>
    rw [hrest] at h
    obtain ⟨rfl, hopen⟩ := h
    rw [List.append_nil]
    refine ⟨List.suffix_refl _, fun hclosed => ?_⟩
    obtain ⟨n, hn, hsuffix⟩ := hclosed.exists_break hne
    exact hopen n (hsuffix.subset List.mem_cons_self) hn
  · next hrest =>
    rw [hrest] at h
    exact (firstLine_isPrefix taken).subset h

theorem reports_of_mem_segmentsAfter (hsofar : ∀ f ∈ sofar, f.NotBehind ts)
    (h : .broken taken f ∈ segmentsAfter sofar ts) : f.Reports taken ts := by
  have hne : taken ≠ [] := tokens_ne_nil_of_mem_segmentsAfter sofar ts _ h
  obtain ⟨as, bs, hsplit⟩ := List.append_of_mem h
  obtain ⟨hfirst, hbreak⟩ := inFirstLine_of_segmentsAfter hsofar as hsplit
  refine ((hfirst.pointsAt hbreak).reports hne).of_isSuffix ⟨as.flatMap Segment.tokens, ?_⟩
  rw [← flatMap_tokens_segmentsAfter sofar ts, hsplit, List.flatMap_append, List.flatMap_cons]
  rfl

/-- Every region that is given up is reported by a failure in it. -/
theorem reports_of_mem_segments (h : .broken taken f ∈ segments ts) : f.Reports taken ts := by
  have hne : taken ≠ [] := tokens_ne_nil_of_mem_segments h
  obtain ⟨as, bs, hsplit⟩ := List.append_of_mem h
  have hreports := (pointsAt_of_segments hsplit).reports hne
  exact hreports.of_isSuffix ⟨as.flatMap Segment.tokens, (eq_of_segments hsplit).symm⟩

theorem refusesToken_of_mem_segmentsAfter (hsofar : ∀ f ∈ sofar, f.RefusesToken) :
    .broken taken f ∈ segmentsAfter sofar ts → f.RefusesToken := by
  fun_induction segmentsAfter sofar ts with
  | case1 => simp
  | case2 sofar t ts _ ih => exact fun h => ih hsofar ((List.mem_cons.mp h).resolve_left (by simp))
  | case3 sofar t ts _ reply failure item rest hresult ih =>
    intro h
    refine ih ?_ ((List.mem_cons.mp h).resolve_left (by simp))
    rintro _ ⟨⟩
    exact refusesToken_furthestAt hsofar fun g hg => Grammar.near_item.refused hg
  | case4 sofar t ts _ reply failure hresult rest ih =>
    intro h
    rcases List.mem_cons.mp h with heq | hmem
    · obtain ⟨-, rfl⟩ := Segment.broken.inj heq
      exact refusesToken_furthestAt hsofar fun g hg => Grammar.near_item.refused hg
    · exact ih (fun g hg => Grammar.near_brokenRest.refused (Failure.furthest?_mem hg)) hmem

/-- **What is reported as refused is no line break.** -/
theorem refusesToken_of_mem_segments (h : .broken taken f ∈ segments ts) : f.RefusesToken := by
  obtain ⟨block, -, hsegment⟩ := List.mem_flatMap.mp h
  exact refusesToken_of_mem_segmentsAfter (by simp) hsegment

theorem Failure.Reports.rest_ne_nil (h : f.Reports taken ts) (hts : Closed ts) : f.rest ≠ [] := by
  intro hrest
  rw [Failure.Reports, hrest] at h
  exact h.2 (hts.of_isSuffix h.1)

theorem Segment.failure?_eq_some_iff {s : Segment} :
    s.failure? = some f ↔ ∃ taken, s = .broken taken f := by
  cases s <;> simp [failure?]

/-- **No reported failure lies at the end of a closed list.** -/
theorem rest_ne_nil_of_mem_segmentsAfter {s : Segment} (h : Closed ts)
    (hs : s ∈ segmentsAfter none ts) : ∀ f ∈ s.failure?, f.rest ≠ [] := by
  intro f hf
  obtain ⟨taken, rfl⟩ := Segment.failure?_eq_some_iff.mp hf
  exact (reports_of_mem_segmentsAfter (by simp) hs).rest_ne_nil h

end Daybook.Tree
