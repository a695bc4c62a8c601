import Daybook.Proofs.Journal.Loops
import Daybook.Proofs.Tree.Rules
import Daybook.Proofs.Written.Accounts

/-!
# Postings as they are written

A transaction has one posting for each account that is written on its lines. Whether a posting has
an amount, a lot price or an assertion can be seen from the tokens behind the account on its line.
About `lower_posting` and `cook_posting` (invariant 2 of [SPEC 3]).

* `Outline`: the account of a posting, and what stands behind it.
* `PostingLine`: an account, and the tokens behind it on its line.

Results:
* `outlines_of_spellings`: **the postings of a tree are those of the lines that it is spelled by.**
* `outlines_of_ofWritten`: **what a transaction means keeps the outlines of its postings.**
-/

namespace Daybook

/-! ## Outlines -/

/-- The account of a posting, and which parts stand behind it. -/
structure Outline where
  account : Account
  hasAmount : Bool
  hasLotPrice : Bool
  hasAssertion : Bool
deriving DecidableEq

/-- The outline of a posting. -/
def Posting.outline (p : Posting) : Outline :=
  ⟨p.account, p.amount.isSome, p.lotPrice.isSome, p.assertion.isSome⟩

/-- The outline of a posting as it is written. -/
def Written.Posting.outline (p : Written.Posting) : Outline :=
  ⟨p.account, p.amount.isSome, p.lotPrice.isSome, p.assertion.isSome⟩

/-- The outline of a posting in a tree. -/
def Tree.Posting.outline (p : Tree.Posting) : Outline :=
  ⟨Written.accountOfTree p.account, p.amount.isSome, p.lotPrice.isSome, p.assertion.isSome⟩

/-- The posting on a line. -/
def Tree.Content.posting? : Tree.Content → Option Tree.Posting
  | posting p => some p
  | comment _ => none

/-- An account, and the tokens behind it on its line. -/
structure PostingLine where
  account : Token
  behind : List Token

/-- The accounts among these tokens, each with the tokens behind it on its line. -/
def postingLines : List Token → List PostingLine
  | [] => []
  | t :: ts =>
    if t.kind.isAccount then ⟨t, ts.takeWhile (·.kind ≠ .newline)⟩ :: postingLines ts
    else postingLines ts

/-- The outline of the posting on a line. An amount stands right behind the account; the signs of a
lot price and of an assertion stand nowhere else. -/
def PostingLine.outline (l : PostingLine) : Outline where
  account := l.account.account
  hasAmount := l.behind.head?.any (·.kind ∈ [.dash, .commodity, .number])
  hasLotPrice := l.behind.any (·.kind = .atSign)
  hasAssertion := l.behind.any (·.kind = .equals)

variable {us vs ts front behind : List Token} {account n : Token}

/-! ## Lines of postings -/

theorem postingLines_append (h : ∀ t ∈ us, t.kind.isAccount = false) :
    postingLines (us ++ vs) = postingLines vs := by
  induction us with
  | nil => rfl
  | cons t us ih =>
    obtain ⟨ht, hus⟩ := List.forall_mem_cons.mp h
    rw [List.cons_append, postingLines, if_neg (by simp [ht]), ih hus]

theorem takeWhile_line (hbehind : ∀ t ∈ behind, t.kind ≠ .newline) (hn : n.kind = .newline)
    (vs : List Token) :
    (behind ++ n :: vs).takeWhile (·.kind ≠ .newline) = behind := by
  rw [List.takeWhile_append_of_pos (by simpa using hbehind), List.takeWhile_cons,
    if_neg (by simp [hn]), List.append_nil]

/-- A line with one account on it. -/
theorem postingLines_line (hfront : ∀ t ∈ front, t.kind.isAccount = false)
    (haccount : account.kind.isAccount)
    (hbehind : ∀ t ∈ behind, t.kind.isAccount = false ∧ t.kind ≠ .newline)
    (hn : n.kind = .newline) :
    postingLines (front ++ account :: (behind ++ n :: vs)) =
      ⟨account, behind⟩ :: postingLines vs := by
  have hline := takeWhile_line (fun t ht => (hbehind t ht).2) hn vs
  have hmore : postingLines ((behind ++ [n]) ++ vs) = postingLines vs :=
    postingLines_append fun t ht => by
      rcases List.mem_append.mp ht with hmem | hmem
      · exact (hbehind t hmem).1
      · rw [List.mem_singleton.mp hmem, hn]
        rfl
  rw [postingLines_append hfront, postingLines, if_pos haccount, hline, ← hmore]
  simp

/-! ## Parts of a posting -/

namespace Tree

open RegularExpression

section

variable {α : Type} {p : Parser α} {s : α → Language Token} {P : RegularExpression Kind}
  {stop : List Kind} {kind : Kind} {o : Option α}

/-- The kinds of the words of a language are words of a production. -/
def Spells (A : Language Token) (P : RegularExpression Kind) : Prop :=
  ∀ ts ∈ A, ts.map Token.kind ∈ P.matches'

theorem Spells.mul {A B : Language Token} {Q : RegularExpression Kind} (hA : Spells A P)
    (hB : Spells B Q) : Spells (A * B) (P * Q) := by
  rintro _ ⟨us, hus, vs, hvs, rfl⟩
  exact map_mem_mul.mpr ⟨us, vs, hA us hus, hB vs hvs, rfl⟩

theorem Reads.spells (h : Reads (fun _ => True) p s P stop) (a : α) : Spells (s a) P :=
  fun ts hts => (h.kinds ts).mpr ⟨a, trivial, hts⟩

theorem any_eq_false (hts : ts.map Token.kind ∈ P.matches') (hkind : kind ∉ Production.uses P) :
    ts.any (·.kind = kind) = false := by
  rw [List.any_eq_false]
  intro t ht heq
  exact hkind (of_decide_eq_true heq ▸ Production.mem_uses hts _ (List.mem_map_of_mem ht))

theorem forall_kind {Q : Kind → Prop} (hts : ts.map Token.kind ∈ P.matches')
    (h : ∀ kind ∈ Production.uses P, Q kind) : ∀ t ∈ ts, Q t.kind :=
  fun _ ht => h _ (Production.mem_uses hts _ (List.mem_map_of_mem ht))

theorem forall_head?_kind {Q : Kind → Prop} (hts : ts.map Token.kind ∈ P.matches')
    (h : ∀ kind ∈ Production.firsts P, Q kind) : ∀ t ∈ ts.head?, Q t.kind := by
  intro t ht
  refine h _ (Production.mem_firsts hts _ ?_)
  rw [List.head?_map, Option.mem_def.mp ht]
  rfl

/-- A part is there if something is there that it starts with and nothing behind it does. -/
theorem head?_any_eq_isSome {kinds : List Kind} {Q : RegularExpression Kind}
    (h : Reads (fun _ => True) p s P stop) (hP : P.matchEpsilon = false)
    (hfirst : ∀ kind ∈ Production.firsts P, kind ∈ kinds) (hus : us ∈ spellOption s o)
    (hvs : vs.map Token.kind ∈ Q.matches') (hmore : ∀ kind ∈ Production.firsts Q, kind ∉ kinds) :
    (us ++ vs).head?.any (·.kind ∈ kinds) = o.isSome := by
  cases o with
  | none =>
    obtain rfl := (Language.mem_one us).mp hus
    have hhead := forall_head?_kind hvs hmore
    simpa [Option.any_eq_false] using hhead
  | some a =>
    obtain ⟨t, us, rfl⟩ := List.exists_cons_of_ne_nil (h.ne_nil hP trivial hus)
    exact decide_eq_true (hfirst _ (h.firsts trivial hus t rfl))

/-- A part is there if a sign is there that it does not lack. -/
theorem any_eq_isSome (h : Reads (fun _ => True) p s P stop) (hkind : kind ∈ Production.needs P)
    (hts : ts ∈ spellOption s o) : ts.any (·.kind = kind) = o.isSome := by
  cases o with
  | none =>
    obtain rfl := (Language.mem_one ts).mp hts
    rfl
  | some a =>
    have hmem := Production.mem_of_mem_needs (h.spells a ts hts) kind hkind
    obtain ⟨t, ht, rfl⟩ := List.mem_map.mp hmem
    exact List.any_eq_true.mpr ⟨t, ht, decide_eq_true rfl⟩

end

/-- What an account has behind it in a posting. -/
theorem exists_behind {p : Posting} (hts : ts ∈ p.spellings) :
    ∃ front behind, ts = front ++ p.account :: behind ∧
      (∀ t ∈ front, t.kind.isAccount = false) ∧ p.account.kind.isAccount ∧
      (∀ t ∈ behind, t.kind.isAccount = false ∧ t.kind ≠ .newline) ∧
      behind.head?.any (·.kind ∈ [.dash, .commodity, .number]) = p.amount.isSome ∧
      behind.any (·.kind = .atSign) = p.lotPrice.isSome ∧
      behind.any (·.kind = .equals) = p.assertion.isSome := by
  obtain ⟨_, ⟨_, ⟨_, ⟨_, ⟨st, hst, _, ⟨rfl, haccount⟩, rfl⟩, am, ham, rfl⟩, lo, hlo, rfl⟩, as, has,
    rfl⟩, co, hco, rfl⟩ := hts
  have hstatus := (Grammar.reads_status.maybe rfl).spells _ st hst
  have hamount := (Grammar.reads_amount.maybe rfl).spells _ am ham
  have hlotPrice := (Grammar.reads_lotPrice.maybe rfl).spells _ lo hlo
  have hassertion := (Grammar.reads_assertion.maybe rfl).spells _ as has
  have hcomment := (Grammar.reads_comment.maybe rfl).spells _ co hco
  have hmore := map_mem_mul.mpr ⟨lo, _, hlotPrice, map_mem_mul.mpr ⟨as, co, hassertion, hcomment,
    rfl⟩, rfl⟩
  refine ⟨st, am ++ (lo ++ (as ++ co)), by simp, ?_, haccount, ?_, ?_, ?_, ?_⟩
  · exact forall_kind (Q := fun kind => kind.isAccount = false) hstatus (by decide)
  · exact forall_kind (Q := fun kind => kind.isAccount = false ∧ kind ≠ .newline)
      (map_mem_mul.mpr ⟨am, _, hamount, hmore, rfl⟩) (by decide)
  · exact head?_any_eq_isSome Grammar.reads_amount rfl (by decide) ham hmore (by decide)
  · rw [List.any_append, List.any_append, List.any_append, any_eq_false hamount (by decide),
      any_eq_false hassertion (by decide), any_eq_false hcomment (by decide),
      any_eq_isSome Grammar.reads_lotPrice (by decide) hlo]
    simp
  · rw [List.any_append, List.any_append, List.any_append, any_eq_false hamount (by decide),
      any_eq_false hlotPrice (by decide), any_eq_false hcomment (by decide),
      any_eq_isSome Grammar.reads_assertion (by decide) has]
    simp

/-! ## Lines of a transaction -/

/-- A posting and the end of its line. -/
theorem postingLines_posting {p : Posting} (hts : ts ∈ p.spellings)
    (htext : ∀ t ∈ ts, t.kind.isAccount → Written.accountOfTree t = t.account)
    (hfront : ∀ t ∈ front, t.kind.isAccount = false) (hn : n.kind = .newline) :
    ∃ l, postingLines (front ++ (ts ++ n :: vs)) = l :: postingLines vs ∧ l.outline = p.outline := by
  obtain ⟨status, behind, rfl, hstatus, haccount, hbehind, hamount, hlotPrice, hassertion⟩ :=
    exists_behind hts
  refine ⟨⟨p.account, behind⟩, ?_, ?_⟩
  · have hplain : ∀ t ∈ front ++ status, t.kind.isAccount = false := fun t ht =>
      (List.mem_append.mp ht).elim (hfront t) (hstatus t)
    calc postingLines (front ++ (status ++ p.account :: behind ++ n :: vs))
        = postingLines ((front ++ status) ++ p.account :: (behind ++ n :: vs)) := by simp
      _ = ⟨p.account, behind⟩ :: postingLines vs := postingLines_line hplain haccount hbehind hn
  · have hsame := htext p.account (by simp) haccount
    simp only [PostingLine.outline, Posting.outline, hamount, hlotPrice, hassertion, hsame]

/-- The content lines of a transaction. -/
theorem outlines_of_lines {lines : List (Line Content)}
    (hts : ts ∈ spellList (Line.spellings Content.spellings) lines)
    (htext : ∀ t ∈ ts, t.kind.isAccount → Written.accountOfTree t = t.account) :
    (postingLines ts).map PostingLine.outline =
      (lines.filterMap (·.body.posting?)).map Posting.outline := by
  induction lines generalizing ts with
  | nil =>
    obtain rfl := (Language.mem_one ts).mp hts
    rfl
  | cons line lines ih =>
    obtain ⟨_, ⟨_, ⟨_, ⟨rfl, hindent⟩, body, hbody, rfl⟩, _, ⟨rfl, hbreak⟩, rfl⟩, rest, hrest,
      rfl⟩ := hts
    have hmore := ih hrest fun t ht => htext t (List.mem_append_right _ ht)
    have hindent : line.indent.kind.isAccount = false := by
      rw [of_decide_eq_true hindent]
      rfl
    have hsplit : [line.indent] ++ body ++ [line.newline] ++ rest =
        [line.indent] ++ (body ++ line.newline :: rest) := by simp
    show (postingLines ([line.indent] ++ body ++ [line.newline] ++ rest)).map _ = _
    rw [hsplit]
    cases hcontent : line.body with
    | posting p =>
      rw [hcontent] at hbody
      have hfront : ∀ t ∈ [line.indent], t.kind.isAccount = false := by simpa using hindent
      obtain ⟨l, hl, houtline⟩ := postingLines_posting hbody (fun t ht => htext t (by simp [ht]))
        hfront (of_decide_eq_true hbreak)
      rw [hl, List.map_cons, houtline, hmore]
      simp [hcontent, Content.posting?]
    | comment c =>
      rw [hcontent] at hbody
      have hcomment := forall_kind (Q := fun kind => kind.isAccount = false)
        (Grammar.reads_comment.spells c body hbody) (by decide)
      have hnone : ∀ t ∈ [line.indent] ++ body ++ [line.newline], t.kind.isAccount = false := by
        intro t ht
        rcases List.mem_append.mp ht with hmem | hmem
        · exact (List.mem_append.mp hmem).elim (fun h => List.mem_singleton.mp h ▸ hindent)
            (hcomment t)
        · rw [List.mem_singleton.mp hmem, of_decide_eq_true hbreak]
          rfl
      rw [← hsplit, postingLines_append hnone, hmore]
      simp [hcontent, Content.posting?]

/-- **The postings of a tree are those of the lines that it is spelled by.** -/
theorem outlines_of_spellings {t : Transaction} (hts : ts ∈ t.spellings)
    (htext : ∀ t ∈ ts, t.kind.isAccount → Written.accountOfTree t = t.account) :
    (postingLines ts).map PostingLine.outline =
      (t.lines.filterMap (·.body.posting?)).map Posting.outline := by
  obtain ⟨head, hhead, lines, hlines, rfl⟩ := hts
  have hword := ((((((((reads_token .date).spells t.date).mul
    ((Grammar.reads_secondDate.maybe rfl).spells t.secondDate)).mul
    ((Grammar.reads_status.maybe rfl).spells t.status)).mul
    (((reads_token .chequeNumber).maybe rfl).spells t.chequeNumber)).mul
    ((Grammar.reads_description.maybe rfl).spells t.description)).mul
    ((Grammar.reads_comment.maybe rfl).spells t.comment)).mul
    ((reads_token .newline).spells t.newline)) head hhead
  have hnone := forall_kind (Q := fun kind => kind.isAccount = false) hword (by decide)
  show (postingLines (head ++ lines)).map _ = _
  rw [postingLines_append hnone]
  exact outlines_of_lines hlines fun t ht => htext t (List.mem_append_right _ ht)

end Tree

/-! ## What the lines mean -/

theorem isSome_of_optionally {α β : Type} {f : α → Except JournalFault β} {o : Option α}
    {o' : Option β} (h : optionally f o = .ok o') : o'.isSome = o.isSome := by
  cases o with
  | none =>
    cases h
    rfl
  | some a =>
    obtain ⟨b, -, rfl⟩ := map_eq_ok.mp h
    rfl

/-- What a posting means keeps its outline. -/
theorem outline_of_ofWritten {w : Written.Posting} {p : Posting} (h : Posting.ofWritten w = .ok p) :
    p.outline = w.outline := by
  obtain ⟨amount, hamount, h⟩ := bind_eq_ok.mp h
  obtain ⟨lotPrice, hlotPrice, h⟩ := bind_eq_ok.mp h
  obtain ⟨assertion, hassertion, h⟩ := bind_eq_ok.mp h
  cases h
  simp only [Posting.outline, Written.Posting.outline, isSome_of_optionally hamount,
    isSome_of_optionally hlotPrice, isSome_of_optionally hassertion]

/-- A posting has the tags of its own line. -/
theorem tags_of_ofWritten {w : Written.Posting} {p : Posting} (h : Posting.ofWritten w = .ok p) :
    p.tags = tagsOf w.comment := by
  obtain ⟨amount, -, h⟩ := bind_eq_ok.mp h
  obtain ⟨lotPrice, -, h⟩ := bind_eq_ok.mp h
  obtain ⟨assertion, -, h⟩ := bind_eq_ok.mp h
  cases h
  rfl

/-- The tags of the lines below change no outline. -/
theorem outline_of_meansPosting {w : Written.Posting} {p : Posting} (h : MeansPosting w p) :
    w.outline = p.outline := by
  obtain ⟨q, hq, huntagged⟩ := h
  calc w.outline = q.untagged.outline := (outline_of_ofWritten hq).symm
    _ = p.untagged.outline := by rw [huntagged]

theorem outline_ofTree (p : Tree.Posting) : (Written.Posting.ofTree p).outline = p.outline := by
  simp only [Written.Posting.outline, Written.Posting.ofTree, Tree.Posting.outline,
    Option.isSome_map]

/-- **What a transaction means has the postings that are written on its lines.** -/
theorem outlines_of_ofWritten {year : Int} {t : Tree.Transaction} {u : Transaction}
    (h : Transaction.ofWritten year (.ofTree t) = .ok u) :
    u.postings.map Posting.outline =
      (t.lines.filterMap (·.body.posting?)).map Tree.Posting.outline := by
  obtain ⟨_, _, -, -, hlines⟩ := Transaction.ofWritten_eq_ok.mp h
  have hpostings := Transaction.forall₂_of_foldlM_addLine rfl hlines
  have houtlines : ((Written.Transaction.ofTree t).lines.filterMap Written.Content.posting?).map
      Written.Posting.outline = u.postings.map Posting.outline := by
    rw [← List.forall₂_eq_eq_eq, List.forall₂_map_left_iff, List.forall₂_map_right_iff]
    exact hpostings.imp fun _ _ => outline_of_meansPosting
  rw [← houtlines, Written.Transaction.ofTree, List.filterMap_map, List.map_filterMap,
    List.map_filterMap]
  refine List.filterMap_congr fun line _ => ?_
  cases hbody : line.body with
  | comment c => simp [hbody, Written.Content.ofTree, Written.Content.posting?, Tree.Content.posting?]
  | posting p =>
    simp [hbody, Written.Content.ofTree, Written.Content.posting?, Tree.Content.posting?,
      outline_ofTree]

end Daybook
