import Daybook.Journal.OfWritten
import Daybook.Proofs.Written.Stages

/-!
# The two loops of a journal

A transaction grows line by line and a journal item by item (`cook_transaction` and
`lower_journal`). Both loops are opened here once: what one step does, and what a whole run makes of
its lines or items.

* `MeansPosting w p`: the posting `p` is what `w` says, up to its tags.
* `Journal.ofItem year x`: the journal of one item alone.
* `Journal.concat parts`: journals one after the other.

Results:
* `tagLast_cases`, `addLine_eq_ok`: what a line adds to a transaction.
* `forall₂_of_foldlM_addLine`: **a transaction has the postings on its lines, in order.**
* `foldlM_addLine_withDates`: the lines of a transaction do not look at its dates.
* `addItem_eq`: what an item adds to a journal is the journal of that item alone, put behind it.
* `ofWritten_eq`: **the loop over the items gives what each item means, one after the other.**
-/

namespace Daybook

/-- The posting on a line. -/
def Written.Content.posting? : Written.Content → Option Written.Posting
  | posting p => some p
  | comment _ => none

/-- The posting without its tags. -/
def Posting.untagged (p : Posting) : Posting := { p with tags := [] }

/-- The posting is what is written, up to its tags: comments under it add to these. -/
def MeansPosting (w : Written.Posting) (p : Posting) : Prop :=
  ∃ q, Posting.ofWritten w = .ok q ∧ p.untagged = q.untagged

/-! ## Lines under a transaction -/

namespace Transaction

variable {t u : Transaction} {tags : List Tag} {ws : List Written.Posting}
  {line : Written.Content} {lines : List Written.Content}

/-- What more tags change: the transaction itself as long as it has no posting, and its last posting
otherwise. -/
theorem tagLast_cases (t : Transaction) (tags : List Tag) :
    (t.postings = [] ∧ t.tagLast tags = { t with tags := t.tags ++ tags }) ∨
    ∃ postings p, t.postings = postings ++ [p] ∧
      t.tagLast tags = { t with postings := postings ++ [{ p with tags := p.tags ++ tags }] } := by
  rcases List.eq_nil_or_concat' t.postings with hnil | ⟨postings, p, hconcat⟩
  · exact .inl ⟨hnil, by simp [tagLast, hnil]⟩
  · exact .inr ⟨postings, p, hconcat, by simp [tagLast, hconcat]⟩

/-- Of the postings, more tags change tags only. -/
theorem untagged_tagLast : (t.tagLast tags).postings.map Posting.untagged =
    t.postings.map Posting.untagged := by
  rcases t.tagLast_cases tags with ⟨-, htagged⟩ | ⟨postings, p, hconcat, htagged⟩
  · rw [htagged]
  · rw [htagged, hconcat, List.map_append, List.map_append]
    rfl

theorem forall₂_tagLast : List.Forall₂ MeansPosting ws (t.tagLast tags).postings ↔
    List.Forall₂ MeansPosting ws t.postings := by
  have huntagged : ∀ ps, List.Forall₂ MeansPosting ws ps ↔
      List.Forall₂ (fun w p => ∃ q, Posting.ofWritten w = .ok q ∧ p = q.untagged) ws
        (ps.map Posting.untagged) := fun ps => by
    rw [List.forall₂_map_right_iff]
    rfl
  rw [huntagged, huntagged, untagged_tagLast]

/-- What a line adds: a posting at the end, or tags to what stands last. -/
theorem addLine_eq_ok : t.addLine line = .ok u ↔
    (∃ w q, line = .posting w ∧ Posting.ofWritten w = .ok q ∧ u = t.addPosting q) ∨
    ∃ c, line = .comment c ∧ u = t.tagLast c.tags := by
  cases line with
  | posting w =>
    rw [addLine, map_eq_ok]
    simp [eq_comm]
  | comment c => simp [addLine, eq_comm]

/-- **A transaction has the postings on its lines, in order**, up to their tags. -/
theorem forall₂_of_foldlM_addLine (hnone : t.postings = []) (h : lines.foldlM addLine t = .ok u) :
    List.Forall₂ MeansPosting (lines.filterMap Written.Content.posting?) u.postings := by
  refine foldlM_induction (motive := fun lines u => List.Forall₂ MeansPosting
    (lines.filterMap Written.Content.posting?) u.postings) (hnone ▸ .nil) ?_ h
  intro front line t u hfront hstep
  rw [List.filterMap_append]
  rcases addLine_eq_ok.mp hstep with ⟨w, q, rfl, hq, rfl⟩ | ⟨c, rfl, rfl⟩
  · exact List.rel_append hfront (.cons ⟨q, hq, rfl⟩ .nil)
  · have hnothing : [Written.Content.comment c].filterMap Written.Content.posting? = [] := rfl
    rw [hnothing, List.append_nil, forall₂_tagLast]
    exact hfront

/-- The transaction on other days. -/
def withDates (t : Transaction) (date : Date) (secondDate : Option Date) : Transaction :=
  { t with date, secondDate }

/-- The lines under a transaction do not look at its dates. -/
theorem foldlM_addLine_withDates (lines : List Written.Content) (t : Transaction) (date : Date)
    (secondDate : Option Date) : lines.foldlM addLine (t.withDates date secondDate) =
      (·.withDates date secondDate) <$> lines.foldlM addLine t := by
  refine foldlM_comm (g := (·.withDates date secondDate)) (fun t line => ?_) lines t
  cases line with
  | posting w =>
    rw [addLine, addLine, Functor.map_map]
    rfl
  | comment c =>
    show Except.ok _ = Except.ok _
    unfold tagLast withDates
    cases t.postings.getLast? <;> rfl

theorem ofWritten_eq_ok {year : Int} {w : Written.Transaction} :
    ofWritten year w = .ok t ↔ ∃ date secondDate, dateOfWritten year w.date = .ok date ∧
      optionally (dateOfWritten year) w.secondDate = .ok secondDate ∧
      w.lines.foldlM addLine ⟨date, secondDate, w.status, w.chequeNumber,
        w.description.getD .empty, [], tagsOf w.comment⟩ = .ok t := by
  unfold ofWritten ofHeader
  simp only [bind_eq_ok]
  constructor
  · rintro ⟨u, ⟨date, hdate, secondDate, hsecond, heq⟩, hlines⟩
    obtain rfl := Except.ok.inj heq
    exact ⟨date, secondDate, hdate, hsecond, hlines⟩
  · rintro ⟨date, secondDate, hdate, hsecond, hlines⟩
    exact ⟨_, ⟨date, hdate, secondDate, hsecond, rfl⟩, hlines⟩

end Transaction

/-! ## Items of a journal -/

namespace Journal

/-- The journal that an item means, where a missing year is this one. -/
def ofItem (year : Int) : Written.Item → Except JournalFault Journal
  | .transaction t => ofTransaction <$> Transaction.ofWritten year t
  | .lineComment _ => .ok empty
  | .price p => ofPrice <$> Price.ofWritten year p
  | .account a => .ok (ofAccount (AccountEntry.ofWritten a))
  | .commodity c => ofCommodity <$> CommodityEntry.ofWritten c
  | .defaultCommodity d => ofDefault <$> Amount.ofWritten d.amount.toAmount

/-- Journals one after the other. -/
def concat (parts : List Journal) : Journal := parts.foldr append empty

/-- What an item adds to a journal is the journal of that item alone, put behind it. -/
theorem addItem_eq (year : Int) (j : Journal) (x : Written.Item) :
    j.addItem year x = (j ++ ·) <$> ofItem year x := by
  have hentry : ∀ {α : Type} {e : Except JournalFault α} {f g : α → Journal},
      (∀ a, j ++ g a = f a) → (e >>= fun a => pure (f a)) = (j ++ ·) <$> g <$> e := by
    intro α e f g h
    rw [Functor.map_map, map_eq_pure_bind]
    simp only [h]
  cases x with
  | transaction t => exact hentry (append_ofTransaction j)
  | lineComment c => exact congrArg Except.ok (append_empty j).symm
  | price p => exact hentry (append_ofPrice j)
  | account a => exact congrArg Except.ok (append_ofAccount j _).symm
  | commodity c => exact hentry (append_ofCommodity j)
  | defaultCommodity d => exact hentry (append_ofDefault j)

/-- **The loop over the items gives what each item means, one after the other.** -/
theorem ofWritten_eq (year : Int) (w : Written.Journal) :
    ofWritten year w = concat <$> w.items.mapM fun x => ofItem year x.value := by
  have hgrown : ∀ (items : List (Located Written.Item)) j,
      items.foldlM (fun j x => j.addItem year x.value) j =
        (fun parts => j ++ concat parts) <$> items.mapM fun x => ofItem year x.value := by
    intro items
    induction items with
    | nil => exact fun j => congrArg Except.ok (append_empty j).symm
    | cons x items ih =>
      intro j
      rw [List.foldlM_cons, List.mapM_cons, addItem_eq]
      simp only [ih, map_eq_pure_bind, bind_assoc, pure_bind, append_assoc]
      rfl
  rw [ofWritten, hgrown]
  simp only [empty_append]

end Journal

end Daybook
