import Daybook.Proofs.Written.Postings

/-!
# Tags where they are written

A comment under a transaction hands its tags to the posting above it, or to the transaction as long
as no posting stands above it. Read in written order, no tag is lost, doubled or moved past another.
The loop over the lines always has what it has passed shared out like this, so each line has only to
keep it so. About `cook_transaction`, `cook_account` and `cook_commodity` ([SPEC 4.4], invariant 4
of [SPEC 3]).

* `tagsAbove lines`: the tags of the lines above the first posting.
* `SharesTags w t`: the transaction `t` and its postings share the tags that are written in `w`.

Results:
* `SharesTags.addPosting`, `SharesTags.tagLast`, `SharesTags.addLine`: **one more line keeps the
  tags shared.**
* `shares_tags_of_ofWritten`: **every tag belongs to what it is written under**, for a transaction,
  an account and a commodity.
-/

namespace Daybook

namespace Written

/-- The tags on a line under a transaction. -/
def Content.tags : Content → List Tag
  | posting p => tagsOf p.comment
  | comment c => c.tags

/-- The comment on a line under a commodity. -/
def CommodityContent.comment? : CommodityContent → Option Comment
  | format _ => none
  | comment c => some c

/-- The tags of the lines above the first posting. -/
def tagsAbove (lines : List Content) : List Tag :=
  (lines.takeWhile (·.posting?.isNone)).flatMap Content.tags

theorem tagsAbove_append_of_nil {lines : List Content} (h : lines.filterMap Content.posting? = [])
    (more : List Content) : tagsAbove (lines ++ more) = tagsAbove lines ++ tagsAbove more := by
  induction lines with
  | nil => rfl
  | cons line lines ih =>
    cases line with
    | comment c => exact (congrArg (c.tags ++ ·) (ih h)).trans (List.append_assoc ..).symm
    | posting p => nomatch h

theorem tagsAbove_append_of_ne_nil {lines : List Content}
    (h : lines.filterMap Content.posting? ≠ []) (more : List Content) :
    tagsAbove (lines ++ more) = tagsAbove lines := by
  induction lines with
  | nil => exact absurd rfl h
  | cons line lines ih =>
    cases line with
    | comment c => exact congrArg (c.tags ++ ·) (ih h)
    | posting p => rfl

/-- A posting ends the lines above it. -/
theorem tagsAbove_append_posting (lines : List Content) (p : Posting) :
    tagsAbove (lines ++ [.posting p]) = tagsAbove lines := by
  by_cases h : lines.filterMap Content.posting? = []
  · rw [tagsAbove_append_of_nil h]
    exact List.append_nil _
  · exact tagsAbove_append_of_ne_nil h _

/-- A format has no tags. -/
theorem flatMap_tags_eq (lines : List CommodityContent) :
    lines.flatMap CommodityContent.tags =
      (lines.filterMap CommodityContent.comment?).flatMap Comment.tags := by
  induction lines with
  | nil => rfl
  | cons line lines ih =>
    cases line with
    | format shown => exact ih
    | comment c => exact congrArg (c.tags ++ ·) ih

end Written

/-- A transaction and its postings share the tags that are written in it. -/
structure SharesTags (w : Written.Transaction) (t : Transaction) : Prop where
  /-- All tags are there, in written order. -/
  all : t.tags ++ t.postings.flatMap Posting.tags =
    tagsOf w.comment ++ w.lines.flatMap Written.Content.tags
  /-- The transaction has those above its first posting. -/
  own : t.tags = tagsOf w.comment ++ Written.tagsAbove w.lines
  /-- There is a posting for each one that is written. -/
  postings : t.postings.length = (w.lines.filterMap Written.Content.posting?).length
  /-- A posting has those from its own line down to the next posting. -/
  posting : ∀ above p below, w.lines = above ++ .posting p :: below →
    ∃ q, Posting.ofWritten p = .ok q ∧
      t.postings[(above.filterMap Written.Content.posting?).length]? =
        some { q with tags := tagsOf p.comment ++ Written.tagsAbove below }

variable {w : Written.Transaction} {t u : Transaction} {p : Written.Posting} {q : Posting}
  {c : Written.Comment} {line : Written.Content}

/-! ## One more line -/

/-- With one more line, a line above it has one more below it. -/
theorem concat_eq_append_cons {α : Type} {xs above below : List α} {x y : α}
    (h : xs ++ [x] = above ++ y :: below) :
    (xs = above ∧ x = y ∧ below = []) ∨ ∃ front, xs = above ++ y :: front ∧ below = front ++ [x] := by
  rcases List.eq_nil_or_concat' below with rfl | ⟨front, z, rfl⟩
  · obtain ⟨habove, hlast⟩ := List.append_inj' h rfl
    exact .inl ⟨habove, List.singleton_inj.mp hlast, rfl⟩
  · have hsplit : xs ++ [x] = (above ++ y :: front) ++ [z] := by simpa using h
    obtain ⟨hfront, hlast⟩ := List.append_inj' hsplit rfl
    exact .inr ⟨front, hfront, by rw [List.singleton_inj.mp hlast]⟩

/-- More tags come behind all others. -/
theorem all_tags_tagLast (tags : List Tag) :
    (t.tagLast tags).tags ++ (t.tagLast tags).postings.flatMap Posting.tags =
      t.tags ++ t.postings.flatMap Posting.tags ++ tags := by
  rcases t.tagLast_cases tags with ⟨hnil, htagged⟩ | ⟨postings, q, hconcat, htagged⟩
  · simp [htagged, hnil]
  · simp [htagged, hconcat]

theorem length_tagLast (tags : List Tag) :
    (t.tagLast tags).postings.length = t.postings.length := by
  have huntagged : ((t.tagLast tags).postings.map Posting.untagged).length =
      (t.postings.map Posting.untagged).length := congrArg List.length Transaction.untagged_tagLast
  simpa using huntagged

namespace SharesTags

/-- The first line shares its tags with nothing. -/
theorem start (hpostings : t.postings = []) (htags : t.tags = tagsOf w.comment) :
    SharesTags { w with lines := [] } t where
  all := by simp [hpostings, htags]
  own := by simp [htags, Written.tagsAbove]
  postings := by simp [hpostings]
  posting := by simp

/-- A posting takes no tag from those above it. -/
theorem addPosting (h : SharesTags w t) (hq : Posting.ofWritten p = .ok q) :
    SharesTags { w with lines := w.lines ++ [.posting p] } (t.addPosting q) where
  all := by
    simp only [Transaction.addPosting, List.flatMap_append, ← List.append_assoc, h.all,
      List.flatMap_singleton, tags_of_ofWritten hq]
    rfl
  own := by
    rw [Written.tagsAbove_append_posting]
    exact h.own
  postings := by
    simp [Transaction.addPosting, h.postings, Written.Content.posting?]
  posting := by
    intro above p' below hsplit
    rcases concat_eq_append_cons hsplit with ⟨hlines, hline, rfl⟩ | ⟨front, hlines, rfl⟩
    · obtain rfl := Written.Content.posting.inj hline
      have hself : { q with tags := tagsOf p.comment ++ Written.tagsAbove [] } = q := by
        rw [← tags_of_ofWritten hq]
        exact congrArg (fun tags => { q with tags }) (List.append_nil _)
      refine ⟨q, hq, ?_⟩
      rw [← hlines, ← h.postings, hself]
      exact List.getElem?_concat_length
    · obtain ⟨q', hq', hget⟩ := h.posting above p' front hlines
      refine ⟨q', hq', ?_⟩
      rw [Written.tagsAbove_append_posting, ← hget]
      exact List.getElem?_append_left (List.getElem?_eq_some_iff.mp hget).1

/-- **A comment hands its tags to the last posting**, or to the transaction if there is none. -/
theorem tagLast (h : SharesTags w t) :
    SharesTags { w with lines := w.lines ++ [.comment c] } (t.tagLast c.tags) where
  all := by
    rw [all_tags_tagLast, h.all]
    simp [Written.Content.tags]
  own := by
    have hlength := h.postings
    rcases t.tagLast_cases c.tags with ⟨hnil, htagged⟩ | ⟨postings, q, hconcat, htagged⟩
    · have hnone : w.lines.filterMap Written.Content.posting? = [] :=
        List.eq_nil_of_length_eq_zero (by rw [← hlength, hnil]; rfl)
      rw [htagged, Written.tagsAbove_append_of_nil hnone, ← List.append_assoc, ← h.own]
      simp [Written.tagsAbove, Written.Content.tags, Written.Content.posting?]
    · have hsome : w.lines.filterMap Written.Content.posting? ≠ [] := by
        intro hnone
        simp [hconcat, hnone] at hlength
      rw [htagged, Written.tagsAbove_append_of_ne_nil hsome]
      exact h.own
  postings := by
    simp [length_tagLast, h.postings, Written.Content.posting?]
  posting := by
    intro above p below hsplit
    rcases concat_eq_append_cons hsplit with ⟨-, hline, -⟩ | ⟨front, hlines, rfl⟩
    · cases hline
    obtain ⟨q, hq, hget⟩ := h.posting above p front hlines
    refine ⟨q, hq, ?_⟩
    have hlength := h.postings
    rw [hlines, List.filterMap_append, List.length_append] at hlength
    rcases t.tagLast_cases c.tags with ⟨hnil, -⟩ | ⟨postings, last, hconcat, htagged⟩
    · simp [hnil] at hget
    rw [htagged]
    rw [hconcat] at hget hlength
    by_cases hfront : front.filterMap Written.Content.posting? = []
    · -- it is the last posting, so the tags are its own
      have hindex : (above.filterMap Written.Content.posting?).length = postings.length := by
        simpa [hfront, Written.Content.posting?] using hlength.symm
      rw [hindex, List.getElem?_concat_length, Option.some.injEq] at hget
      rw [hindex, hget, Written.tagsAbove_append_of_nil hfront, List.getElem?_concat_length]
      simp [Written.tagsAbove, Written.Content.tags, Written.Content.posting?]
    · -- a posting below it takes them
      have hindex : (above.filterMap Written.Content.posting?).length < postings.length := by
        have hpos := List.length_pos_of_ne_nil hfront
        have hsum : postings.length = (above.filterMap Written.Content.posting?).length +
            (front.filterMap Written.Content.posting?).length := by
          simpa [Written.Content.posting?, ← Nat.add_assoc] using hlength
        omega
      rw [List.getElem?_append_left hindex] at hget
      rw [Written.tagsAbove_append_of_ne_nil hfront, List.getElem?_append_left hindex, hget]

/-- **One more line keeps the tags shared.** -/
theorem addLine (h : SharesTags w t) (hline : t.addLine line = .ok u) :
    SharesTags { w with lines := w.lines ++ [line] } u := by
  rcases Transaction.addLine_eq_ok.mp hline with ⟨p, q, rfl, hq, rfl⟩ | ⟨c, rfl, rfl⟩
  · exact h.addPosting hq
  · exact h.tagLast

end SharesTags

/-! ## Transactions and declarations -/

/-- **Every tag belongs to what it is written under**, and none is lost or doubled. -/
theorem shares_tags_of_ofWritten (year : Int) :
    (∀ w t, Transaction.ofWritten year w = .ok t → SharesTags w t) ∧
    (∀ a, (AccountEntry.ofWritten a).tags =
      tagsOf a.comment ++ a.lines.flatMap Written.Comment.tags) ∧
    (∀ c e, CommodityEntry.ofWritten c = .ok e → e.tags =
      tagsOf c.comment ++
        (c.lines.filterMap Written.CommodityContent.comment?).flatMap Written.Comment.tags) := by
  refine ⟨fun w t h => ?_, fun a => rfl, fun c e h => ?_⟩
  · obtain ⟨date, secondDate, -, -, hlines⟩ := Transaction.ofWritten_eq_ok.mp h
    exact foldlM_induction (motive := fun lines t => SharesTags { w with lines } t)
      (.start rfl rfl) (fun front line t u hfront hstep => hfront.addLine hstep) hlines
  · obtain ⟨shown, -, h⟩ := bind_eq_ok.mp h
    obtain ⟨format, -, h⟩ := bind_eq_ok.mp h
    cases h
    rw [Written.flatMap_tags_eq]

/-- Comments above, between and below two postings, and a format above a comment. -/
theorem shares_tags_of_ofWritten_two_postings :
    let tagged (name : String) : Written.Comment := ⟨[.text "t", .tag ⟨name, none⟩]⟩
    let posting (comment : Option Written.Comment) : Written.Posting :=
      ⟨.unmarked, ⟨.real, ["A"]⟩, none, none, none, comment⟩
    let w : Written.Transaction := ⟨"2024/1/2", none, .unmarked, none, none, some (tagged "a"),
      [.comment (tagged "b"), .posting (posting (some (tagged "c"))), .comment (tagged "d"),
        .posting (posting none), .comment (tagged "e"), .comment (tagged "f")]⟩
    let c : Written.CommodityDirective := ⟨.name "$", some (tagged "a"),
      [.format ⟨.positive, "1.00", "$", "$1.00"⟩, .comment (tagged "b")]⟩
    ∃ t e, Transaction.ofWritten 2024 w = .ok t ∧ CommodityEntry.ofWritten c = .ok e ∧
      SharesTags w t ∧ t.tags = [⟨"a", none⟩, ⟨"b", none⟩] ∧
      t.postings.map Posting.tags = [[⟨"c", none⟩, ⟨"d", none⟩], [⟨"e", none⟩, ⟨"f", none⟩]] ∧
      e.tags = [⟨"a", none⟩, ⟨"b", none⟩] := by
  intro tagged posting w c
  have ht : Transaction.ofWritten 2024 w = .ok {
      Transaction.blank ⟨2024, 1, 2, by decide⟩ .empty with
      postings := [⟨.unmarked, ⟨.real, ["A"]⟩, none, none, none, [⟨"c", none⟩, ⟨"d", none⟩]⟩,
        ⟨.unmarked, ⟨.real, ["A"]⟩, none, none, none, [⟨"e", none⟩, ⟨"f", none⟩]⟩]
      tags := [⟨"a", none⟩, ⟨"b", none⟩] } := by decide +kernel
  have he : CommodityEntry.ofWritten c = .ok ⟨"$",
      some ⟨⟨false, 100, 2, by decide, by decide⟩, some "$"⟩, [⟨"a", none⟩, ⟨"b", none⟩]⟩ := by
    decide +kernel
  exact ⟨_, _, ht, he, (shares_tags_of_ofWritten 2024).1 w _ ht, rfl, rfl,
    (shares_tags_of_ofWritten 2024).2.2 c _ he⟩

end Daybook
