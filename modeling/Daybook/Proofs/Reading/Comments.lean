import Daybook.Proofs.Token.Comment
import Daybook.Proofs.Tree.Rules
import Daybook.Proofs.Tree.Slots

/-!
# Comments as they are meant

The tokenizer finds texts and tags in a comment by what stands around them, and the grammar puts
together what it finds by the kinds alone. They agree: each text and each name of a tag starts a
part of its own, and what stands behind it up to the next one belongs to it. About
`scan_inline_text`, `scan_tag_name` and `inline_comment` ([SPEC 4.1]).

* `Kind.startsPart kind`: a token of the kind starts a part of a comment.
* `CommentPart.IsSpelled p`: the tokens of the part are of the kinds that stand in their places.

Results:
* `exists_parts`: tokens that go on as they may are those of some parts.
* `splitBy_flatMap_tokens`: the tokens of parts tell the parts.
* `comment_of_tokenize`: **in a line with no fault behind its sign the comment is read up to the end
  of the line**, with the parts that its tokens start.
-/

namespace Daybook

open Daybook.Tree

/-- A token of this kind starts a part of a comment. -/
def Kind.startsPart (kind : Kind) : Bool := kind = inlineText || kind = tagName

namespace Tree

/-- The tokens of the part are of the kinds that stand in their places. -/
def CommentPart.IsSpelled (p : CommentPart) : Prop := p.tokens ∈ p.spellings

variable {parts : List CommentPart} {us : List Token} {t u : Token}

theorem spellToken_of_kind {kind : Kind} {o : Option Token} (h : ∀ t ∈ o, t.kind = kind) :
    o.toList ∈ spellOption (spellKind kind) o := by
  cases o with
  | none => rfl
  | some t => exact mem_spellKind.mpr ⟨rfl, h t rfl⟩

theorem kind_of_spellToken {kind : Kind} {o : Option Token} {ts : List Token}
    (h : ts ∈ spellOption (spellKind kind) o) : ∀ t ∈ o, t.kind = kind := by
  cases o with
  | none => exact fun _ ht => nomatch ht
  | some t =>
    rintro _ ⟨⟩
    exact (mem_spellKind.mp h).2

theorem isSpelled_text : (CommentPart.text t).IsSpelled ↔ t.kind = .inlineText :=
  mem_spellKind.trans (and_iff_right rfl)

/-- The tokens that spell a tag are each of the kind that stands in its place. -/
theorem Tag.kinds_of_mem_spellings {t : Tag} (h : us ∈ t.spellings) : t.name.kind = .tagName ∧
    t.colon.kind = .tagColon ∧ (∀ v ∈ t.value, v.kind = .tagValue) ∧
    ∀ c ∈ t.comma, c.kind = .tagComma := by
  obtain ⟨_, ⟨_, ⟨_, hname, _, hcolon, rfl⟩, _, hvalue, rfl⟩, _, hcomma, -⟩ := h
  exact ⟨(mem_spellKind.mp hname).2, (mem_spellKind.mp hcolon).2, kind_of_spellToken hvalue,
    kind_of_spellToken hcomma⟩

theorem isSpelled_tag {t : Tag} : (CommentPart.tag t).IsSpelled ↔ t.name.kind = .tagName ∧
    t.colon.kind = .tagColon ∧ (∀ v ∈ t.value, v.kind = .tagValue) ∧
    ∀ c ∈ t.comma, c.kind = .tagComma := by
  refine ⟨Tag.kinds_of_mem_spellings, ?_⟩
  rintro ⟨hname, hcolon, hvalue, hcomma⟩
  exact Language.append_mem_mul (Language.append_mem_mul (Language.append_mem_mul
    (mem_spellKind.mpr ⟨rfl, hname⟩) (mem_spellKind.mpr ⟨rfl, hcolon⟩))
    (spellToken_of_kind hvalue)) (spellToken_of_kind hcomma)

/-- Parts are spelled by their tokens one behind the other. -/
theorem flatMap_tokens_mem_spellList (h : ∀ p ∈ parts, p.IsSpelled) :
    parts.flatMap CommentPart.tokens ∈ spellList CommentPart.spellings parts := by
  induction parts with
  | nil => rfl
  | cons p parts ih =>
    obtain ⟨hp, hmore⟩ := List.forall_mem_cons.mp h
    exact Language.append_mem_mul hp (ih hmore)

/-! ## The tokens of parts tell the parts -/

/-- A part starts with a token that starts parts, and no other token of it does. -/
theorem CommentPart.IsSpelled.exists_start {p : CommentPart} (h : p.IsSpelled) :
    ∃ t us, p.tokens = t :: us ∧ t.kind.startsPart ∧ ∀ u ∈ us, u.kind.startsPart = false := by
  cases p with
  | text t => exact ⟨t, [], rfl, by rw [isSpelled_text.mp h]; rfl, by simp⟩
  | tag t =>
    obtain ⟨hname, hcolon, hvalue, hcomma⟩ := isSpelled_tag.mp h
    refine ⟨t.name, [t.colon] ++ t.value.toList ++ t.comma.toList, by simp [tokens, Tag.tokens],
      by rw [hname]; rfl, fun u hu => ?_⟩
    simp only [List.mem_append, List.mem_singleton, Option.mem_toList] at hu
    rcases hu with (rfl | hu) | hu
    · rw [hcolon]
      rfl
    · rw [hvalue u hu]
      rfl
    · rw [hcomma u hu]
      rfl

/-- **The tokens of parts tell the parts**: cut in front of each token that starts one, they are the
tokens part by part. -/
theorem splitBy_flatMap_tokens (h : ∀ p ∈ parts, p.IsSpelled) :
    (parts.flatMap CommentPart.tokens).splitBy (fun _ u => !u.kind.startsPart) =
      parts.map CommentPart.tokens := by
  have hstart : ∀ ts ∈ parts.map CommentPart.tokens,
      ∃ t us, ts = t :: us ∧ t.kind.startsPart ∧ ∀ u ∈ us, u.kind.startsPart = false := by
    intro ts hts
    obtain ⟨p, hp, rfl⟩ := List.mem_map.mp hts
    exact (h p hp).exists_start
  rw [List.flatMap_def]
  refine List.splitBy_flatten ?_ ?_ ?_
  · intro hnil
    obtain ⟨t, us, heq, -⟩ := hstart _ hnil
    cases heq
  · intro ts hts
    obtain ⟨t, us, rfl, -, hmore⟩ := hstart ts hts
    refine (List.pairwise_cons.mpr ⟨fun u hu => ?_, ?_⟩).isChain
    · simp [hmore u hu]
    · exact List.pairwise_of_forall_mem_list fun _ _ u hu => by simp [hmore u hu]
  · refine (List.pairwise_of_forall_mem_list fun ts hts vs hvs => ?_).isChain
    obtain ⟨t, us, rfl, -⟩ := hstart ts hts
    obtain ⟨v, ws, rfl, hv, -⟩ := hstart vs hvs
    exact ⟨List.cons_ne_nil _ _, List.cons_ne_nil _ _, by simp [hv]⟩

/-! ## Tokens that go on as they may -/

/-- Behind the sign of a comment, a text or a comma a part starts. -/
theorem startsPart_of_goesTo {kind next : Kind} (hkind : kind ∈ [.semicolon, .inlineText, .tagComma])
    (h : next ∈ kind.goesTo) (hline : next ≠ .newline) : next.startsPart := by
  have hall : ∀ k ∈ [Kind.semicolon, .inlineText, .tagComma], ∀ l ∈ k.goesTo, l ≠ .newline →
      l.startsPart := by decide
  exact hall kind hkind next h hline

/-- The tokens of the first part. -/
theorem exists_part (hchain : (t :: us).IsChain fun t u => u.kind ∈ t.kind.goesTo)
    (hline : ∀ u ∈ t :: us, u.kind ≠ .newline) (hstart : t.kind.startsPart)
    (hlast : ∀ u ∈ (t :: us).getLast?, u.kind ≠ .tagName) :
    ∃ (p : CommentPart) (rest : List Token), p.IsSpelled ∧ t :: us = p.tokens ++ rest ∧
      ∀ u ∈ rest.head?, u.kind.startsPart := by
  obtain ⟨hnext, hchain⟩ := List.isChain_cons.mp hchain
  have hmore := (List.forall_mem_cons.mp hline).2
  simp only [Kind.startsPart, Bool.or_eq_true, decide_eq_true_eq] at hstart
  rcases hstart with htext | hname
  · refine ⟨.text t, us, isSpelled_text.mpr htext, rfl, fun u hu => ?_⟩
    exact startsPart_of_goesTo (by simp [htext]) (hnext u hu) (hmore u (List.mem_of_mem_head? hu))
  · cases us with
    | nil => exact absurd hname (hlast t rfl)
    | cons c us =>
      have hcolon : c.kind = .tagColon := by
        have hgoes := hnext c rfl
        rw [hname] at hgoes
        exact List.mem_singleton.mp hgoes
      obtain ⟨hnext, hchain⟩ := List.isChain_cons.mp hchain
      have hmore := (List.forall_mem_cons.mp hmore).2
      cases us with
      | nil =>
        exact ⟨.tag ⟨t, c, none, none⟩, [], isSpelled_tag.mpr ⟨hname, hcolon, by simp, by simp⟩,
          rfl, by simp⟩
      | cons v us =>
        have hgoes := hnext v rfl
        obtain ⟨hv, hmore⟩ := List.forall_mem_cons.mp hmore
        obtain ⟨hnext, hchain⟩ := List.isChain_cons.mp hchain
        simp only [hcolon, Kind.goesTo, List.mem_cons, List.not_mem_nil, or_false, hv] at hgoes
        rcases hgoes with hvalue | hcomma
        · cases us with
          | nil =>
            exact ⟨.tag ⟨t, c, some v, none⟩, [],
              isSpelled_tag.mpr ⟨hname, hcolon, by simpa using hvalue, by simp⟩, rfl, by simp⟩
          | cons m us =>
            have hgoes := hnext m rfl
            obtain ⟨hm, hmore⟩ := List.forall_mem_cons.mp hmore
            obtain ⟨hnext, -⟩ := List.isChain_cons.mp hchain
            simp only [hvalue, Kind.goesTo, List.mem_cons, List.not_mem_nil, or_false, hm] at hgoes
            refine ⟨.tag ⟨t, c, some v, some m⟩, us,
              isSpelled_tag.mpr ⟨hname, hcolon, by simpa using hvalue, by simpa using hgoes⟩, rfl,
              fun u hu => ?_⟩
            exact startsPart_of_goesTo (by simp [hgoes]) (hnext u hu)
              (hmore u (List.mem_of_mem_head? hu))
        · refine ⟨.tag ⟨t, c, none, some v⟩, us,
            isSpelled_tag.mpr ⟨hname, hcolon, by simp, by simpa using hcomma⟩, rfl, fun u hu => ?_⟩
          exact startsPart_of_goesTo (by simp [hcomma]) (hnext u hu)
            (hmore u (List.mem_of_mem_head? hu))

/-- **Tokens that go on as they may are those of some parts.** -/
theorem exists_parts {ts : List Token} (hchain : ts.IsChain fun t u => u.kind ∈ t.kind.goesTo)
    (hline : ∀ t ∈ ts, t.kind ≠ .newline) (hstart : ∀ t ∈ ts.head?, t.kind.startsPart)
    (hlast : ∀ t ∈ ts.getLast?, t.kind ≠ .tagName) :
    ∃ parts : List CommentPart,
      (∀ p ∈ parts, p.IsSpelled) ∧ parts.flatMap CommentPart.tokens = ts := by
  induction hn : ts.length using Nat.strongRecOn generalizing ts with
  | ind n ih =>
    cases ts with
    | nil => exact ⟨[], by simp, rfl⟩
    | cons t us =>
      obtain ⟨p, rest, hp, hsplit, hrest⟩ := exists_part hchain hline (hstart t rfl) hlast
      obtain ⟨u, vs, htokens, -⟩ := hp.exists_start
      rw [hsplit] at hchain hline hlast hn
      have hlt : rest.length < n := by
        rw [← hn, htokens, List.length_append, List.length_cons]
        omega
      obtain ⟨parts, hspelled, hparts⟩ := ih _ hlt (List.isChain_append.mp hchain).2.1
        (fun u hu => hline u (List.mem_append_right _ hu)) hrest
        (fun u hu => hlast u (List.mem_getLast?_append_of_mem_getLast? hu)) rfl
      exact ⟨p :: parts, List.forall_mem_cons.mpr ⟨hp, hspelled⟩,
        by rw [List.flatMap_cons, hparts, hsplit]⟩

end Tree

/-- **In a line with no fault behind its sign the comment is read up to the end of the line.** Each
token that starts a part starts one of those that are read, and the tokens behind it belong to this
part: the colon, the value and the comma to the name of the tag. -/
theorem comment_of_tokenize {source : String} {pre body post : List Token} {semicolon : Token}
    (h : (tokenize source).tokens = pre ++ semicolon :: (body ++ post))
    (hkind : semicolon.kind = .semicolon) (hbody : ∀ t ∈ body, t.kind ≠ .newline)
    (hpost : ∀ t ∈ post.head?, t.kind = .newline)
    (hquiet : ∀ f ∈ (tokenize source).faults, f.place.line = semicolon.place.line →
      f.place.offset < semicolon.place.offset) :
    ∃ parts : List CommentPart,
      (Grammar.comment (semicolon :: (body ++ post))).result = some (⟨semicolon, parts⟩, post) ∧
      parts.map CommentPart.tokens = body.splitBy (fun _ u => !u.kind.startsPart) ∧
      ∀ p ∈ parts, p.IsSpelled := by
  have hofComment : semicolon.kind.ofComment := by rw [hkind]; rfl
  obtain ⟨hchain, hlast⟩ := goesTo_tokenize h hofComment hbody hpost fun f hf hline => by
    have hlt := hquiet f hf hline
    exact Nat.lt_of_lt_of_le hlt (Nat.le_add_right _ _)
  obtain ⟨hfirst, hmore⟩ := List.isChain_cons.mp hchain
  have hstart : ∀ t ∈ body.head?, t.kind.startsPart := by
    intro t ht
    exact startsPart_of_goesTo (by simp [hkind]) (hfirst t ht) (hbody t (List.mem_of_mem_head? ht))
  have hbodyLast : ∀ t ∈ body.getLast?, t.kind ≠ .tagName := by
    intro t ht
    refine hlast t ?_
    rw [List.getLast?_cons, Option.mem_def.mp ht]
    rfl
  obtain ⟨parts, hspelled, rfl⟩ := exists_parts hmore hbody hstart hbodyLast
  refine ⟨parts, ?_, (splitBy_flatMap_tokens hspelled).symm, hspelled⟩
  have hcomment : semicolon :: parts.flatMap CommentPart.tokens ∈
      Comment.spellings ⟨semicolon, parts⟩ :=
    Language.append_mem_mul (a := [semicolon]) (mem_spellKind.mpr ⟨rfl, hkind⟩)
      (flatMap_tokens_mem_spellList hspelled)
  refine Grammar.reads_comment.complete trivial hcomment fun t ht => ?_
  rw [hpost t ht]
  decide

/-- A text, a tag with a value and a tag without one. -/
theorem comment_of_tokenize_two_tags :
    let tokens := (tokenize "1/2;see a:b,c:\n").tokens
    let semicolon : Token := ⟨.semicolon, ";", ⟨3, 1, 4⟩, none⟩
    tokens = tokens.take 1 ++ semicolon :: ((tokens.drop 2).take 7 ++ tokens.drop 9) ∧
    ∃ parts : List CommentPart,
      (Grammar.comment (semicolon :: ((tokens.drop 2).take 7 ++ tokens.drop 9))).result =
        some (⟨semicolon, parts⟩, tokens.drop 9) ∧
      parts.map CommentPart.tokens =
        ((tokens.drop 2).take 7).splitBy (fun _ u => !u.kind.startsPart) ∧
      ∀ p ∈ parts, p.IsSpelled := by
  intro tokens semicolon
  have hsplit : tokens =
      tokens.take 1 ++ semicolon :: ((tokens.drop 2).take 7 ++ tokens.drop 9) := by
    decide +kernel
  refine ⟨hsplit, comment_of_tokenize hsplit rfl ?_ ?_ ?_⟩
  · show ∀ t ∈ (((tokenize "1/2;see a:b,c:\n").tokens).drop 2).take 7, t.kind ≠ .newline
    decide +kernel
  · show ∀ t ∈ (((tokenize "1/2;see a:b,c:\n").tokens).drop 9).head?, t.kind = .newline
    decide +kernel
  · have hnone : (tokenize "1/2;see a:b,c:\n").faults = [] := by decide +kernel
    rw [hnone]
    simp

end Daybook
