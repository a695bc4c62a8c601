import Daybook.Proofs.Reading.Comments
import Daybook.Proofs.Reading.Header
import Daybook.Proofs.Token.Tags
import Daybook.Proofs.Written.Comments

/-!
# Tags that are shown and read again

What is said as a tag by the tokens of a source can be found as one. So the tags of a comment, shown
with commas between them behind `2000/01/01 x ; `, are read as the comment of a transaction, and
nothing of them is lost, added or taken for free text. About `parse_to_raw` and the `Display` of
tags ([SPEC 4.1]).

* `plainChunks`: the chunks of `2000/01/01 x ;`.
* `taggedHeader tags`: what a first line with these tags in its comment says.

Results:
* `run_plainChunks`: behind `2000/01/01 x ;` a comment goes on.
* `exists_tagParts`: the tokens of tags are the parts of a comment that says the tags.
* `isFound_of_told`: a tag that tokens of a source say is found again.
* `readWritten_tagTexts`: **the texts of tags are read as the tags.**
-/

namespace Daybook

open Daybook.Tree Lexeme Text

variable {tags : List Tag} {t : Tag} {source : String}

/-! ## Behind `2000/01/01 x ;` -/

/-- The front of a first line, up to the sign of its comment. -/
def plainChunks : List Chunk :=
  [⟨[], .date, "2000/01/01".toList, none⟩, ⟨[' '], .text, ['x'], none⟩,
    ⟨[' '], .semicolon, [';'], none⟩]

/-- The sign of the comment. -/
def plainSemicolon : Token := ⟨.semicolon, ";", ⟨13, 1, 14⟩, none⟩

theorem tokensFrom_plainChunks : tokensFrom .start plainChunks =
    [⟨.date, "2000/01/01", ⟨0, 1, 1⟩, none⟩, ⟨.text, "x", ⟨11, 1, 12⟩, none⟩, plainSemicolon] := by
  decide +kernel

namespace Scanner

/-- Behind the sign the comment goes on. -/
theorem run_plainChunks (ahead : List Char) :
    start.run (written plainChunks ++ ahead) =
      (start.beyond plainChunks ⟨[.inlineComment, .header]⟩).run ahead := by
  let date : Chunk := ⟨[], .date, "2000/01/01".toList, none⟩
  let text : Chunk := ⟨[' '], .text, ['x'], none⟩
  let sign : Chunk := ⟨[' '], .semicolon, [';'], none⟩
  let dated := start.beyond [date] ⟨[.header]⟩
  let told := dated.beyond [text] ⟨[.header]⟩
  have hdate : start.next (date.text ++ (' ' :: 'x' :: ' ' :: ';' :: ahead)) =
      .token .date ⟨10, none, by decide⟩ (.enter .header) := rfl
  have htext : Mode.header.token? ((dated.pass [' ']).view ('x' :: ' ' :: ';' :: ahead)) =
      some (.text, Match.single, .stay) := token?_header (c := 'x') rfl (by decide) rfl
  have hsign : Mode.header.token? ((told.pass [' ']).view (';' :: ahead)) =
      some (.semicolon, Match.single, .enter .inlineComment) :=
    token?_header (c := ';') rfl (by decide) rfl
  calc start.run (written plainChunks ++ ahead)
      = dated.run ([' '] ++ ['x'] ++ (' ' :: ';' :: ahead)) := run_token hdate rfl
    _ = told.run ([' '] ++ [';'] ++ ahead) := run_beyond (s := dated) (c := text) (by decide)
      space_mem_layout (next_of_token? (by decide) rfl rfl htext) rfl rfl
    _ = (told.beyond [sign] ⟨[.inlineComment, .header]⟩).run ahead := run_beyond (s := told) (c := sign)
      (by decide) space_mem_layout (next_of_token? (by decide) rfl rfl hsign) rfl rfl

end Scanner

/-- **The tokens of a first line with tags in its comment.** -/
theorem tokenize_tagTexts (hne : tags ≠ []) (h : ∀ t ∈ tags, t.IsFound) :
    tokenize ("2000/01/01 x ; " ++ ", ".intercalate (tags.map Tag.text) ++ "\n") =
      ⟨tokensFrom .start (plainChunks ++ tagChunks tags) ++
        [⟨.newline, "\n", Place.start.advance (written (plainChunks ++ tagChunks tags)), none⟩],
        []⟩ := by
  have hfront : "2000/01/01 x ; ".toList = written plainChunks ++ [' '] := by decide +kernel
  have hsource : ("2000/01/01 x ; " ++ ", ".intercalate (tags.map Tag.text) ++ "\n").toList =
      written plainChunks ++ (written (tagChunks tags) ++ ['\n']) := by
    rw [written_tagChunks hne, String.toList_append, String.toList_append, hfront]
    simp
  let modes : ModeStack := ⟨[.inlineComment, .header]⟩
  have hrun : (Scanner.start.beyond plainChunks modes).run (written (tagChunks tags) ++ ['\n']) =
      (Scanner.start.beyond (plainChunks ++ tagChunks tags) (modes.push .tagValue)).run ['\n'] := by
    rw [← Scanner.beyond_beyond _ _ _ modes]
    exact Scanner.run_tags rfl hne h
  obtain ⟨htokens, hfaults⟩ :=
    Scanner.start.run_beyond_newline (plainChunks ++ tagChunks tags) (modes.push .tagValue)
  rw [tokenize, hsource, Scanner.run_plainChunks, hrun, htokens, hfaults]
  simp [Scanner.start]

/-! ## What the tokens of tags say -/

/-- The tokens of a tag, with a comma behind it or without. -/
theorem exists_tagTree (t : Tag) (p : Place) {comma : List Chunk}
    (hcomma : comma = [] ∨ comma = [.tagComma]) :
    ∃ tree : Tree.Tag, (CommentPart.tag tree).IsSpelled ∧
      tokensFrom p (t.chunks ++ comma) = tree.tokens ∧ Written.tagOfTree tree = t := by
  obtain ⟨name, value⟩ := t
  cases value <;> rcases hcomma with rfl | rfl
  · refine ⟨⟨_, _, none, none⟩, ?_, rfl, ?_⟩ <;> simp [isSpelled_tag, Written.tagOfTree]
  · refine ⟨⟨_, _, none, some _⟩, ?_, rfl, ?_⟩ <;>
      simp [isSpelled_tag, Written.tagOfTree, Chunk.tagComma]
  · refine ⟨⟨_, _, some _, none⟩, ?_, rfl, ?_⟩ <;>
      simp [isSpelled_tag, Written.tagOfTree, Chunk.tagValue]
  · refine ⟨⟨_, _, some _, some _⟩, ?_, rfl, ?_⟩ <;>
      simp [isSpelled_tag, Written.tagOfTree, Chunk.tagValue, Chunk.tagComma]

theorem ofTree_cons_tag (tree : Tree.Tag) {semicolon : Token} {parts : List CommentPart}
    (h : Written.Comment.ofTree ⟨semicolon, parts⟩ = ⟨tags.map .tag⟩) :
    Written.Comment.ofTree ⟨semicolon, .tag tree :: parts⟩ =
      ⟨(Written.tagOfTree tree :: tags).map .tag⟩ := by
  have hparts := congrArg Written.Comment.parts h
  exact congrArg (fun parts => Written.Comment.mk (.tag (Written.tagOfTree tree) :: parts)) hparts

/-- The tokens of tags are the parts of a comment that says the tags and nothing else. -/
theorem exists_tagParts (tags : List Tag) (p : Place) (semicolon : Token) :
    ∃ parts : List CommentPart, (∀ q ∈ parts, q.IsSpelled) ∧
      tokensFrom p (tagChunks tags) = parts.flatMap CommentPart.tokens ∧
      Written.Comment.ofTree ⟨semicolon, parts⟩ = ⟨tags.map .tag⟩ := by
  induction tags using tagChunks.induct generalizing p with
  | case1 => exact ⟨[], by simp, rfl, rfl⟩
  | case2 t =>
    obtain ⟨tree, hspelled, htokens, rfl⟩ := exists_tagTree t p (.inl rfl)
    rw [List.append_nil] at htokens
    exact ⟨[.tag tree], List.forall_mem_singleton.mpr hspelled,
      by rw [List.flatMap_singleton]; exact htokens, ofTree_cons_tag tree rfl⟩
  | case3 t u ts ih =>
    obtain ⟨tree, hspelled, htokens, rfl⟩ := exists_tagTree t p (.inr rfl)
    obtain ⟨parts, hparts, hmore, hsays⟩ :=
      ih (p.advance (written ((Written.tagOfTree tree).chunks ++ [.tagComma])))
    refine ⟨.tag tree :: parts, List.forall_mem_cons.mpr ⟨hspelled, hparts⟩, ?_,
      ofTree_cons_tag tree hsays⟩
    rw [tagChunks, List.append_cons, tokensFrom_append, htokens, hmore]
    rfl

/-- What a first line with these tags in its comment says. -/
def taggedHeader (tags : List Tag) : Written.Transaction where
  date := "2000/01/01"
  secondDate := none
  status := .unmarked
  chequeNumber := none
  description := some (.plain "x")
  comment := some ⟨tags.map .tag⟩
  lines := []

/-- Tags that can be found as such are read again. -/
theorem readWritten_of_isFound (hne : tags ≠ []) (h : ∀ t ∈ tags, t.IsFound) :
    ∃ span, readWritten ("2000/01/01 x ; " ++ ", ".intercalate (tags.map Tag.text) ++ "\n") =
      .ok ⟨⟨[⟨.transaction (taggedHeader tags), span⟩]⟩, [], []⟩ := by
  have hstream := tokenize_tagTexts hne h
  generalize "2000/01/01 x ; " ++ ", ".intercalate (tags.map Tag.text) ++ "\n" = source at hstream ⊢
  obtain ⟨parts, hspelled, htokens, hsays⟩ :=
    exists_tagParts tags (Place.start.advance (written plainChunks)) plainSemicolon
  rw [tokensFrom_append, tokensFrom_plainChunks, htokens] at hstream
  generalize hnewline : (⟨.newline, "\n", _, none⟩ : Token) = newline at hstream
  let comment : Tree.Comment := ⟨plainSemicolon, parts⟩
  let tree : Tree.Transaction := { plainHeader with comment := some comment, newline := newline }
  have hcomment : plainSemicolon :: parts.flatMap CommentPart.tokens ∈ comment.spellings :=
    Language.append_mem_mul (a := [plainSemicolon]) (mem_spellKind.mpr ⟨rfl, rfl⟩)
      (flatMap_tokens_mem_spellList hspelled)
  have htree : (tokenize source).tokens ∈ tree.spellings := by
    rw [hstream]
    simpa using mem_spellings_plainHeader (some comment) hcomment
      (hnewline ▸ rfl : newline.kind = .newline)
  have hread := readWritten_transaction (by rw [hstream]) htree
  have hwritten : Written.Transaction.ofTree tree = taggedHeader tags := by
    have hmeans : (some comment).map Written.Comment.ofTree = some ⟨tags.map .tag⟩ :=
      congrArg some hsays
    unfold Written.Transaction.ofTree taggedHeader
    simp only [tree, hmeans]
    rfl
  exact ⟨_, hwritten ▸ hread⟩

/-! ## The tags of a source -/

/-- A tag that tokens of a source say can be found. -/
theorem isFound_of_told (h : Told SaysTag (tokenize source).tokens t) : t.IsFound := by
  obtain ⟨us, hsub, tree, hus, rfl⟩ := h
  obtain ⟨hname, -, hvalue, -⟩ := tree.kinds_of_mem_spellings hus
  have hmem : ∀ u ∈ tree.tokens, u ∈ (tokenize source).tokens := fun u hu =>
    hsub.subset ((tree.rearranges us hus).mem_iff.mpr hu)
  have htexts : ∀ u ∈ tree.tokens, u.image.toList ∈ u.kind.texts := fun u hu =>
    (mem_textsWith_of_mem_tokenize (hmem u hu)).1
  have hvalues : ∀ v ∈ tree.value, v ∈ tree.tokens := fun v hv => by
    simp [Tree.Tag.tokens, Option.mem_def.mp hv]
  constructor
  case name =>
    have htext := htexts tree.name (by simp [Tree.Tag.tokens])
    rwa [hname] at htext
  case value =>
    intro v hv
    obtain ⟨u, hu, rfl⟩ := Option.map_eq_some_iff.mp hv
    have htext := htexts u (hvalues u hu)
    rwa [hvalue u hu] at htext
  case layout =>
    intro v hv
    obtain ⟨u, hu, rfl⟩ := Option.map_eq_some_iff.mp hv
    exact isLayout_of_mem_tokenize (hmem u (hvalues u hu)) (hvalue u hu)

/-- **The texts of tags are read as the tags.** The tags of a comment of a source, in written order
and with commas between them, are all there is in the comment of a transaction: the names and the
values are the same, there is no free text, and nothing is passed over. -/
theorem readWritten_tagTexts {source : String} {r : Reading Written.Journal}
    (h : readWritten source = .ok r) : ∀ c ∈ r.result.comments, c.tags ≠ [] →
      ∃ span, readWritten
          ("2000/01/01 x ; " ++ ", ".intercalate (c.tags.map Tag.text) ++ "\n") =
        .ok ⟨⟨[⟨.transaction (taggedHeader c.tags), span⟩]⟩, [], []⟩ := by
  intro c hc hne
  have htold : Told SaysComment (tokenize source).tokens c :=
    told_of_readWritten (fun _ _ => tells_comments) h hc
  exact readWritten_of_isFound hne fun t ht => isFound_of_told (htold.tag ht)

/-- Two tags without a value and one whose value holds a colon and a semicolon, with free text and
layout between them. -/
theorem readWritten_tagTexts_three :
    ∃ r, readWritten "account A ; see a:, b;c:\t x: y;z ,d:\n" = .ok r ∧
      r.result.comments = [⟨[.text "see", .tag ⟨"a", none⟩, .tag ⟨"b;c", some "x: y;z"⟩,
        .tag ⟨"d", none⟩]⟩] ∧
      ∃ span, readWritten ("2000/01/01 x ; " ++ "a:, b;c: x: y;z, d:" ++ "\n") =
        .ok ⟨⟨[⟨.transaction (taggedHeader [⟨"a", none⟩, ⟨"b;c", some "x: y;z"⟩, ⟨"d", none⟩]),
          span⟩]⟩, [], []⟩ := by
  let comment : Written.Comment := ⟨[.text "see", .tag ⟨"a", none⟩, .tag ⟨"b;c", some "x: y;z"⟩,
    .tag ⟨"d", none⟩]⟩
  have hread : readWritten "account A ; see a:, b;c:\t x: y;z ,d:\n" =
      .ok ⟨⟨[⟨.account ⟨["A"], some comment, []⟩, ⟨0, 37⟩⟩]⟩, [], []⟩ := by decide +kernel
  refine ⟨_, hread, rfl, ?_⟩
  have hshown : "a:, b;c: x: y;z, d:" = ", ".intercalate (comment.tags.map Tag.text) := by
    decide +kernel
  rw [hshown]
  exact readWritten_tagTexts hread comment List.mem_cons_self (by decide)

end Daybook
