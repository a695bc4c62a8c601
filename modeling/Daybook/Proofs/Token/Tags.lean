import Daybook.Journal.Terms
import Daybook.Proofs.Token.Chunks
import Daybook.Proofs.Token.Comment

/-!
# Tags as they are shown

A tag is shown as its name, a colon, and its value behind a space; tags are shown with commas
between them. In a comment each name is found behind a space, its colon right behind it, and the
value up to the next comma or the end of the line. So the tags are read again one by one, if their
names and values are texts that can be found as such. About `scan_tag_name`, `scan_tag_value` and
the `Display` of tags.

* `Tag.IsFound t`: the name and the value are texts that are found as the name and value of a tag.
* `Tag.chunks t`, `tagChunks tags`: a tag, and tags, as they are shown behind a space.

Results:
* `written_tagChunks`: the chunks of tags are the tags with commas between them.
* `next_of_tagValue`, `next_of_tagComma`: what comes next behind the colon of a tag.
* `run_tags`: **tags are read one by one.**
* `isLayout_of_mem_tokenize`: the value of a tag of a source starts with no layout.
-/

namespace Daybook

open Lexeme Text

/-! ## Tags as chunks -/

/-- The name and the value are texts that are found as such. -/
structure Tag.IsFound (t : Tag) : Prop where
  name : t.name.toList ∈ Kind.tagName.texts
  value : ∀ v ∈ t.value, v.toList ∈ Kind.tagValue.texts
  /-- Layout in front of a value is passed over, so a value starts with none. -/
  layout : ∀ v ∈ t.value, ∀ c ∈ v.toList.head?, isLayout c = false

/-- The value of a tag behind a space. -/
def Chunk.tagValue (value : String) : Chunk := ⟨[' '], .tagValue, value.toList, none⟩

/-- The comma behind a tag. -/
def Chunk.tagComma : Chunk := ⟨[], .tagComma, [','], none⟩

/-- A tag as it is shown behind a space. -/
def Tag.chunks (t : Tag) : List Chunk :=
  [⟨[' '], .tagName, t.name.toList, none⟩, ⟨[], .tagColon, [':'], none⟩] ++
    t.value.toList.map Chunk.tagValue

/-- Tags as they are shown behind a space. -/
def tagChunks : List Tag → List Chunk
  | [] => []
  | [t] => t.chunks
  | t :: u :: ts => t.chunks ++ .tagComma :: tagChunks (u :: ts)

variable {s : Scanner} {t : Tag} {tags : List Tag} {text ahead : List Char} {source : String}

theorem written_chunks (t : Tag) : written t.chunks = ' ' :: t.text.toList := by
  unfold Tag.chunks Tag.text
  cases t.value <;> simp [written, Chunk.tagValue]

/-- The chunks of tags are the tags with commas between them. -/
theorem written_tagChunks (hne : tags ≠ []) :
    written (tagChunks tags) = ' ' :: (", ".intercalate (tags.map Tag.text)).toList := by
  induction tags using tagChunks.induct with
  | case1 => exact absurd rfl hne
  | case2 t => rw [tagChunks, written_chunks, List.map_singleton, String.intercalate_singleton]
  | case3 t u ts ih =>
    have hmore := ih (List.cons_ne_nil u ts)
    have hcomma : ∀ chunks, written (.tagComma :: chunks) = ',' :: written chunks := fun _ => rfl
    rw [tagChunks, written_append, hcomma, hmore, written_chunks]
    simp [String.toList_intercalate]

namespace Scanner

/-! ## What comes next -/

/-- Behind its colon the value of a tag comes next, up to a comma or the end of the line. -/
theorem next_of_tagValue (hmode : s.modes.top = .tagValue) (htext : text ∈ Kind.tagValue.texts)
    (hlayout : ∀ c ∈ text.head?, isLayout c = false)
    (hahead : ∀ c ∈ ahead.head?, endsLine c || c = ',') :
    ∃ found, s.next (text ++ ahead) = .token .tagValue found .stay ∧
      found.length = text.length ∧ found.payload = none := by
  have hrun : freeRun (· = ',') (text ++ ahead) = text := freeRun_append htext hahead
  have hpos := List.length_pos_iff.mpr htext.1
  have hfound : (s.view (text ++ ahead)).textUpTo (· = ',') = some ⟨text.length, none, hpos⟩ := by
    simp only [View.textUpTo, view, hrun, Match.ofLength, hpos, dif_pos]
  obtain ⟨c, cs, rfl⟩ := List.exists_cons_of_ne_nil htext.1
  obtain ⟨hends, hstop⟩ := htext.2.1 c List.mem_cons_self
  have hsign : (s.view (c :: cs ++ ahead)).sign ',' = none := by
    simpa [View.sign, view] using hstop
  refine ⟨⟨(c :: cs).length, none, hpos⟩, ?_, rfl, rfl⟩
  rw [List.cons_append] at hsign hfound ⊢
  refine next_of_token? (by simp [hmode]) (layoutLength_of_not_isLayout (hlayout c rfl) _)
    (newlineLength_of_not_endsLine hends _) ?_
  rw [hmode, token?_tagValue, hsign, hfound]
  rfl

/-- A comma ends the value of a tag, and also where there is none. -/
theorem next_of_tagComma (hmode : s.modes.top = .tagValue) (cs : List Char) :
    s.next (',' :: cs) = .token .tagComma Match.single .leave := by
  have hsign : (s.view (',' :: cs)).sign ',' = some Match.single := rfl
  refine next_of_token? (by simp [hmode]) (layoutLength_of_not_isLayout (by decide) _)
    (newlineLength_of_not_endsLine (by decide) _) ?_
  rw [hmode, token?_tagValue, hsign]

/-! ## Tags one by one -/

/-- The name of a tag and its colon are passed. -/
theorem run_tagName (hmode : s.modes.top = .inlineComment) (htext : text ∈ Kind.tagName.texts)
    (ahead : List Char) :
    s.run ([' '] ++ text ++ ([':'] ++ ahead)) =
      (s.beyond [⟨[' '], .tagName, text, none⟩, ⟨[], .tagColon, [':'], none⟩]
        (s.modes.push .tagValue)).run ahead := by
  let name : Chunk := ⟨[' '], .tagName, text, none⟩
  let colon : Chunk := ⟨[], .tagColon, [':'], none⟩
  have hinner : s.modes.top ∉ [.lineStart, .lineComment] := by simp [hmode]
  have htag : tagNameLength? (text ++ ([':'] ++ ahead)) = some text.length :=
    tagNameLength?_eq_some_iff.mpr ⟨text, ahead, rfl, htext.1, htext.2, rfl⟩
  have hword : opensWord (s.pass [' ']).before := rfl
  have hpassed : (s.pass [' ']).modes.top = .inlineComment := hmode
  obtain ⟨found, hnext, hlength, hpayload⟩ := next_of_tag hpassed hword htag
  -- right behind the name, the colon is the one of its tag
  let named := s.beyond [name] s.modes
  let token : Token := ⟨.tagName, String.ofList text, s.place.advance [' '], none⟩
  have hstop : token.stop = named.place.offset := by
    rw [s.place_beyond [name] s.modes]
    simp [token, name, Token.stop, Token.offset, Token.length, written, Place.offset_advance,
      byteLength_cons, byteLength_nil, Nat.add_assoc]
  have hcolon : (named.pass []).next ([':'] ++ ahead) =
      .token .tagColon Match.single (.enter .tagValue) :=
    next_of_colon (s := named) (t := token) hmode rfl rfl hstop ahead
  have hname := run_beyond (c := name) hinner space_mem_layout hnext hlength hpayload
  have hbehind : named.run ([] ++ [':'] ++ ahead) = (named.beyond [colon] _).run ahead :=
    run_beyond (s := named) (c := colon) hinner (nil_mem_manyOf _) hcolon rfl rfl
  exact (hname.trans hbehind).trans (by rw [beyond_beyond]; rfl)

/-- **A tag is passed** in front of a comma or the end of the line. -/
theorem run_tag (hmode : s.modes.top = .inlineComment) (h : t.IsFound)
    (hahead : ∀ c ∈ ahead.head?, endsLine c || c = ',') :
    s.run (written t.chunks ++ ahead) = (s.beyond t.chunks (s.modes.push .tagValue)).run ahead := by
  obtain ⟨name, value⟩ := t
  cases value with
  | none =>
    have hname := run_tagName hmode h.name ahead
    simpa [written, Tag.chunks] using hname
  | some v =>
    have hname := run_tagName hmode h.name ([' '] ++ v.toList ++ ahead)
    generalize hs : s.beyond _ (s.modes.push .tagValue) = behind at hname
    have hbehind : behind.modes = s.modes.push .tagValue := by rw [← hs]; rfl
    have htop : behind.modes.top = .tagValue := by rw [hbehind]; rfl
    have hpassed : (behind.pass [' ']).modes.top = .tagValue := htop
    obtain ⟨found, hnext, hlength, hpayload⟩ :=
      next_of_tagValue hpassed (h.value v rfl) (h.layout v rfl) hahead
    have hvalue := run_beyond (c := .tagValue v) (by simp [htop]) space_mem_layout hnext hlength hpayload
    calc s.run (written (Tag.chunks ⟨name, some v⟩) ++ ahead)
        = behind.run ([' '] ++ v.toList ++ ahead) := by
          rw [← hname]
          simp [written, Tag.chunks, Chunk.tagValue]
      _ = (behind.beyond [.tagValue v] behind.modes).run ahead := hvalue
      _ = (s.beyond (Tag.chunks ⟨name, some v⟩) (s.modes.push .tagValue)).run ahead := by
          rw [hbehind, ← hs, beyond_beyond]
          rfl

/-- **Tags are read one by one**, up to the end of the line. -/
theorem run_tags (hmode : s.modes.top = .inlineComment) (hne : tags ≠ [])
    (h : ∀ t ∈ tags, t.IsFound) :
    s.run (written (tagChunks tags) ++ ['\n']) =
      (s.beyond (tagChunks tags) (s.modes.push .tagValue)).run ['\n'] := by
  induction tags using tagChunks.induct generalizing s with
  | case1 => exact absurd rfl hne
  | case2 t =>
    exact run_tag hmode (h t List.mem_cons_self) (by rintro _ ⟨⟩; rfl)
  | case3 t u ts ih =>
    obtain ⟨ht, hmore⟩ := List.forall_mem_cons.mp h
    let behind := s.beyond t.chunks (s.modes.push .tagValue)
    let rest := written (tagChunks (u :: ts)) ++ ['\n']
    have htag : s.run (written t.chunks ++ ',' :: rest) = behind.run (',' :: rest) :=
      run_tag hmode ht (by rintro _ ⟨⟩; rfl)
    have hcomma : behind.run ([] ++ [','] ++ rest) = (behind.beyond [.tagComma] s.modes).run rest :=
      run_beyond (c := .tagComma) (by simp [behind, beyond, ModeStack.top_push])
        (nil_mem_manyOf _) (next_of_tagComma rfl rest) rfl rfl
    calc s.run (written (tagChunks (t :: u :: ts)) ++ ['\n'])
        = s.run (written t.chunks ++ ',' :: rest) := by
          rw [tagChunks, written_append, List.append_assoc]
          rfl
      _ = (behind.beyond [.tagComma] s.modes).run rest := htag.trans hcomma
      _ = (s.beyond (t.chunks ++ [.tagComma]) s.modes).run rest := by rw [beyond_beyond]
      _ = (s.beyond (tagChunks (t :: u :: ts)) (s.modes.push .tagValue)).run ['\n'] := by
          have hrest := ih (s := s.beyond (t.chunks ++ [.tagComma]) s.modes) hmode
            (List.cons_ne_nil u ts) hmore
          rw [hrest, beyond_beyond]
          simp [tagChunks, beyond]

end Scanner

/-! ## Values of a source -/

/-- The value of a tag of a source starts with no layout. -/
theorem isLayout_of_mem_tokenize {v : Token} (hv : v ∈ (tokenize source).tokens)
    (hkind : v.kind = .tagValue) : ∀ c ∈ v.image.toList.head?, isLayout c = false := by
  obtain ⟨s, rest, -, hne, hnotes⟩ := Scanner.exists_notes_of_mem_tokenize hv
  obtain ⟨found, move, hnext, -, hfound⟩ := hnotes.exists_found hne (by rw [hkind]; decide)
  rw [hkind] at hfound
  have hmode : s.modes.top ∉ [.lineStart, .lineComment] := by
    rw [mode_of_tagValue hfound]
    decide
  have hpos := (s.next rest).taken_pos
  rw [hnotes.image, List.head?_take, if_neg (Nat.ne_of_gt hpos)]
  exact Scanner.isLayout_of_next_token hmode hnext

end Daybook
