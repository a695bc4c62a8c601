import Daybook.Proofs.Lexeme.Language
import Daybook.Proofs.Token.Lines

/-!
# The language of each kind

Every token is spelled as its kind says: its text is in the language of the kind, what it carries is
read off the text, and what stands behind it lets it end there. About the scanners of all modes and
their payloads ([SPEC 11.1], [SPEC 11.3]).

* `Kind.texts kind`: the texts that tokens of the kind can have.
* `Kind.Means kind text payload`: what a token of the kind with this text carries.
* `Kind.Borders kind ahead`: what may stand behind a token of the kind.
* `Kind.FoundBy kind find`: what the finder finds is a token of the kind, in these three respects.

Results:
* `foundBy_of_mem_rules`: every rule finds tokens of its kind.
* `takes_token?`: **every token of a mode is spelled as its kind says.**
-/

namespace Daybook

open Lexeme Text

/-! ## Kinds -/

namespace Kind

/-- The texts that tokens of a kind can have. -/
def texts : Kind → Language Char
  | newline => exactly ['\n'] + exactly ['\r', '\n']
  | date => dateText
  | priceKeyword => exactly "P".toList
  | accountKeyword => exactly "account".toList
  | commodityKeyword => exactly "commodity".toList
  | defaultKeyword => exactly "D".toList
  | formatKeyword => exactly "format".toList
  | indent => someOf isLayout
  | commentMarker => exactly [';'] + exactly ['#'] + exactly ['*']
  | commentText => someOf fun c => !endsLine c
  | asterisk => exactly ['*']
  | exclamation => exactly ['!']
  | chequeNumber => enclosed '(' ')' (manyOf fun c => !(c = ')' || endsLine c))
  | text => freeText (· = ';')
  | pipe => exactly ['|']
  | semicolon => exactly [';']
  | inlineText => freeText fun _ => false
  | tagName => someOf isTagNameChar
  | tagColon => exactly [':']
  | tagValue => freeText (· = ',')
  | tagComma => exactly [',']
  | realAccount => someOf isNameChar
  | virtualAccount => enclosed '(' ')' (someOf (isEnclosedChar ')'))
  | balancedAccount => enclosed '[' ']' (someOf (isEnclosedChar ']'))
  | dash => exactly ['-']
  | number => (1 + exactly ['-']) * numberText
  | commodity => someOf isCommodityChar + enclosed '"' '"' (someOf isQuotedChar)
  | atSign => exactly ['@']
  | openParen => exactly ['(']
  | closeParen => exactly [')']
  | equals => exactly ['=']

/-- The kinds whose tokens carry what they enclose. -/
def carriesText : Kind → Bool
  | chequeNumber | commodity => true
  | _ => false

/-- A text of the kind without what encloses it. A commodity may be in quotes or not. -/
def inner (kind : Kind) (text : List Char) : List Char :=
  match kind with
  | chequeNumber | virtualAccount | balancedAccount => text.tail.dropLast
  | commodity => if text.head? = some '"' then text.tail.dropLast else text
  | _ => text

end Kind

/-- The names of a path: there is one at least, none holds a colon, and with colons between them
they are the text. -/
structure IsPath (names : List String) (text : List Char) : Prop where
  ne_nil : names ≠ []
  not_mem : ∀ name ∈ names, ':' ∉ name.toList
  join : ":".intercalate names = String.ofList text

namespace Kind

/-- What a token of the kind with this text carries. -/
def Means (kind : Kind) (text : List Char) : Option Payload → Prop
  | some (.segments names) => kind.isAccount ∧ IsPath names (kind.inner text)
  | some (.text inner) => kind.carriesText ∧ inner = String.ofList (kind.inner text)
  | none => !(kind.isAccount || kind.carriesText)

/-- What may stand behind a token of the kind. -/
def Borders (kind : Kind) (ahead : List Char) : Prop :=
  match kind with
  | date => ∀ c ∈ ahead.head?, isDateChar c = false
  | priceKeyword | accountKeyword | commodityKeyword | defaultKeyword | formatKeyword =>
    ∃ c ∈ ahead.head?, isLayout c
  | tagName => ahead.head? = some ':'
  | _ => True

/-- The texts of the kind that go with a payload. -/
def textsWith (kind : Kind) (payload : Option Payload) : Language Char :=
  {text | text ∈ kind.texts ∧ kind.Means text payload}

/-- What the finder finds is a token of the kind. -/
structure FoundBy (kind : Kind) (find : View → Option Match) : Prop where
  takes : ∀ {v : View} {found : Match}, find v = some found →
    Takes (kind.textsWith found.payload) kind.Borders found.length v.rest

end Kind

/-! ## Payloads -/

theorem isPath_pathNames (text : List Char) : IsPath (pathNames text) text where
  ne_nil := pathNames_ne_nil text
  not_mem := by
    intro name hname
    obtain ⟨field, hfield, rfl⟩ := List.mem_map.mp hname
    rw [String.toList_ofList]
    intro hcolon
    exact absurd (separator_of_mem_fields hfield hcolon) (by decide)
  join := by
    rw [← String.toList_inj, String.toList_intercalate, pathNames, List.map_map]
    have hid : String.toList ∘ String.ofList = id := funext fun _ => String.toList_ofList
    rw [hid, List.map_id, String.toList_ofList, String.toList_ofList]
    exact intercalate_fields ':' text

theorem tail_dropLast_enclosed (opening closing : Char) (inner : List Char) :
    (opening :: (inner ++ [closing])).tail.dropLast = inner := by
  rw [List.tail_cons, List.dropLast_concat]

/-- A token of most kinds carries nothing. -/
theorem Kind.Means.eq_none {kind : Kind} {text : List Char} {payload : Option Payload}
    (h : kind.Means text payload) (hplain : !(kind.isAccount || kind.carriesText)) :
    payload = none := by
  simp only [Bool.not_eq_true', Bool.or_eq_false_iff] at hplain
  cases payload with
  | none => rfl
  | some payload =>
    cases payload with
    | segments names => exact absurd h.1 (by simp [hplain.1])
    | text inner => exact absurd h.1 (by simp [hplain.2])

/-! ## Finders -/

variable {kind : Kind} {find : View → Option Match} {cs : List Char}

/-- So many characters, if they are a text of the kind. -/
theorem foundBy_ofLength {f : List Char → Nat}
    (hf : ∀ cs, 0 < f cs → Takes kind.texts kind.Borders (f cs) cs)
    (hplain : !(kind.isAccount || kind.carriesText)) :
    kind.FoundBy fun v => Match.ofLength (f v.rest) where
  takes {v found} h := by
    have hlen := length_ofLength h
    rw [payload_ofLength h, hlen]
    exact (hf v.rest (hlen ▸ found.length_pos)).mono (fun _ htext => ⟨htext, hplain⟩) fun _ h => h

/-- A finder that is asked only where a test passes. -/
theorem Kind.FoundBy.guard (h : kind.FoundBy find) (test : View → Bool) :
    kind.FoundBy fun v => if test v then find v else none where
  takes hfound := h.takes (Option.ite_none_right_eq_some.mp hfound).2

/-- The first of two finders that finds something. -/
theorem Kind.FoundBy.orElse {f g : View → Option Match} (hf : kind.FoundBy f)
    (hg : kind.FoundBy g) : kind.FoundBy fun v => f v <|> g v where
  takes {v found} h := by
    cases hleft : f v with
    | none => rw [hleft] at h; exact hg.takes h
    | some first => rw [hleft] at h; exact hf.takes (hleft.trans h)

/-- One character. -/
theorem takes_single {c : Char} (hc : [c] ∈ kind.texts)
    (hplain : !(kind.isAccount || kind.carriesText)) (hborders : kind.Borders cs) :
    Takes (kind.textsWith Match.single.payload) kind.Borders Match.single.length (c :: cs) :=
  ⟨[c], cs, rfl, ⟨hc, hplain⟩, hborders, rfl⟩

theorem foundBy_sign (kind : Kind) {c : Char} (hc : [c] ∈ kind.texts)
    (hplain : !(kind.isAccount || kind.carriesText)) (hborders : ∀ ahead, kind.Borders ahead) :
    kind.FoundBy (·.sign c) where
  takes h := by
    obtain ⟨hhead, hfound⟩ := Option.ite_none_right_eq_some.mp h
    obtain ⟨ahead, hrest⟩ := List.head?_eq_some_iff.mp hhead
    rw [hrest, ← Option.some.inj hfound]
    exact takes_single hc hplain (hborders ahead)

theorem foundBy_keyword {word : String} (htexts : kind.texts = exactly word.toList)
    (hborders : kind.Borders = fun ahead => ∃ c ∈ ahead.head?, isLayout c)
    (hplain : !(kind.isAccount || kind.carriesText)) : kind.FoundBy (·.keyword word) := by
  refine foundBy_ofLength (fun cs h => ?_) hplain
  rw [htexts, hborders]
  exact takes_keywordLength h

/-- The same where there may be no answer. -/
theorem foundBy_bind_ofLength {f : List Char → Option Nat}
    (hf : ∀ {cs n}, f cs = some n → Takes kind.texts kind.Borders n cs)
    (hplain : !(kind.isAccount || kind.carriesText)) :
    kind.FoundBy fun v => (f v.rest).bind Match.ofLength where
  takes h := by
    obtain ⟨n, hn, hfound⟩ := Option.bind_eq_some_iff.mp h
    rw [payload_ofLength hfound, length_ofLength hfound]
    exact (hf hn).mono (fun _ htext => ⟨htext, hplain⟩) fun _ h => h

theorem foundBy_date : Kind.date.FoundBy View.date :=
  foundBy_bind_ofLength takes_dateLength? rfl

theorem foundBy_tagName : Kind.tagName.FoundBy View.tagName :=
  (foundBy_bind_ofLength takes_tagNameLength? rfl).guard fun v => opensWord v.before

theorem foundBy_textUpTo {isStop : Char → Bool}
    (htexts : ∀ text ∈ freeText isStop, text ∈ kind.texts)
    (hplain : !(kind.isAccount || kind.carriesText)) (hborders : ∀ ahead, kind.Borders ahead) :
    kind.FoundBy (·.textUpTo isStop) :=
  foundBy_ofLength (f := fun cs => (freeRun isStop cs).length)
    (fun _ h => (takes_freeRun h).mono htexts fun ahead _ => hborders ahead) hplain

theorem foundBy_postingStatus {c : Char} (hc : kind.texts = exactly [c])
    (hplain : !(kind.isAccount || kind.carriesText)) (hborders : ∀ ahead, kind.Borders ahead) :
    kind.FoundBy (·.postingStatus c) := by
  refine Kind.FoundBy.guard (foundBy_ofLength (fun cs h => ?_) hplain) (·.follows [.indent])
  rw [hc]
  exact (takes_keywordLength h).mono (fun _ h => h) fun ahead _ => hborders ahead

theorem foundBy_chequeNumber : Kind.chequeNumber.FoundBy View.chequeNumber := by
  refine ⟨fun {v found} h => ?_⟩
  obtain ⟨inner, ahead, hrest, hinner, rfl⟩ := chequeNumber_eq_some h
  refine ⟨'(' :: (inner ++ [')']), ahead, by simp [hrest], ⟨mem_enclosed hinner, rfl, ?_⟩, trivial,
    by simp [Match.enclosing]⟩
  rw [Kind.inner, tail_dropLast_enclosed]

theorem foundBy_realAccount : Kind.realAccount.FoundBy View.realAccount := by
  refine ⟨fun {v found} h => ?_⟩
  obtain ⟨m, hm, rfl⟩ := Option.map_eq_some_iff.mp h
  have hlen := length_ofLength hm
  have hpos : 0 < nameLength v.rest := hlen ▸ m.length_pos
  obtain ⟨name, ahead, hrest, hname, -, hlength⟩ := takes_nameLength hpos
  have htake : v.rest.take m.length = name := by rw [hrest, hlen, ← hlength, List.take_left]
  refine ⟨name, ahead, hrest, ⟨hname, rfl, ?_⟩, trivial, hlength.trans hlen.symm⟩
  rw [htake]
  exact isPath_pathNames name

theorem foundBy_enclosedAccount {opening closing : Char}
    (htexts : kind.texts = enclosed opening closing (someOf (isEnclosedChar closing)))
    (hinner : kind.inner = fun text => text.tail.dropLast) (haccount : kind.isAccount)
    (hborders : ∀ ahead, kind.Borders ahead) :
    kind.FoundBy (·.enclosedAccount opening closing) := by
  refine ⟨fun {v found} h => ?_⟩
  obtain ⟨inner, hname, rfl⟩ := Option.map_eq_some_iff.mp h
  obtain ⟨hmem, ahead, hrest⟩ := exists_of_enclosedName? hname
  refine ⟨opening :: (inner ++ [closing]), ahead, by simp [hrest],
    ⟨htexts ▸ mem_enclosed hmem, haccount, ?_⟩, hborders ahead, by simp [Match.enclosing]⟩
  rw [hinner]
  simp only [tail_dropLast_enclosed]
  exact isPath_pathNames inner

theorem foundBy_formatKeyword : Kind.formatKeyword.FoundBy View.formatKeyword where
  takes h := by
    have hword : Kind.formatKeyword.FoundBy (·.keyword "format") := foundBy_keyword rfl rfl rfl
    exact hword.takes (Option.filter_eq_some_iff.mp h).1

/-! ## Rules -/

theorem foundBy_atLineStart (h : kind.FoundBy find) (mode : Mode) :
    kind.FoundBy (Rule.atLineStart kind find mode).find := h.guard View.atLineStart

theorem foundBy_after (h : kind.FoundBy find) (kinds : List Kind) (move : Move) :
    kind.FoundBy (Rule.after kinds kind find move).find := h.guard (·.follows kinds)

theorem foundBy_inlineComment : Kind.semicolon.FoundBy Rule.inlineComment.find :=
  foundBy_sign .semicolon rfl rfl fun _ => trivial

theorem foundBy_accounts {move : Move} {rule : Rule} (h : rule ∈ Rule.accounts move) :
    rule.kind.FoundBy rule.find := by
  simp only [Rule.accounts, List.mem_cons, List.not_mem_nil, or_false] at h
  rcases h with rfl | rfl | rfl
  · exact foundBy_enclosedAccount rfl rfl rfl fun _ => trivial
  · exact foundBy_enclosedAccount rfl rfl rfl fun _ => trivial
  · exact foundBy_realAccount

/-- **Every rule finds tokens of its kind.** -/
theorem foundBy_of_mem_rules {mode : Mode} {rule : Rule} (h : rule ∈ mode.rules) :
    rule.kind.FoundBy rule.find := by
  cases mode <;>
    simp only [Mode.rules, List.mem_cons, List.mem_append, List.not_mem_nil, or_false] at h
  case lineStart =>
    rcases h with rfl | rfl | rfl | rfl | rfl | rfl | rfl
    · exact foundBy_atLineStart foundBy_date _
    · exact foundBy_atLineStart (foundBy_keyword rfl rfl rfl) _
    · exact foundBy_atLineStart (foundBy_keyword rfl rfl rfl) _
    · exact foundBy_atLineStart (foundBy_keyword rfl rfl rfl) _
    · exact foundBy_atLineStart (foundBy_keyword rfl rfl rfl) _
    · exact foundBy_atLineStart (foundBy_ofLength (fun _ => takes_takeWhile) rfl) _
    · refine foundBy_atLineStart (.orElse ?_ (.orElse ?_ ?_)) _
      · exact foundBy_sign .commentMarker (.inl (.inl rfl)) rfl fun _ => trivial
      · exact foundBy_sign .commentMarker (.inl (.inr rfl)) rfl fun _ => trivial
      · exact foundBy_sign .commentMarker (.inr rfl) rfl fun _ => trivial
  case header =>
    rcases h with rfl | rfl | rfl | rfl | rfl | rfl | rfl | rfl
    · have hsign : Kind.equals.FoundBy (·.sign '=') := foundBy_sign _ rfl rfl fun _ => trivial
      exact hsign.guard
        fun v => v.follows [.date] && v.touches && v.history[1]?.all (·.kind ≠ .equals)
    · exact foundBy_date.guard fun v => v.follows [.equals] && v.touches
    · exact foundBy_after (foundBy_sign .asterisk rfl rfl fun _ => trivial) _ _
    · exact foundBy_after (foundBy_sign .exclamation rfl rfl fun _ => trivial) _ _
    · exact foundBy_after foundBy_chequeNumber _ _
    · exact foundBy_inlineComment
    · exact foundBy_after (foundBy_sign .pipe rfl rfl fun _ => trivial) _ _
    · refine foundBy_textUpTo (fun text h => ⟨h.1, fun c hc => ?_, h.2.2⟩) rfl fun _ => trivial
      obtain ⟨hends, hstop⟩ := h.2.1 c hc
      exact ⟨hends, (Bool.or_eq_false_iff.mp hstop).1⟩
  case memo =>
    rcases h with rfl | rfl
    · exact foundBy_inlineComment
    · exact foundBy_textUpTo (fun _ h => h) rfl fun _ => trivial
  case inlineComment =>
    rcases h with rfl | rfl | rfl
    · exact foundBy_tagName
    · have hsign : Kind.tagColon.FoundBy (·.sign ':') := foundBy_sign _ rfl rfl fun _ => trivial
      exact foundBy_after (hsign.guard View.touches) _ _
    · exact foundBy_ofLength (f := fun cs => (textRun cs).length) (fun _ => takes_textRun) rfl
  case tagValue =>
    rcases h with rfl | rfl
    · exact foundBy_sign .tagComma rfl rfl fun _ => trivial
    · exact foundBy_textUpTo (fun _ h => h) rfl fun _ => trivial
  case lineComment =>
    subst h
    exact foundBy_ofLength (f := fun cs => (lineRest cs).length) (fun _ => takes_takeWhile) rfl
  case indented =>
    rcases h with (rfl | rfl | rfl | rfl) | h
    · exact foundBy_inlineComment
    · exact foundBy_formatKeyword
    · exact foundBy_postingStatus rfl rfl fun _ => trivial
    · exact foundBy_postingStatus rfl rfl fun _ => trivial
    · exact foundBy_accounts h
  case amountLine =>
    subst h
    exact foundBy_inlineComment
  case priceDirective =>
    rcases h with rfl | rfl
    · exact foundBy_after foundBy_date _ _
    · exact foundBy_inlineComment
  case accountDirective =>
    rcases h with rfl | h
    · exact foundBy_inlineComment
    · exact foundBy_accounts h

/-! ## Amounts -/

/-- A number with a sign or without. -/
theorem mem_number {sign text : List Char} (hsign : sign ∈ 1 + exactly ['-'])
    (htext : text ∈ numberText) : sign ++ text ∈ Kind.number.textsWith none :=
  ⟨Language.append_mem_mul hsign htext, rfl⟩

theorem takes_amountToken? {found : Match} (h : amountToken? cs = some (kind, found)) :
    Takes (kind.textsWith found.payload) kind.Borders found.length cs := by
  cases amountToken?_cases h with
  | @negative rest number hnumber =>
    have hlen := length_ofLength hnumber
    have hpos : 0 < numberLength rest := hlen ▸ number.length_pos
    obtain ⟨text, ahead, rfl, htext, -, hlength⟩ := takes_numberLength hpos
    refine ⟨['-'] ++ text, ahead, rfl, mem_number (.inr rfl) htext, trivial, ?_⟩
    simp [hlength, hlen]
  | sign hsign rest =>
    simp only [amountSigns, List.mem_cons, List.not_mem_nil, or_false, Prod.mk.injEq] at hsign
    rcases hsign with ⟨rfl, rfl⟩ | ⟨rfl, rfl⟩ | ⟨rfl, rfl⟩ | ⟨rfl, rfl⟩ | ⟨rfl, rfl⟩ | ⟨rfl, rfl⟩ <;>
      exact takes_single rfl rfl trivial
  | quoted hinner =>
    obtain ⟨hmem, ahead, hrest⟩ := exists_of_quotedCommodity? hinner
    refine ⟨_, ahead, hrest, ⟨.inr (mem_enclosed hmem), rfl, ?_⟩, trivial, ?_⟩
    · rw [Kind.inner, List.head?_cons, if_pos rfl, tail_dropLast_enclosed]
    · simp [Match.enclosing]
  | @commodity _ name hname =>
    have hlen := length_ofLength hname
    have hfront : cs.takeWhile isCommodityChar <+: cs := List.takeWhile_prefix _
    have hmem : cs.takeWhile isCommodityChar ∈ someOf isCommodityChar :=
      ⟨List.ne_nil_of_length_pos (hlen ▸ name.length_pos), fun _ => List.mem_takeWhile_imp⟩
    obtain ⟨ahead, hahead⟩ := hfront
    refine ⟨_, ahead, hahead.symm, ⟨.inl hmem, rfl, ?_⟩, trivial, hlen.symm⟩
    have hquote : (cs.takeWhile isCommodityChar).head? ≠ some '"' := fun hhead =>
      absurd (hmem.2 _ (List.mem_of_mem_head? hhead)) (by decide +kernel)
    rw [Kind.inner, if_neg hquote]
  | number hnumber =>
    have hlen := length_ofLength hnumber
    rw [payload_ofLength hnumber, hlen]
    exact (takes_numberLength (hlen ▸ found.length_pos)).mono
      (fun _ htext => mem_number (.inl rfl) htext) fun _ _ => trivial

/-- **Every token of a mode is spelled as its kind says.** -/
theorem takes_token? {mode : Mode} {v : View} {found : Match} {move : Move}
    (h : mode.token? v = some (kind, found, move)) :
    Takes (kind.textsWith found.payload) kind.Borders found.length v.rest := by
  rcases token?_cases h with ⟨rule, hrule, hfound, rfl, -⟩ | ⟨-, hamount, -⟩
  · exact (foundBy_of_mem_rules hrule).takes hfound
  · exact takes_amountToken? hamount

end Daybook
