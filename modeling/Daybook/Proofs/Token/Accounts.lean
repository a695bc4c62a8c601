import Daybook.Proofs.Lexeme.AccountName
import Daybook.Proofs.Token.Indented
import Daybook.Proofs.Token.Spelled

/-!
# Accounts where they are looked for

An account is looked for behind the indentation and the status of a line, and behind `account`. What
is found depends on the text behind the account too: on where its name ends, and on whether a
bracket is closed. About `scan_real_account` and `scan_delimited_account` ([SPEC 11.4]).

* `AccountAt rest kind image`: which account stands at the front of `rest`.
* `accountToken? rest`: what the rules of accounts find there.
* `FoundAs image ahead kind found`: in front of `ahead` the account `image` is found.
* `ClosesOnlyAs old new`: a bracket that is closed in `new` is closed in `old` as well.
* `Scanner.LooksForAccount s rest`: an account is looked for in front of `rest`.
* `Token.At t source rest`: a token of the source stands in front of this rest of it.

Results:
* `accountToken?_eq_some_iff`: what the rules find, told by `FoundAs`.
* `FoundAs.again`: **an account is found again in front of another text.**
* `Scanner.run_found`: the account of a posting is passed.
* `tokenize_accounts`: **where an account is looked for the one that stands there is found**, and
  layout behind it does not change which one.
-/

namespace Daybook

open Lexeme Text

/-! ## Accounts at the front of a text -/

/-- Which account stands at the front: a name in parentheses, one in brackets, or else the longest
name, trimmed. -/
inductive AccountAt (rest : List Char) : Kind → List Char → Prop
  | virtual {inner : List Char} (h : Encloses '(' ')' inner rest) :
    AccountAt rest .virtualAccount ('(' :: (inner ++ [')']))
  | balanced {inner : List Char} (h : Encloses '[' ']' inner rest) :
    AccountAt rest .balancedAccount ('[' :: (inner ++ [']']))
  | real {name ahead : List Char} (hrest : rest = name ++ ahead) (hname : LongestName name ahead)
    (hnone : ∀ inner, ¬ Encloses '(' ')' inner rest ∧ ¬ Encloses '[' ']' inner rest) :
    AccountAt rest .realAccount (trimmedName name ahead)

/-- What the rules of accounts find at the front. -/
def accountToken? (rest : List Char) : Option (Kind × Match) :=
  match enclosedName? '(' ')' rest with
  | some inner => some (.virtualAccount, .enclosing inner (.segments (pathNames inner)))
  | none =>
    match enclosedName? '[' ']' rest with
    | some inner => some (.balancedAccount, .enclosing inner (.segments (pathNames inner)))
    | none => (Match.ofLength (nameLength rest)).map fun found =>
        (.realAccount, { found with payload := some (.segments (pathNames (rest.take found.length))) })

/-- How an account is found in front of a text. -/
inductive FoundAs : List Char → List Char → Kind → Match → Prop
  | virtual {inner ahead : List Char} (hinner : inner ∈ someOf (isEnclosedChar ')'))
    (hends : EndsName ahead) : FoundAs ('(' :: (inner ++ [')'])) ahead .virtualAccount
      (.enclosing inner (.segments (pathNames inner)))
  | balanced {inner ahead : List Char} (hinner : inner ∈ someOf (isEnclosedChar ']'))
    (hends : EndsName ahead) : FoundAs ('[' :: (inner ++ [']'])) ahead .balancedAccount
      (.enclosing inner (.segments (pathNames inner)))
  | real {name ahead : List Char} (hne : name ≠ []) (hname : StandsWhole name ahead)
    (hnone : ∀ inner, ¬ Encloses '(' ')' inner (name ++ ahead) ∧
      ¬ Encloses '[' ']' inner (name ++ ahead)) : FoundAs name ahead .realAccount
      ⟨name.length, some (.segments (pathNames name)), List.length_pos_iff.mpr hne⟩

variable {rest image ahead old new : List Char} {kind : Kind} {found : Match} {v : View}
  {move : Move} {mode : Mode}

theorem enclosedName?_eq_none_iff {opening closing : Char} :
    enclosedName? opening closing rest = none ↔ ∀ inner, ¬ Encloses opening closing inner rest := by
  simp only [← enclosedName?_eq_some_iff, Option.eq_none_iff_forall_ne_some, ne_eq]

/-- **What the rules of accounts find.** -/
theorem accountToken?_eq_some_iff : accountToken? rest = some (kind, found) ↔
    ∃ image ahead, rest = image ++ ahead ∧ FoundAs image ahead kind found := by
  constructor
  · intro h
    unfold accountToken? at h
    split at h
    · next inner hinner =>
      cases h
      obtain ⟨hchars, ahead, rfl, hends⟩ := enclosedName?_eq_some_iff.mp hinner
      exact ⟨_, ahead, rfl, .virtual hchars hends⟩
    · next hparen =>
      split at h
      · next inner hinner =>
        cases h
        obtain ⟨hchars, ahead, rfl, hends⟩ := enclosedName?_eq_some_iff.mp hinner
        exact ⟨_, ahead, rfl, .balanced hchars hends⟩
      · next hbracket =>
        obtain ⟨m, hm, heq⟩ := Option.map_eq_some_iff.mp h
        cases heq
        obtain ⟨name, ahead, rfl, hname, hwhole⟩ := exists_standsWhole rest
        have hlength : m.length = name.length := (length_ofLength hm).trans hname.symm
        have hne : name ≠ [] := List.ne_nil_of_length_pos (hlength ▸ m.length_pos)
        refine ⟨name, ahead, rfl, ?_⟩
        simp only [hlength, List.take_left]
        exact .real hne hwhole fun inner => ⟨enclosedName?_eq_none_iff.mp hparen inner,
          enclosedName?_eq_none_iff.mp hbracket inner⟩
  · rintro ⟨image, ahead, rfl, h⟩
    unfold accountToken?
    cases h with
    | virtual hinner hends => rw [enclosedName?_eq_some_iff.mpr ⟨hinner, ahead, rfl, hends⟩]
    | @balanced inner _ hinner hends =>
      have h : Encloses '[' ']' inner ('[' :: (inner ++ [']']) ++ ahead) :=
        ⟨hinner, ahead, rfl, hends⟩
      have hparen : enclosedName? '(' ')' ('[' :: (inner ++ [']']) ++ ahead) = none :=
        enclosedName?_eq_none_iff.mpr fun _ hparen => absurd (h.opening_eq hparen) (by decide)
      rw [hparen, enclosedName?_eq_some_iff.mpr h]
    | real hne hname hnone =>
      rw [enclosedName?_eq_none_iff.mpr fun inner => (hnone inner).1,
        enclosedName?_eq_none_iff.mpr fun inner => (hnone inner).2, nameLength_append_iff.mpr hname]
      simp [Match.ofLength, List.length_pos_iff.mpr hne]

namespace FoundAs

theorem length (h : FoundAs image ahead kind found) : found.length = image.length := by
  cases h <;> simp [Match.enclosing]

/-- What is found is the account that stands there. -/
theorem accountAt (h : FoundAs image ahead kind found) : AccountAt (image ++ ahead) kind image := by
  cases h with
  | virtual hinner hends => exact .virtual ⟨hinner, ahead, rfl, hends⟩
  | balanced hinner hends => exact .balanced ⟨hinner, ahead, rfl, hends⟩
  | real hne hname hnone =>
    have hlength := nameLength_append_iff.mpr hname
    have hpos : 0 < nameLength (image ++ ahead) := hlength ▸ List.length_pos_iff.mpr hne
    obtain ⟨longest, behind, hsplit, hlongest, htake⟩ := exists_longestName hpos
    rw [hlength, List.take_left] at htake
    have haccount := AccountAt.real hsplit hlongest hnone
    rwa [← htake] at haccount

/-- An account carries the path that its text spells. -/
theorem payload (h : FoundAs image ahead kind found) :
    found.payload = some (.segments (pathNames (kind.inner image))) := by
  cases h with
  | virtual | balanced => simp only [Match.enclosing, Kind.inner, tail_dropLast_enclosed]
  | real => rfl

/-- An account starts with a character of names. -/
theorem starts (h : FoundAs image ahead kind found) : ∃ c cs, image = c :: cs ∧ isNameChar c := by
  cases h with
  | virtual | balanced => exact ⟨_, _, rfl, rfl⟩
  | real hne hname hnone =>
    obtain ⟨c, cs, rfl⟩ := List.exists_cons_of_ne_nil hne
    exact ⟨c, cs, rfl, hname.chars c List.mem_cons_self⟩

theorem isAccount (h : FoundAs image ahead kind found) : kind.isAccount := by cases h <;> rfl

/-- An account does not end in a tab, and in a space only where a tab is behind it. -/
theorem last (h : FoundAs image ahead kind found) :
    ∀ c ∈ image.getLast?, c ≠ '\t' ∧ (c = ' ' → ahead.head? = some '\t') := by
  intro c hc
  cases h with
  | virtual | balanced =>
    rw [List.getLast?_cons, List.getLast?_concat] at hc
    obtain rfl := Option.some.inj hc
    exact ⟨by decide, fun h => absurd h (by decide)⟩
  | real hne hname hnone =>
    refine ⟨?_, fun hspace => hname.head? (hspace ▸ hc)⟩
    rintro rfl
    exact absurd (hname.chars _ (List.mem_of_mem_getLast? hc)) (by decide)

end FoundAs

/-- Where a name can start something is found. -/
theorem exists_accountToken? {c : Char} (hc : c ∈ rest.head?) (hchar : isNameChar c)
    (hspace : c ≠ ' ') : ∃ kind found, accountToken? rest = some (kind, found) := by
  obtain ⟨cs, rfl⟩ := List.head?_eq_some_iff.mp hc
  have hgoes : ¬ nameEnds (c :: cs) = true := by
    rw [nameEnds_cons hspace, hchar]
    exact Bool.noConfusion
  have hpos : 0 < nameLength (c :: cs) := Nat.pos_of_ne_zero fun hzero =>
    hgoes (nameLength_eq_zero_iff.mp hzero)
  unfold accountToken?
  split
  · exact ⟨_, _, rfl⟩
  · split
    · exact ⟨_, _, rfl⟩
    · exact ⟨_, _, by rw [Match.ofLength, dif_pos hpos]; rfl⟩

/-! ## In front of another text -/

/-- A bracket that is closed in the new text is closed in the old one as well. -/
def ClosesOnlyAs (old new : List Char) : Prop :=
  ∀ closing ∈ [')', ']'], ∀ back ∈ manyOf (isEnclosedChar closing), ∀ behind,
    new = back ++ closing :: behind →
      ∃ front ∈ manyOf (isEnclosedChar closing), old = front ++ closing :: behind

/-- Nothing is closed behind the end of a line. -/
theorem closesOnlyAs_newline (old : List Char) : ClosesOnlyAs old ['\n'] := by
  intro closing hclosing back hback behind hsplit
  cases back with
  | nil =>
    obtain rfl := (List.cons.inj hsplit).1
    exact absurd hclosing (by decide)
  | cons c back =>
    obtain rfl := (List.cons.inj hsplit).1
    have hchar := hback _ List.mem_cons_self
    simp [isEnclosedChar, endsLine] at hchar

/-- Layout closes nothing. -/
theorem closesOnlyAs_layout {gap gap' : List Char} (hgap : gap ∈ manyOf isLayout)
    (hgap' : gap' ∈ manyOf isLayout) (ahead : List Char) :
    ClosesOnlyAs (gap ++ ahead) (gap' ++ ahead) := by
  intro closing hclosing back hback behind hsplit
  have hbracket : ∀ d ∈ [')', ']'], isLayout d = false := by simp [isLayout]
  have hplain : ∀ c ∈ gap, isEnclosedChar closing c := by
    intro c hc
    have hlayout := hgap c hc
    have hne : c ≠ closing := by
      rintro rfl
      simp [hbracket c hclosing] at hlayout
    simp only [isLayout, Bool.or_eq_true, decide_eq_true_eq] at hlayout
    rcases hlayout with rfl | rfl <;> simp [isEnclosedChar, endsLine, hne]
  rcases List.append_eq_append_iff.mp hsplit with ⟨more, rfl, hahead⟩ | ⟨more, rfl, hmore⟩
  · refine ⟨gap ++ more, fun c hc => ?_, by rw [hahead, List.append_assoc]⟩
    exact (List.mem_append.mp hc).elim (hplain c) fun hmem => hback c (List.mem_append_right _ hmem)
  · cases more with
    | nil => exact ⟨gap, hplain, by rw [hmore]; rfl⟩
    | cons c more =>
      obtain rfl := (List.cons.inj hmore).1
      have hlayout := hgap' closing (List.mem_append_right _ List.mem_cons_self)
      simp [hbracket closing hclosing] at hlayout

/-- **An account is found again in front of another text**, if it does not end in a space, names end
in front of that text, and no bracket is closed there that was not. -/
theorem FoundAs.again (h : FoundAs image old kind found) (hlast : image.getLast? ≠ some ' ')
    (hends : EndsName new) (hcloses : ClosesOnlyAs old new) : FoundAs image new kind found := by
  cases h with
  | virtual hinner _ => exact .virtual hinner hends
  | balanced hinner _ => exact .balanced hinner hends
  | real hne hname hnone =>
    have hmoved : StandsWhole image new := hname.again hlast hends
    -- a bracket that closes the name would have closed it before
    have hopen : ∀ opening closing inner, closing ∈ [')', ']'] →
        Encloses opening closing inner (image ++ new) →
          ∃ inner, Encloses opening closing inner (image ++ old) := by
      intro opening closing inner hclosing hencloses
      rcases hencloses.closes hmoved hne with rfl | ⟨front, back, behind, rfl, rfl, hnew, hbehind⟩
      · exact ⟨inner, hencloses.chars, old, rfl, nameEnds_iff.mp hname.ends⟩
      · have hchars := hencloses.chars.2
        obtain ⟨mid, hmid, rfl⟩ := hcloses closing hclosing back
          (fun c hc => hchars c (List.mem_append_right _ hc)) behind hnew
        refine ⟨front ++ mid, ⟨fun hnil => ?_, fun c hc => ?_⟩, behind, by simp, hbehind⟩
        · -- no name ends in front of a bracket
          have hstops := hname.ends
          rw [(List.append_eq_nil_iff.mp hnil).2] at hstops
          simp only [List.mem_cons, List.not_mem_nil, or_false] at hclosing
          rcases hclosing with rfl | rfl <;> cases hstops
        · exact (List.mem_append.mp hc).elim (fun h => hchars c (List.mem_append_left _ h)) (hmid c)
    refine .real hne hmoved fun inner => ⟨fun hparen => ?_, fun hbracket => ?_⟩
    · obtain ⟨inner, hinner⟩ := hopen _ _ _ (by decide) hparen
      exact (hnone inner).1 hinner
    · obtain ⟨inner, hinner⟩ := hopen _ _ _ (by decide) hbracket
      exact (hnone inner).2 hinner

/-! ## Modes that look for accounts -/

/-- The rules of accounts, put together. -/
theorem findSome?_accounts (move : Move) (v : View) : (Rule.accounts move).findSome? (·.token? v) =
    (accountToken? v.rest).map fun (kind, found) => (kind, found, move) := by
  simp only [Rule.accounts, List.findSome?_cons, List.findSome?_nil, Rule.token?,
    View.enclosedAccount, View.realAccount, accountToken?]
  cases enclosedName? '(' ')' v.rest with
  | some inner => rfl
  | none =>
    cases enclosedName? '[' ']' v.rest with
    | some inner => rfl
    | none => cases Match.ofLength (nameLength v.rest) <;> rfl

/-- Only two modes find accounts. -/
theorem mode_of_token? (h : mode.token? v = some (kind, found, move)) (hkind : kind.isAccount) :
    mode = .indented ∨ mode = .accountDirective :=
  of_token? (P := fun k _ => k.isAccount → mode = .indented ∨ mode = .accountDirective)
    (by cases mode <;> decide) (by cases mode <;> decide) h hkind

/-- They look for accounts last. -/
theorem exists_rules (hmode : mode = .indented ∨ mode = .accountDirective) :
    ∃ front move, mode.rules = front ++ Rule.accounts move ∧ mode.readsAmounts = false ∧
      ∀ rule ∈ front, rule.kind.isAccount = false := by
  rcases hmode with rfl | rfl
  · refine ⟨_, _, rfl, rfl, fun rule hmem => ?_⟩
    simp only [List.mem_cons, List.not_mem_nil, or_false] at hmem
    rcases hmem with rfl | rfl | rfl | rfl <;> rfl
  · refine ⟨[Rule.inlineComment], _, rfl, rfl, fun rule hmem => ?_⟩
    rw [List.mem_singleton.mp hmem]
    rfl

/-- **An account that a mode finds stands at the front.** -/
theorem accountToken?_of_token? (h : mode.token? v = some (kind, found, move))
    (hkind : kind.isAccount) : accountToken? v.rest = some (kind, found) := by
  obtain ⟨front, m, hrules, hreads, hfront⟩ := exists_rules (mode_of_token? h hkind)
  rw [Mode.token?, hrules, List.findSome?_append, hreads] at h
  cases hfound : front.findSome? (·.token? v) with
  | some token =>
    obtain ⟨rule, hmem, htoken⟩ := List.exists_of_findSome?_eq_some hfound
    obtain ⟨n, -, rfl⟩ := Option.map_eq_some_iff.mp htoken
    rw [hfound] at h
    cases h
    simp [hfront rule hmem] at hkind
  | none =>
    rw [hfound, Option.none_or, findSome?_accounts] at h
    cases haccount : accountToken? v.rest with
    | none =>
      rw [haccount] at h
      cases h
    | some token =>
      rw [haccount] at h
      cases h
      rfl

namespace Scanner

variable {s : Scanner} {t : Token} {source : String}

/-- An account is looked for: a name can start here, and on a line with indentation neither a format
nor a status does. -/
structure LooksForAccount (s : Scanner) (rest : List Char) : Prop where
  starts : ∃ c ∈ rest.head?, isNameChar c ∧ c ≠ ' '
  mode : s.modes.top = .accountDirective ∨ s.modes.top = .indented ∧
    (s.view rest).formatKeyword = none ∧ ∀ c ∈ ['*', '!'], (s.view rest).postingStatus c = none

/-- **Where an account is looked for it comes next**, and on a line with indentation an amount may
follow. -/
theorem LooksForAccount.next_eq (h : s.LooksForAccount rest)
    (haccount : accountToken? rest = some (kind, found)) : s.next rest = .token kind found
      (if s.modes.top = .indented then .enter .amountLine else .stay) := by
  obtain ⟨c, hc, hchar, hspace⟩ := h.starts
  obtain ⟨cs, rfl⟩ := List.head?_eq_some_iff.mp hc
  simp only [isNameChar, Bool.not_eq_true', Bool.or_eq_false_iff, decide_eq_false_iff_not] at hchar
  obtain ⟨⟨htab, hcomment⟩, hline⟩ := hchar
  have hlayout : isLayout c = false := by simp [isLayout, htab, hspace]
  have hsign : (s.view (c :: cs)).sign ';' = none := by simp [View.sign, view, hcomment]
  have hview : (s.view (c :: cs)).rest = c :: cs := rfl
  have hinner : s.modes.top ≠ .lineStart := by
    rcases h.mode with hmode | ⟨hmode, -⟩ <;> simp [hmode]
  have htoken : s.modes.top.token? (s.view (c :: cs)) = some (kind, found,
      if s.modes.top = .indented then .enter .amountLine else .stay) := by
    rcases h.mode with hmode | ⟨hmode, hformat, hstatus⟩
    · rw [hmode, Mode.token?, Mode.rules, List.findSome?_cons, findSome?_accounts, hview, haccount]
      simp [Rule.token?, Rule.inlineComment, hsign]
    · have hcleared := hstatus '*' (by simp)
      have hpending := hstatus '!' (by simp)
      rw [hmode, Mode.token?, Mode.rules, List.findSome?_append, findSome?_accounts, hview, haccount]
      simp [Rule.token?, Rule.inlineComment, hsign, hformat, hcleared, hpending]
  rw [next_of_inner hinner (layoutLength_of_not_isLayout hlayout cs)
    (newlineLength_of_not_endsLine hline cs), htoken]

/-- Behind the account of a posting. -/
def overAccount (s : Scanner) (kind : Kind) (image : List Char) (payload : Option Payload) :
    Scanner :=
  { s.note kind image payload with modes := s.modes.push .amountLine }.pass image

/-- **The account of a posting is passed.** -/
theorem run_found (hmode : s.modes.top = .indented) (hlooks : s.LooksForAccount (image ++ ahead))
    (h : FoundAs image ahead kind found) :
    s.run (image ++ ahead) = (s.overAccount kind image found.payload).run ahead := by
  have hnext := hlooks.next_eq (accountToken?_eq_some_iff.mpr ⟨image, ahead, rfl, h⟩)
  rw [if_pos hmode] at hnext
  exact run_token hnext h.length

/-- No token stands in front of layout inside a line. -/
theorem isLayout_of_next_token (hmode : s.modes.top ∉ [.lineStart, .lineComment])
    (h : s.next rest = .token kind found move) : ∀ c ∈ rest.head?, isLayout c = false := by
  intro c hc
  obtain ⟨cs, rfl⟩ := List.head?_eq_some_iff.mp hc
  cases hlayout : isLayout c with
  | false => rfl
  | true =>
    have hpos : 0 < s.modes.top.layoutLength (c :: cs) := by
      cases htop : s.modes.top
      case lineStart | lineComment => simp [htop] at hmode
      all_goals simp [Mode.layoutLength, layoutLength, hlayout]
    simp [Scanner.next, hpos] at h

/-- What is noted as an account is found as one. -/
theorem Notes.foundAs (h : s.Notes rest t) (hne : rest ≠ []) (hkind : t.kind.isAccount) :
    ∃ ahead found, rest = t.image.toList ++ ahead ∧ FoundAs t.image.toList ahead t.kind found ∧
      t.payload = found.payload ∧ ∀ c ∈ rest.head?, isLayout c = false := by
  have hbreak : t.kind ≠ .newline := by
    intro hnewline
    rw [hnewline] at hkind
    cases hkind
  obtain ⟨found, move, hnext, hpayload, htoken⟩ := h.exists_found hne hbreak
  have haccount : accountToken? rest = some (t.kind, found) := accountToken?_of_token? htoken hkind
  have hmode : s.modes.top ∉ [.lineStart, .lineComment] := by
    rcases mode_of_token? htoken hkind with hmode | hmode <;> simp [hmode]
  obtain ⟨image, ahead, rfl, hfound⟩ := accountToken?_eq_some_iff.mp haccount
  have himage : t.image.toList = image := by
    rw [h.image, hnext, Event.taken, hfound.length, List.take_left]
  rw [himage]
  exact ⟨ahead, found, rfl, hfound, hpayload,
    isLayout_of_next_token hmode hnext⟩

end Scanner

/-! ## Accounts of a source -/

variable {source : String} {t : Token}

/-- A token of a source stands at the front of this rest of it. -/
structure Token.At (t : Token) (source : String) (rest : List Char) : Prop where
  mem : t ∈ (tokenize source).tokens
  place : ∃ passed, source.toList = passed ++ rest ∧ t.place = Place.start.advance passed

theorem Scanner.Notes.at {s : Scanner} (h : s.Notes rest t) (hne : rest ≠ [])
    (hreached : Scanner.Reached source.toList s rest) : t.At source rest := by
  obtain ⟨passed, hpassed, hplace, -⟩ := Scanner.exists_passed hreached
  have hfront := (hreached.step hne).tokens_isPrefix
  rw [h.tokens, List.reverse_cons] at hfront
  exact ⟨hfront.subset (by simp), passed, hpassed.symm, h.place.trans hplace⟩

/-- A token is noted where it stands. -/
theorem Token.At.exists_notes (h : t.At source rest) :
    ∃ s, Scanner.Reached source.toList s rest ∧ rest ≠ [] ∧ s.Notes rest t := by
  obtain ⟨s, rest', hreached, hne, hnotes⟩ := Scanner.exists_notes_of_mem_tokenize h.mem
  obtain ⟨passed', hpassed', hplace', -⟩ := Scanner.exists_passed hreached
  obtain ⟨passed, hpassed, hplace⟩ := h.place
  have hlength : byteLength passed = byteLength passed' := by
    have hoffset := congrArg Place.offset (hplace.symm.trans (hnotes.place.trans hplace'))
    rw [Place.offset_advance, Place.offset_advance] at hoffset
    exact Nat.add_left_cancel hoffset
  obtain ⟨-, rfl⟩ := append_inj_of_byteLength (hpassed.symm.trans hpassed'.symm) hlength
  exact ⟨s, hreached, hne, hnotes⟩

theorem Token.At.foundAs (h : t.At source rest) (hkind : t.kind.isAccount) :
    ∃ ahead found, rest = t.image.toList ++ ahead ∧ FoundAs t.image.toList ahead t.kind found ∧
      t.payload = found.payload := by
  obtain ⟨s, -, hne, hnotes⟩ := h.exists_notes
  obtain ⟨ahead, found, hrest, hfound, hpayload, -⟩ := hnotes.foundAs hne hkind
  exact ⟨ahead, found, hrest, hfound, hpayload⟩

/-- **Where an account is looked for the one that stands there is found**, and each account of a
source is found so: its name is trimmed, but for a space with a tab behind it. Layout behind an
account that does not end in a space changes nothing about it. -/
theorem tokenize_accounts (source : String) :
    (∀ s rest, Scanner.Reached source.toList s rest → s.LooksForAccount rest →
      ∃ t : Token, t.At source rest ∧ t.place = s.place ∧ t.kind.isAccount) ∧
    (∀ t ∈ (tokenize source).tokens, ∃ rest, t.At source rest) ∧
    (∀ (t : Token) rest, t.At source rest → t.kind.isAccount →
      AccountAt rest t.kind t.image.toList ∧
      (∃ names, t.payload = some (.segments names) ∧ IsPath names (t.kind.inner t.image.toList)) ∧
      ∃ ahead, rest = t.image.toList ++ ahead ∧
        ∀ c ∈ t.image.toList.getLast?, c ≠ '\t' ∧ (c = ' ' → ahead.head? = some '\t')) ∧
    (∀ (t : Token) gap ahead, t.At source (t.image.toList ++ (gap ++ ahead)) → t.kind.isAccount →
      gap ∈ manyOf isLayout → t.image.toList.getLast? ≠ some ' ' →
        ∀ (source' : String) (t' : Token) (gap' : List Char),
          t'.At source' (t.image.toList ++ (gap' ++ ahead)) → t'.kind.isAccount →
            gap' ∈ manyOf isLayout → EndsName (gap' ++ ahead) →
              t'.kind = t.kind ∧ t'.image = t.image ∧ t'.payload = t.payload) := by
  refine ⟨fun s rest hreached hlooks => ?_, fun t ht => ?_, fun t rest hat hkind => ?_,
    fun t gap ahead hat hkind hgap hlast source' t' gap' hat' hkind' hgap' hends => ?_⟩
  · obtain ⟨c, hc, hchar, hspace⟩ := hlooks.starts
    obtain ⟨kind, found, haccount⟩ := exists_accountToken? hc hchar hspace
    obtain ⟨t, hnotes, rfl⟩ := Scanner.exists_notes_of_next (hlooks.next_eq haccount)
    obtain ⟨image, ahead, rfl, hfound⟩ := accountToken?_eq_some_iff.mp haccount
    have hne : image ++ ahead ≠ [] := List.ne_nil_of_mem (List.mem_of_mem_head? hc)
    exact ⟨t, hnotes.at hne hreached, hnotes.place, hfound.isAccount⟩
  · obtain ⟨s, rest, hreached, hne, hnotes⟩ := Scanner.exists_notes_of_mem_tokenize ht
    exact ⟨rest, hnotes.at hne hreached⟩
  · obtain ⟨ahead, found, rfl, hfound, hpayload⟩ := hat.foundAs hkind
    exact ⟨hfound.accountAt, ⟨_, hpayload.trans hfound.payload, isPath_pathNames _⟩,
      ahead, rfl, hfound.last⟩
  · obtain ⟨behind, found, hrest, hfound, hpayload⟩ := hat.foundAs hkind
    obtain ⟨behind', found', hrest', hfound', hpayload'⟩ := hat'.foundAs hkind'
    obtain rfl := List.append_cancel_left hrest
    have hagain := hfound.again hlast hends (closesOnlyAs_layout hgap hgap' ahead)
    have hsame := (accountToken?_eq_some_iff.mpr ⟨_, _, rfl, hagain⟩).symm.trans
      (accountToken?_eq_some_iff.mpr ⟨_, _, hrest', hfound'⟩)
    obtain ⟨hkinds, rfl⟩ := Prod.mk.inj (Option.some.inj hsame)
    have himage : t'.image = t.image := by
      have hlength := hfound'.length.symm.trans hfound.length
      exact String.toList_inj.mp (List.append_inj_left hrest' hlength.symm).symm
    exact ⟨hkinds.symm, himage, hpayload'.trans hpayload.symm⟩

/-- A name with an open bracket, in front of the end of a line and in front of a tab. -/
theorem tokenize_accounts_open_bracket :
    let source := "account (A\n"
    let s := (Scanner.start.step source.toList).step " (A\n".toList
    let t : Token := ⟨.realAccount, "(A", ⟨8, 1, 9⟩, some (.segments ["(A"])⟩
    Scanner.Reached source.toList s "(A\n".toList ∧ s.LooksForAccount "(A\n".toList ∧
      (∃ u : Token, u.At source "(A\n".toList ∧ u.place = s.place ∧ u.kind.isAccount) ∧
      t.At source "(A\n".toList ∧ AccountAt "(A\n".toList .realAccount "(A".toList ∧
      ∀ t' : Token, t'.At "account (A\t\n" "(A\t\n".toList → t'.kind.isAccount →
        t'.image = "(A" ∧ t'.payload = some (.segments ["(A"]) := by
  intro source s t
  have hreached : Scanner.Reached source.toList s "(A\n".toList := by
    have hstart : Scanner.Reached source.toList .start source.toList := .start
    have hkeyword := hstart.step (by decide +kernel)
    have hlayout := hkeyword.step (by decide +kernel)
    have hrest : source.toList.drop (Scanner.start.next source.toList).taken = " (A\n".toList := by
      decide +kernel
    rw [hrest] at hlayout
    have hbehind : " (A\n".toList.drop
        ((Scanner.start.step source.toList).next " (A\n".toList).taken = "(A\n".toList := by
      decide +kernel
    rwa [hbehind] at hlayout
  have hlooks : s.LooksForAccount "(A\n".toList :=
    ⟨⟨'(', rfl, rfl, by decide⟩, .inl (by decide +kernel)⟩
  have hat : t.At source "(A\n".toList :=
    ⟨by decide +kernel, "account ".toList, by decide +kernel, by decide +kernel⟩
  have hgap : "\t".toList ∈ manyOf isLayout := List.all_eq_true.mp (by decide)
  obtain ⟨hfound, -, heach, hsame⟩ := tokenize_accounts source
  refine ⟨hreached, hlooks, hfound s _ hreached hlooks, hat, (heach t _ hat rfl).1,
    fun t' hat' hkind' => ?_⟩
  have hrest : "(A\n".toList = t.image.toList ++ ([] ++ "\n".toList) := by decide +kernel
  have hrest' : "(A\t\n".toList = t.image.toList ++ ("\t".toList ++ "\n".toList) := by
    decide +kernel
  obtain ⟨-, himage, hpayload⟩ := hsame t [] "\n".toList (hrest ▸ hat) rfl
    (List.all_eq_true.mp rfl) (by decide +kernel) "account (A\t\n" t' "\t".toList
    (hrest' ▸ hat') hkind' hgap (.tab _)
  exact ⟨himage, hpayload⟩

/-- A space and a tab behind a name: the space is taken for a part of the name. -/
theorem tokenize_space_tab :
    LongestName "A ".toList "\t1\n".toList ∧ "A ".toList.rdropWhile isLayout = "A".toList ∧
      (⟨.realAccount, "A ", ⟨15, 2, 3⟩, some (.segments ["A "])⟩ : Token).At
        "2020/01/01 x\n  A \t1\n" "A \t1\n".toList ∧
      (⟨.realAccount, "A", ⟨15, 2, 3⟩, some (.segments ["A"])⟩ : Token).At
        "2020/01/01 x\n  A\t1\n" "A\t1\n".toList := by
  have hname : NameIn "A ".toList "\t1\n".toList :=
    ⟨⟨List.cons_ne_nil _ _, List.all_eq_true.mp (by decide)⟩, by decide, .tab _⟩
  refine ⟨⟨hname, fun other behind hsame hother => ?_⟩, by decide,
    ⟨by decide +kernel, "2020/01/01 x\n  ".toList, by decide +kernel, by decide +kernel⟩,
    ⟨by decide +kernel, "2020/01/01 x\n  ".toList, by decide +kernel, by decide +kernel⟩⟩
  rcases List.append_eq_append_iff.mp hsame with ⟨more, hmore, -⟩ | ⟨more, rfl, hmore⟩
  · rw [hmore, List.length_append]
    exact Nat.le_add_right _ _
  · -- no name holds the tab
    cases more with
    | nil => exact Nat.le_of_eq (by simp)
    | cons c more =>
      obtain rfl := (List.cons.inj hmore).1
      have hchar := hother.chars.2 '\t' (List.mem_append_right _ List.mem_cons_self)
      cases hchar

end Daybook
