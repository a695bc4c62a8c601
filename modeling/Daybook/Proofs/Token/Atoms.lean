import Daybook.Proofs.Lexeme.Longest
import Daybook.Proofs.Token.Chunks

/-!
# The longest atom

Amounts, prices and assertions are made of atoms, and each atom has a language of its own. Of all
texts of atoms at the front the longest is taken. Only a minus and a number with a minus start
alike, so length decides between these two and otherwise between texts of one atom.

There is one exception. If the longest number has no point, and a comma stands in it or right behind
it, then neither the number nor a part of it is taken, and the minus in front of it is not either.
About `lex_atom` and the patterns of `Atom` ([SPEC 11.3]). Out of scope: how the automaton is made
of the patterns.

* `Atom`, `Atom.texts`, `Atom.kind`, `Atom.payload`: the nine atoms, their languages and what they
  are read as.
* `lexicon`: the texts of all atoms.
* `Atom.IsLongest a text cs`: at the front of `cs`, `text` is the longest text of an atom, and the
  atom is `a`.
* `Atom.Gives a text kind found`: what is found is this text, read as this atom.
* `Atom.Taken a text cs`: at the front of `cs` this text is taken as this atom.

Results:
* `exists_atom`: where something is taken, a text of an atom stands at the front.
* `eq_none_of_stranded`: nothing is taken where the longest number is stranded.
* `taken_of_longest`: **the longest atom is taken**, unless it is a number that is stranded.
* `longest_atom_taken`: **an amount is read by longest match**, stranded numbers apart.
-/

namespace Daybook

open Lexeme Text

/-- What amounts, prices and assertions are made of. -/
inductive Atom
  | dash
  | number
  | commodity
  | quotedCommodity
  | atSign
  | openParen
  | closeParen
  | equals
  | asterisk
deriving DecidableEq, Repr

namespace Atom

/-- The texts of an atom. -/
def texts : Atom → Language Char
  | dash => exactly ['-']
  | number => (1 + exactly ['-']) * numberText
  | commodity => someOf isCommodityChar
  | quotedCommodity => enclosed '"' '"' (someOf isQuotedChar)
  | atSign => exactly ['@']
  | openParen => exactly ['(']
  | closeParen => exactly [')']
  | equals => exactly ['=']
  | asterisk => exactly ['*']

/-- The kind of its tokens. -/
def kind : Atom → Kind
  | dash => .dash
  | number => .number
  | commodity | quotedCommodity => .commodity
  | atSign => .atSign
  | openParen => .openParen
  | closeParen => .closeParen
  | equals => .equals
  | asterisk => .asterisk

/-- What its tokens carry: commodities their text, without quotes. -/
def payload : Atom → List Char → Option Payload
  | commodity, text => some (.text (String.ofList text))
  | quotedCommodity, text => some (.text (String.ofList text.tail.dropLast))
  | _, _ => none

end Atom

/-- The texts of all atoms. -/
def lexicon : Language Char := {text | ∃ a : Atom, text ∈ a.texts}

namespace Atom

/-- Of all texts of atoms at the front this one is the longest, and it is a text of this atom. -/
structure IsLongest (a : Atom) (text cs : List Char) : Prop where
  mem : text ∈ a.texts
  longest : Longest lexicon text cs

/-- What is found is this text, read as this atom. -/
structure Gives (a : Atom) (text : List Char) (kind : Kind) (found : Match) : Prop where
  kind : kind = a.kind
  length : found.length = text.length
  payload : found.payload = a.payload text

/-- This text is taken as this atom. -/
def Taken (a : Atom) (text cs : List Char) : Prop :=
  ∃ found, amountToken? cs = some (a.kind, found) ∧ a.Gives text a.kind found

end Atom

variable {a : Atom} {kind : Kind} {found : Match} {n text cs ahead : List Char}

theorem mem_lexicon (h : text ∈ a.texts) : text ∈ lexicon := ⟨a, h⟩

/-- The longest of all is the longest of its atom. -/
theorem Atom.IsLongest.own (h : a.IsLongest text cs) : Longest a.texts text cs :=
  h.longest.anti (fun _ => mem_lexicon) h.mem

/-- If a text of an atom stands at the front, one of them is the longest. -/
theorem exists_longest_atom (hmem : text ∈ a.texts) (hfront : text <+: cs) :
    ∃ (a : Atom) (text : List Char), a.IsLongest text cs := by
  obtain ⟨text, hlongest⟩ := exists_longest (mem_lexicon hmem) hfront
  obtain ⟨a, hmem⟩ := hlongest.mem
  exact ⟨a, text, hmem, hlongest⟩

/-- The kind tells the atom, but for commodities with quotes and without. -/
theorem Atom.eq_of_kind {b : Atom} (h : a.kind = b.kind) (hb : b.kind ≠ .commodity) : a = b := by
  cases a <;> cases b <;> simp_all [Atom.kind]

/-- A text read as an atom is found in one way. -/
theorem Atom.Gives.unique {kind' : Kind} {found' : Match} (h : a.Gives text kind found)
    (h' : a.Gives text kind' found') : (kind, found) = (kind', found') := by
  obtain ⟨n, payload, hpos⟩ := found
  obtain ⟨n', payload', hpos'⟩ := found'
  obtain ⟨rfl, rfl, rfl⟩ := h
  obtain ⟨rfl, rfl, rfl⟩ := h'
  rfl

/-! ## What is taken is an atom -/

/-- A text of a kind of which amounts are made is a text of an atom. -/
theorem mem_lexicon_of_mem_texts (hkind : kind ∈ amountKinds) (htext : text ∈ kind.texts) :
    text ∈ lexicon := by
  simp only [amountKinds, List.mem_cons, List.not_mem_nil, or_false] at hkind
  rcases hkind with rfl | rfl | rfl | rfl | rfl | rfl | rfl | rfl
  · exact ⟨.dash, htext⟩
  · exact ⟨.number, htext⟩
  · exact htext.elim (fun h => ⟨.commodity, h⟩) fun h => ⟨.quotedCommodity, h⟩
  · exact ⟨.atSign, htext⟩
  · exact ⟨.openParen, htext⟩
  · exact ⟨.closeParen, htext⟩
  · exact ⟨.equals, htext⟩
  · exact ⟨.asterisk, htext⟩

/-- Where something is taken, a text of an atom stands at the front. -/
theorem exists_atom (h : amountToken? cs = some (kind, found)) :
    ∃ (a : Atom) (text : List Char), text ∈ a.texts ∧ text <+: cs := by
  obtain ⟨text, ahead, rfl, ⟨htext, -⟩, -, -⟩ := takes_amountToken? h
  obtain ⟨a, hmem⟩ := mem_lexicon_of_mem_texts (kind_of_amountToken? h) htext
  exact ⟨a, text, hmem, List.prefix_append _ _⟩

/-! ## Numbers -/

theorem signText_mem (minus : Bool) : signText minus ∈ (1 + exactly ['-'] : Language Char) := by
  cases minus with
  | true => exact .inr rfl
  | false => exact .inl rfl

/-- The longest number with a sign is the longest number behind its sign. -/
theorem exists_sign (h : Longest Atom.number.texts text cs) : ∃ minus n ahead,
    text = signText minus ++ n ∧ cs = signText minus ++ n ++ ahead ∧
      Longest numberText n (n ++ ahead) := by
  obtain ⟨sign, hsign, n, hn, rfl⟩ := h.mem
  obtain ⟨minus, rfl⟩ : ∃ minus, sign = signText minus := by
    rcases hsign with rfl | rfl
    · exact ⟨false, rfl⟩
    · exact ⟨true, rfl⟩
  obtain ⟨ahead, rfl⟩ := h.isPrefix
  refine ⟨minus, n, ahead, rfl, rfl, hn, List.prefix_append _ _, fun other hother hprefix => ?_⟩
  have hfront : signText minus ++ other <+: signText minus ++ n ++ ahead := by
    rw [List.append_assoc]
    exact (List.prefix_append_right_inj _).mpr hprefix
  have hle := h.length_le _ (Language.append_mem_mul (signText_mem minus) hother) hfront
  simpa using hle

theorem stranded_signed (minus : Bool) : Stranded (signText minus ++ n) (signText minus ++ n ++ ahead) ↔
    Stranded n (n ++ ahead) := by
  rw [stranded_append, stranded_append]
  cases minus <;> simp [signText]

/-- Nothing is taken of a number that is stranded. -/
theorem eq_none_of_stranded (h : Longest Atom.number.texts text cs) (hstranded : Stranded text cs) :
    amountToken? cs = none := by
  obtain ⟨minus, n, ahead, rfl, rfl, hlongest⟩ := exists_sign h
  have hbare := (stranded_signed minus).mp hstranded
  exact amountToken?_signed_eq_none minus hlongest.mem hbare.1
    ((numberLength_of_longest hlongest).1 hbare)

/-- Any other longest number is taken. -/
theorem taken_number (h : Longest Atom.number.texts text cs) (hstranded : ¬ Stranded text cs) :
    Atom.number.Taken text cs := by
  obtain ⟨minus, n, ahead, rfl, rfl, hlongest⟩ := exists_sign h
  have hbare : ¬ Stranded n (n ++ ahead) := fun hs => hstranded ((stranded_signed minus).mpr hs)
  obtain ⟨hpos, htoken⟩ := amountToken?_signed minus hlongest.mem
    ((numberLength_of_longest hlongest).2 hbare)
  exact ⟨_, htoken, rfl, rfl, rfl⟩

/-- A minus is taken by itself if no number is behind it. -/
theorem amountToken?_single_dash (h : ∀ n ∈ numberText, ¬ n <+: cs) :
    amountToken? ('-' :: cs) = some (.dash, Match.single) := by
  have hnumber : numberLength cs = 0 := by
    by_contra hne
    obtain ⟨n, ahead, rfl, hn, -, -⟩ := takes_numberLength (Nat.pos_of_ne_zero hne)
    exact h n hn (List.prefix_append _ _)
  have hdigit : ¬ cs.head?.any Char.isDigit := by
    intro hany
    obtain ⟨d, hd, hdigit⟩ := (Option.any_eq_true _ _).mp hany
    obtain ⟨more, rfl⟩ := List.head?_eq_some_iff.mp hd
    have hsingle : [d] ∈ someOf Char.isDigit := ⟨List.cons_ne_nil _ _, by simpa using hdigit⟩
    exact h [d] (mem_numberText (by simp) (.inl rfl) (.inl rfl) hsingle) ⟨more, rfl⟩
  rw [amountToken?_dash hnumber, if_neg hdigit]

/-- A number is longer than its minus. -/
theorem not_prefix_of_longest_dash (h : Longest lexicon ['-'] ('-' :: cs)) :
    ∀ n ∈ numberText, ¬ n <+: cs := by
  intro n hn hfront
  have hmem : ['-'] ++ n ∈ Atom.number.texts := Language.append_mem_mul (.inr rfl) hn
  have hle := h.length_le _ (mem_lexicon hmem) ((List.prefix_append_right_inj ['-']).mpr hfront)
  exact ne_nil_of_mem_numberText hn (List.length_eq_zero_iff.mp (by simpa using hle))

/-- A number ends in a digit. -/
theorem isDigit_getLast (h : text ∈ Atom.number.texts) : ∃ d ∈ text.getLast?, d.isDigit := by
  obtain ⟨sign, -, n, ⟨front, -, digits, hdigits, rfl⟩, rfl⟩ := h
  obtain ⟨last, hlast⟩ := Option.isSome_iff_exists.mp (List.getLast?_isSome.mpr hdigits.1)
  refine ⟨last, ?_, hdigits.2 last (List.mem_of_getLast? hlast)⟩
  exact List.mem_getLast?_append_of_mem_getLast? (List.mem_getLast?_append_of_mem_getLast? hlast)

/-! ## Commodities -/

/-- The longest commodity is taken, for no letter is behind it. -/
theorem taken_commodity (h : Longest Atom.commodity.texts text cs) :
    Atom.commodity.Taken text cs := by
  obtain ⟨ahead, rfl⟩ := h.isPrefix
  have hstop : ∀ d ∈ ahead.head?, isCommodityChar d = false := by
    intro d hd
    obtain ⟨more, rfl⟩ := List.head?_eq_some_iff.mp hd
    by_contra hchar
    have hmore : text ++ [d] ∈ Atom.commodity.texts :=
      ⟨by simp, List.forall_mem_append.mpr ⟨h.mem.2, by simpa using hchar⟩⟩
    have hle := h.length_le _ hmore ⟨more, by simp⟩
    exact absurd hle (by simp)
  exact ⟨_, amountToken?_letters h.mem hstop, rfl, rfl, rfl⟩

/-- Quotes are taken with what is between them. -/
theorem taken_quotedCommodity (hmem : text ∈ Atom.quotedCommodity.texts) (hfront : text <+: cs) :
    Atom.quotedCommodity.Taken text cs := by
  obtain ⟨_, ⟨_, rfl, inner, hinner, rfl⟩, _, rfl, rfl⟩ := hmem
  obtain ⟨ahead, rfl⟩ := hfront
  have htoken := amountToken?_quotes hinner ahead
  refine ⟨.enclosing inner (.text (String.ofList inner)), ?_, rfl, ?_, ?_⟩
  · simpa [Atom.kind] using htoken
  · simp [Match.enclosing]
  · simp [Match.enclosing, Atom.payload]

/-! ## The longest atom -/

/-- **The longest atom is taken**, unless it is a number that is stranded. -/
theorem taken_of_longest (h : a.IsLongest text cs) (hplain : a = .number → ¬ Stranded text cs) :
    a.Taken text cs := by
  have hmem := h.mem
  obtain ⟨ahead, hahead⟩ := h.longest.isPrefix
  cases a with
  | number => exact taken_number h.own (hplain rfl)
  | commodity => exact taken_commodity h.own
  | quotedCommodity => exact taken_quotedCommodity hmem h.longest.isPrefix
  | dash =>
    obtain rfl : text = ['-'] := hmem
    obtain rfl := hahead
    exact ⟨_, amountToken?_single_dash (not_prefix_of_longest_dash h.longest), rfl, rfl, rfl⟩
  | atSign | openParen | closeParen | equals | asterisk =>
    obtain rfl := hmem
    obtain rfl := hahead
    exact ⟨Match.single, rfl, rfl, rfl, rfl⟩

/-- What is taken is the longest atom. -/
theorem amountToken?_eq_some_iff : amountToken? cs = some (kind, found) ↔
    ∃ (a : Atom) (text : List Char), a.IsLongest text cs ∧
      ¬ (a = .number ∧ Stranded text cs) ∧ a.Gives text kind found := by
  constructor
  · intro h
    obtain ⟨b, other, hmem, hfront⟩ := exists_atom h
    obtain ⟨a, text, hlongest⟩ := exists_longest_atom hmem hfront
    have hplain : ¬ (a = .number ∧ Stranded text cs) := by
      rintro ⟨rfl, hstranded⟩
      exact absurd (h.symm.trans (eq_none_of_stranded hlongest.own hstranded)) (by simp)
    obtain ⟨_, htaken, hgives⟩ := taken_of_longest hlongest (not_and.mp hplain)
    obtain ⟨rfl, rfl⟩ := Prod.mk.inj (Option.some.inj (h.symm.trans htaken))
    exact ⟨a, text, hlongest, hplain, hgives⟩
  · rintro ⟨a, text, hlongest, hplain, hgives⟩
    obtain ⟨other, htaken, hother⟩ := taken_of_longest hlongest (not_and.mp hplain)
    rw [htaken, hother.unique hgives]

/-- Nothing is taken where no atom stands at the front, or a number that is stranded. -/
theorem amountToken?_eq_none_iff : amountToken? cs = none ↔
    (∀ a : Atom, ∀ text ∈ a.texts, ¬ text <+: cs) ∨
      ∃ text, Atom.number.IsLongest text cs ∧ Stranded text cs := by
  constructor
  · intro hnone
    by_contra! h
    obtain ⟨⟨b, other, hmem, hfront⟩, hplain⟩ := h
    obtain ⟨a, text, hlongest⟩ := exists_longest_atom hmem hfront
    obtain ⟨_, htaken, -⟩ := taken_of_longest hlongest (by rintro rfl; exact hplain text hlongest)
    exact absurd (htaken.symm.trans hnone) (by simp)
  · rintro (hno | ⟨text, hlongest, hstranded⟩)
    · refine Option.eq_none_iff_forall_ne_some.mpr fun ⟨kind, found⟩ h => ?_
      obtain ⟨a, text, hmem, hfront⟩ := exists_atom h
      exact hno a text hmem hfront
    · exact eq_none_of_stranded hlongest.own hstranded

/-- The number that is taken is the longest number. -/
theorem amountToken?_eq_number_iff : amountToken? cs = some (.number, found) ↔
    ∃ text, Longest Atom.number.texts text cs ∧ ¬ Stranded text cs ∧
      Atom.number.Gives text .number found := by
  constructor
  · intro h
    obtain ⟨a, text, hlongest, hplain, hgives⟩ := amountToken?_eq_some_iff.mp h
    obtain rfl : a = .number := Atom.eq_of_kind hgives.kind.symm (by decide)
    exact ⟨text, hlongest.own, fun hstranded => hplain ⟨rfl, hstranded⟩, hgives⟩
  · rintro ⟨text, hlongest, hplain, hgives⟩
    obtain ⟨other, htaken, hother⟩ := taken_number hlongest hplain
    rw [htaken]
    exact congrArg some (hother.unique hgives)

/-- A minus is taken by itself where no number is behind it, and only there. -/
theorem amountToken?_eq_dash_iff : amountToken? cs = some (.dash, found) ↔
    found = Match.single ∧ ∃ rest, cs = '-' :: rest ∧ ∀ n ∈ numberText, ¬ n <+: rest := by
  constructor
  · intro h
    obtain ⟨a, text, hlongest, -, hgives⟩ := amountToken?_eq_some_iff.mp h
    obtain rfl : a = .dash := Atom.eq_of_kind hgives.kind.symm (by decide)
    obtain rfl : text = ['-'] := hlongest.mem
    obtain ⟨rest, rfl⟩ := hlongest.longest.isPrefix
    have hno := not_prefix_of_longest_dash hlongest.longest
    have hsame := (amountToken?_single_dash hno).symm.trans h
    exact ⟨(Prod.mk.inj (Option.some.inj hsame)).2.symm, rest, rfl, hno⟩
  · rintro ⟨rfl, rest, rfl, hno⟩
    exact amountToken?_single_dash hno

/-- **An amount is read by longest match**, stranded numbers apart. What is taken is the longest
text of an atom at the front, and what it is read as. Nothing is taken only if no text of an atom
stands there, or if the longest is a number that is stranded. A number that is taken is the longest
number and ends in a digit, so that no comma and no point is left at its end, and a minus is taken
by itself exactly where no number is behind it. -/
theorem longest_atom_taken (rest : List Char) :
    (∀ kind found, amountToken? rest = some (kind, found) ↔
      ∃ (a : Atom) (text : List Char), a.IsLongest text rest ∧
        ¬ (a = .number ∧ Stranded text rest) ∧ a.Gives text kind found) ∧
    (amountToken? rest = none ↔
      (∀ a : Atom, ∀ text ∈ a.texts, ¬ text <+: rest) ∨
        ∃ text, Atom.number.IsLongest text rest ∧ Stranded text rest) ∧
    (∀ found, amountToken? rest = some (.number, found) ↔
      ∃ text, Longest Atom.number.texts text rest ∧ (∃ d ∈ text.getLast?, d.isDigit) ∧
        ¬ Stranded text rest ∧ Atom.number.Gives text .number found) ∧
    (∀ found, amountToken? rest = some (.dash, found) ↔
      found = Match.single ∧ ∃ cs, rest = '-' :: cs ∧ ∀ n ∈ numberText, ¬ n <+: cs) := by
  refine ⟨fun _ _ => amountToken?_eq_some_iff, amountToken?_eq_none_iff, fun found => ?_,
    fun _ => amountToken?_eq_dash_iff⟩
  rw [amountToken?_eq_number_iff]
  constructor
  · rintro ⟨text, hlongest, hplain, hgives⟩
    exact ⟨text, hlongest, isDigit_getLast hlongest.mem, hplain, hgives⟩
  · rintro ⟨text, hlongest, -, hplain, hgives⟩
    exact ⟨text, hlongest, hplain, hgives⟩

/-- Digits with a comma among them are a number of which nothing is taken: the source is passed over
up to the comma. -/
theorem grouped_number_passed_over : "1,000".toList ∈ Atom.number.texts ∧
    "1,000".toList <+: "1,000\n".toList ∧ amountToken? "1,000\n".toList = none ∧
    (tokenize "2020/01/01 x\n  A  1,000\n").faults = [⟨⟨18, 2, 6⟩, 2, .unexpected .amountLine⟩] := by
  have hgrouped : ∀ c ∈ "1,".toList, c.isDigit ∨ c = ',' := by simp
  have hdigits : "000".toList ∈ someOf Char.isDigit :=
    ⟨List.cons_ne_nil _ _, List.all_eq_true.mp (by decide)⟩
  have hnumber : "1,".toList ++ [] ++ "000".toList ∈ numberText :=
    mem_numberText hgrouped (.inr ⟨'1', rfl, rfl⟩) (.inl rfl) hdigits
  exact ⟨Language.append_mem_mul (signText_mem false) hnumber, ⟨['\n'], rfl⟩, rfl,
    by decide +kernel⟩

/-- A fraction behind the digits and commas, and a comma that is left behind it. -/
example : amountToken? "-1,.5, x".toList = some (.number, ⟨5, none, by decide⟩) := rfl

end Daybook
