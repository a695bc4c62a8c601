import Daybook.Lexeme.AccountName
import Daybook.Lexeme.Amount
import Daybook.Lexeme.Comment
import Daybook.Lexeme.Date
import Daybook.Lexeme.Line
import Daybook.Token.Basic
import Daybook.Token.Mode

/-!
# Which tokens each mode reads

Model of the rule tables (`Cursor`, `Scan`, `Transition`, `Rule`, the `scan_` functions,
`match_rule`; [SPEC 11.3]). Every mode has a list of rules, tried in order; the first that finds
something wins. A rule looks at the rest of the source, at the character before it and at the tokens
read so far. In the modes that read amounts, numbers, commodities and single signs come after the
rules (`lex_atom`).

* A scan is told by the characters that it takes and is not empty (`Match.length_pos`), as
  `match_rule` passes over empty ones. The tokenizer ends by this.
* The scanners of one shape are one definition with parameters: keywords, signs, free text up to a
  stop, enclosed accounts, dates behind another token.

Out of scope: log events when a mode is entered or left ([SPEC 12.1]).

Results:
* `Match.length_pos`: whatever is found is not empty. The bound is part of the type, and with it the
  tokenizer ends.
-/

namespace Daybook

open Lexeme

/-- A token found at the front of the rest: its length in characters and what it means. -/
structure Match where
  /-- Characters taken. -/
  length : Nat
  /-- What they mean beyond their text. -/
  payload : Option Payload
  /-- Something is taken. -/
  length_pos : 0 < length

namespace Match

/-- So many characters; none at all is no match. -/
def ofLength (n : Nat) : Option Match := if h : 0 < n then some ⟨n, none, h⟩ else none

/-- The first character. -/
def single : Match := ⟨1, none, Nat.one_pos⟩

/-- A text with one character around it on each side. -/
def enclosing (inner : List Char) (payload : Payload) : Match :=
  ⟨inner.length + 2, some payload, Nat.succ_pos _⟩

end Match

/-- What a rule looks at. -/
structure View where
  /-- The source that is still to be read. -/
  rest : List Char
  /-- The character before it. -/
  before : Option Char
  /-- The bytes before it. -/
  offset : Nat
  /-- The tokens before it, the last one first. -/
  history : List Token

namespace View

/-- Whether a line starts here. -/
def atLineStart (v : View) : Bool := v.before.all (· = '\n')

/-- Whether the last token is of one of these kinds. -/
def follows (v : View) (kinds : List Kind) : Bool :=
  v.history.head?.any fun t => decide (t.kind ∈ kinds)

/-- Whether the last token ends right here. -/
def touches (v : View) : Bool := v.history.head?.any (·.stop = v.offset)

/-- The kind of the token that opened the current item. -/
def opener? (v : View) : Option Kind := (v.history.map (·.kind)).find? Kind.opensItem

/-- The first character, if it is this one. -/
def sign (v : View) (c : Char) : Option Match :=
  if v.rest.head? = some c then some Match.single else none

/-- A word with a space or a tab after it. -/
def keyword (v : View) (word : String) : Option Match :=
  Match.ofLength (keywordLength word.toList v.rest)

/-- A date. -/
def date (v : View) : Option Match := (dateLength? v.rest).bind Match.ofLength

/-- Text in front of a stop or the end of the line. -/
def textUpTo (v : View) (isStop : Char → Bool) : Option Match :=
  Match.ofLength (freeRun isStop v.rest).length

/-- `=` right after the date of a transaction; not after its second date. -/
def secondDateSign (v : View) : Option Match :=
  let first := v.history[1]?.all (·.kind ≠ .equals)
  if v.follows [.date] && v.touches && first then v.sign '=' else none

/-- The second date of a transaction, right after `=`. -/
def secondDate (v : View) : Option Match :=
  if v.follows [.equals] && v.touches then v.date else none

/-- A cheque number: parentheses with no closing one and no end of the line inside. -/
def chequeNumber (v : View) : Option Match :=
  match v.rest with
  | '(' :: cs =>
    let inner := cs.takeWhile fun c => !(c = ')' || Text.endsLine c)
    if (cs.drop inner.length).head? = some ')' then
      some (Match.enclosing inner (.text (String.ofList inner)))
    else none
  | _ => none

/-- The name of a tag, at the start of a word. -/
def tagName (v : View) : Option Match :=
  if opensWord v.before then (tagNameLength? v.rest).bind Match.ofLength else none

/-- `format` under a commodity. -/
def formatKeyword (v : View) : Option Match :=
  (v.keyword "format").filter fun _ =>
    v.opener? = some .commodityKeyword || v.opener? = some .defaultKeyword

/-- A status sign right after the indentation, with a space or a tab after it. -/
def postingStatus (v : View) (c : Char) : Option Match :=
  if v.follows [.indent] then Match.ofLength (keywordLength [c] v.rest) else none

/-- An account without brackets. -/
def realAccount (v : View) : Option Match :=
  (Match.ofLength (nameLength v.rest)).map fun found =>
    { found with payload := some (.segments (pathNames (v.rest.take found.length))) }

/-- An account in brackets. -/
def enclosedAccount (v : View) (opening closing : Char) : Option Match :=
  (enclosedName? opening closing v.rest).map fun inner =>
    Match.enclosing inner (.segments (pathNames inner))

end View

/-- How a token changes the mode. -/
inductive Move
  /-- The mode stays. -/
  | stay
  /-- A mode is entered. -/
  | enter (mode : Mode)
  /-- The mode is left. -/
  | leave
deriving DecidableEq, Repr

/-- The stack after a move. -/
def ModeStack.move (s : ModeStack) : Move → ModeStack
  | .stay => s
  | .enter mode => s.push mode
  | .leave => s.pop

/-- A kind of token, how it is found and how it changes the mode. -/
structure Rule where
  /-- The kind. -/
  kind : Kind
  /-- How it is found. -/
  find : View → Option Match
  /-- The change of mode. -/
  move : Move := .stay

namespace Rule

/-- `;` opens an inline comment. -/
def inlineComment : Rule := ⟨.semicolon, fun v => v.sign ';', .enter .inlineComment⟩

/-- A rule that holds only where a line starts. -/
def atLineStart (kind : Kind) (find : View → Option Match) (mode : Mode) : Rule :=
  ⟨kind, fun v => if v.atLineStart then find v else none, .enter mode⟩

/-- A rule that holds only after tokens of these kinds. -/
def after (kinds : List Kind) (kind : Kind) (find : View → Option Match) (move : Move) : Rule :=
  ⟨kind, fun v => if v.follows kinds then find v else none, move⟩

/-- The three kinds of accounts. -/
def accounts (move : Move) : List Rule :=
  [⟨.virtualAccount, fun v => v.enclosedAccount '(' ')', move⟩,
   ⟨.balancedAccount, fun v => v.enclosedAccount '[' ']', move⟩,
   ⟨.realAccount, View.realAccount, move⟩]

end Rule

/-- The rules of a mode, in the order in which they are tried. -/
def Mode.rules : Mode → List Rule
  | lineStart =>
    [.atLineStart .date View.date .header,
     .atLineStart .priceKeyword (·.keyword "P") .priceDirective,
     .atLineStart .accountKeyword (·.keyword "account") .accountDirective,
     .atLineStart .commodityKeyword (·.keyword "commodity") .amountLine,
     .atLineStart .defaultKeyword (·.keyword "D") .amountLine,
     .atLineStart .indent (fun v => Match.ofLength (layoutLength v.rest)) .indented,
     .atLineStart .commentMarker (fun v => v.sign ';' <|> v.sign '#' <|> v.sign '*') .lineComment]
  | header =>
    [⟨.equals, View.secondDateSign, .stay⟩,
     ⟨.date, View.secondDate, .stay⟩,
     .after [.date] .asterisk (·.sign '*') .stay,
     .after [.date] .exclamation (·.sign '!') .stay,
     .after [.date, .asterisk, .exclamation] .chequeNumber View.chequeNumber .stay,
     .inlineComment,
     .after [.text] .pipe (·.sign '|') (.enter .memo),
     ⟨.text, fun v => v.textUpTo fun c => c = ';' || c = '|', .stay⟩]
  | memo =>
    [.inlineComment,
     ⟨.text, fun v => v.textUpTo (· = ';'), .stay⟩]
  | inlineComment =>
    [⟨.tagName, View.tagName, .stay⟩,
     .after [.tagName] .tagColon (fun v => if v.touches then v.sign ':' else none)
       (.enter .tagValue),
     ⟨.inlineText, fun v => Match.ofLength (textRun v.rest).length, .stay⟩]
  | tagValue =>
    [⟨.tagComma, fun v => v.sign ',', .leave⟩,
     ⟨.tagValue, fun v => v.textUpTo (· = ','), .stay⟩]
  | lineComment =>
    [⟨.commentText, fun v => Match.ofLength (lineRest v.rest).length, .stay⟩]
  | indented =>
    [.inlineComment,
     ⟨.formatKeyword, View.formatKeyword, .enter .amountLine⟩,
     ⟨.asterisk, fun v => v.postingStatus '*', .stay⟩,
     ⟨.exclamation, fun v => v.postingStatus '!', .stay⟩] ++ Rule.accounts (.enter .amountLine)
  | amountLine => [.inlineComment]
  | priceDirective =>
    [.after [.priceKeyword] .date View.date .stay,
     .inlineComment]
  | accountDirective => .inlineComment :: Rule.accounts .stay

/-- The number, commodity or sign of an amount at the front. A minus right before a number that is
refused for its commas is refused with it. -/
def amountToken? (cs : List Char) : Option (Kind × Match) :=
  match cs with
  | [] => none
  | '-' :: rest =>
    match Match.ofLength (numberLength rest) with
    | some found => some (.number, ⟨found.length + 1, none, Nat.succ_pos _⟩)
    | none => if rest.head?.any Char.isDigit then none else some (.dash, Match.single)
  | '@' :: _ => some (.atSign, Match.single)
  | '(' :: _ => some (.openParen, Match.single)
  | ')' :: _ => some (.closeParen, Match.single)
  | '=' :: _ => some (.equals, Match.single)
  | '*' :: _ => some (.asterisk, Match.single)
  | '"' :: _ =>
    (quotedCommodity? cs).map fun inner =>
      (.commodity, Match.enclosing inner (.text (String.ofList inner)))
  | _ =>
    let name := cs.takeWhile isCommodityChar
    match Match.ofLength name.length with
    | some found =>
      some (.commodity, { found with payload := some (.text (String.ofList name)) })
    | none => (Match.ofLength (numberLength cs)).map (.number, ·)

/-- The token that a rule finds at the front, and how it changes the mode. -/
def Rule.token? (rule : Rule) (v : View) : Option (Kind × Match × Move) :=
  (rule.find v).map fun found => (rule.kind, found, rule.move)

/-- The token at the front in a mode, and how it changes the mode: by the first rule that finds
something, then as part of an amount. -/
def Mode.token? (mode : Mode) (v : View) : Option (Kind × Match × Move) :=
  match mode.rules.findSome? (·.token? v) with
  | some token => some token
  | none =>
    if mode.readsAmounts then (amountToken? v.rest).map fun (kind, found) => (kind, found, .stay)
    else none

end Daybook
